import RegisterVM.Proofs.Encoding
import RegisterVM.Proofs.RoundTrip

/-!
# Decoding undoes encoding

A record of fixed arrays can hold more than its opcode calls for: values at positions that are not
declared, a list where there is none, wide bits at will. Encoding looks at the declared operands
only, and widens those that do not fit in one byte. `instruction` is what it looks at; decoding the
code again finds that instruction, up to the forms that encoding has chosen, and zeros everywhere
else.
-/

namespace RegisterVM

namespace Format

/-- Whether operands of the format stand among the 32-bit values of a record. -/
def isArg : Format → Bool
  | .uint | .pool | .jump | .int32 | .float32 => true
  | .registers | .int64 | .float64 => false

/-- Whether operands of the format stand among the 64-bit values of a record. -/
def isLong : Format → Bool
  | .int64 | .float64 => true
  | .uint | .pool | .jump | .registers | .int32 | .float32 => false

end Format

namespace Slots

/-- The 32-bit value at a position. -/
def arg (slots : Slots) (i : Nat) : Int32 := slots.args[i]?.getD 0

/-- The 64-bit value at a position. -/
def long (slots : Slots) (i : Nat) : Int64 := slots.longs[i]?.getD 0

/-- The formats that the opcode of the record declares. -/
def formats (slots : Slots) : List Format := Opcode.formatsOf slots.opcode

/-- The instruction that a record stands for: what it holds at the positions that its opcode
declares. -/
def instruction (slots : Slots) : Instruction :=
  .ofPositions slots.opcode slots.arg slots.long slots.list slots.wide.testBit

/-- What the record holds for operand `i` is in the range of the format. It is said by position,
with the bounds as numbers. -/
def InRange (slots : Slots) (i : Nat) : Format → Prop
  | .uint | .pool => 0 ≤ (slots.arg i).toInt ∧ (slots.arg i).toInt ≤ 0x7FFF
  | .jump => -0x4000 ≤ (slots.arg i).toInt ∧ (slots.arg i).toInt ≤ 0x3FFF
  | .registers => slots.list.length ≤ 0x7FFF ∧ ∀ r ∈ slots.list, 0 ≤ r.toInt ∧ r.toInt ≤ 0xFFFF
  | .int32 | .float32 | .int64 | .float64 => True

/-- The opcode is assigned and every declared operand is in the range of its format. What the record
holds elsewhere does not matter. -/
structure Encodable (slots : Slots) : Prop where
  assigned : (Opcode.ofByte? slots.opcode).isSome = true
  inRange : ∀ i f, slots.formats[i]? = some f → slots.InRange i f

/-- A record that holds what another declares, and zero at every position that the other does not
declare. Wide bits and the size are not compared, since encoding may have changed them. -/
structure Repeats (found slots : Slots) : Prop where
  opcode : found.opcode = slots.opcode
  arg : ∀ i < Instruction.positions,
    found.arg i = if slots.formats[i]?.any Format.isArg then slots.arg i else 0
  long : ∀ i < Instruction.positions,
    found.long i = if slots.formats[i]?.any Format.isLong then slots.long i else 0
  list : found.list = if .registers ∈ slots.formats then slots.list else []

/-! ### What encoding looks at -/

section

variable (slots : Slots)

/-- The operand that the record gives for format `f` at position `i`. -/
def operand (i : Nat) (f : Format) : Operand :=
  Instruction.operandOf (slots.arg i) (slots.long i) slots.list (slots.wide.testBit i) f

theorem operands_instruction :
    slots.instruction.operands = slots.formats.mapIdx slots.operand := rfl

/-- Appending one operand writes the operand that the record gives at its position. -/
theorem appendOperand_eq {i : Nat} (hi : i < Instruction.positions) (f : Format)
    (out : List UInt8) :
    slots.appendOperand i f out =
      some ((Instruction.writeOperand slots.opcode i f (slots.operand i f)).map (out ++ ·)) := by
  have hargs : slots.args[i]? = some (slots.arg i) := by simp [arg, hi]
  have hlongs : slots.longs[i]? = some (slots.long i) := by simp [long, hi]
  rw [appendOperand, hargs, hlongs]
  rfl

/-- Appending operands by position writes the operands that the record gives there. The induction is
on the formats, with the position going up. -/
theorem appendOperands_mapIdx {i : Nat} {formats : List Format}
    (hroom : i + formats.length ≤ Instruction.positions) (out : List UInt8) :
    slots.appendOperands i formats out =
      some ((Instruction.writeOperands slots.opcode i formats
        (formats.mapIdx fun j => slots.operand (i + j))).map (out ++ ·)) := by
  induction formats generalizing i out with
  | nil => simp [appendOperands, Instruction.writeOperands, Except.map]
  | cons f formats ih =>
      rw [List.length_cons] at hroom
      have hshift : (fun j => slots.operand (i + (j + 1))) = fun j =>
          slots.operand (i + 1 + j) := by
        funext j
        rw [Nat.add_right_comm, Nat.add_assoc]
      simp only [appendOperands, slots.appendOperand_eq (show i < _ by omega), Option.bind_eq_bind,
        Option.bind_some, List.mapIdx_cons, Instruction.writeOperands, List.head?_cons,
        Option.getD_some, List.tail_cons, Nat.add_zero, hshift]
      cases Instruction.writeOperand slots.opcode i f (slots.operand i f) with
      | error e => rfl
      | ok front =>
          simp only [Except.map, ih (show i + 1 + formats.length ≤ _ by omega)]
          cases Instruction.writeOperands slots.opcode (i + 1) formats
            (formats.mapIdx fun j => slots.operand (i + 1 + j)) with
          | error e => rfl
          | ok back => simp [bind, Except.bind, pure, Except.pure]

/-- Appending a record appends the encoding of the instruction that the record stands for, whatever
it holds besides. From here on records are compared through their instructions. -/
theorem append_instruction (out : List UInt8) :
    slots.append out = some (slots.instruction.encode.map (out ++ ·)) := by
  rw [append, getElem?_opcodeTable]
  simp only [Option.bind_eq_bind, Option.bind_some]
  cases hop : Opcode.ofByte? slots.opcode with
  | none =>
      have hencode : slots.instruction.encode = .error (.unknownOpcode slots.opcode) := by
        simp only [instruction, Instruction.ofPositions, Instruction.encode, hop]
      rw [if_pos ((familyOf_eq_zero_iff _).mpr hop), hencode]
      rfl
  | some op =>
      have hassigned : Opcode.familyOf slots.opcode ≠ 0 := by
        rw [ne_eq, familyOf_eq_zero_iff, hop]
        simp
      have hroom : 0 + op.formats.length ≤ Instruction.positions := by
        have := op.length_formats_le
        rw [Instruction.positions]
        omega
      rw [if_neg hassigned, Opcode.formatsOf_eq hop, slots.appendOperands_mapIdx hroom]
      simp only [Nat.zero_add, Instruction.encode, instruction, Instruction.ofPositions, hop,
        Opcode.formatsOf_eq hop]
      change some (Except.map _
          (Instruction.writeOperands _ _ _ (op.formats.mapIdx slots.operand))) =
        some (Except.map _
          (Instruction.writeOperands _ _ _ (op.formats.mapIdx slots.operand) >>= _))
      cases Instruction.writeOperands slots.opcode 0 op.formats
        (op.formats.mapIdx slots.operand) with
      | error e => rfl
      | ok code => simp [Except.map, bind, Except.bind, pure, Except.pure]

/-- The ranges of a record are those of the instruction that it stands for. -/
theorem inRange_operand (i : Nat) (f : Format) :
    (slots.operand i f).InRange f ↔ slots.InRange i f := by
  cases f <;> exact Iff.rfl

theorem encodable_instruction : slots.instruction.Encodable ↔ slots.Encodable := by
  rw [Instruction.Encodable, operands_instruction, List.forall₂_iff_get]
  constructor
  · rintro ⟨hassigned, -, hranges⟩
    refine ⟨hassigned, fun i f hf => ?_⟩
    obtain ⟨hi, rfl⟩ := List.getElem?_eq_some_iff.mp hf
    have hrange := hranges i hi (by rwa [List.length_mapIdx])
    simp only [List.get_eq_getElem, List.getElem_mapIdx] at hrange
    exact (slots.inRange_operand i _).mp hrange
  · rintro ⟨hassigned, hranges⟩
    refine ⟨hassigned, (List.length_mapIdx ..).symm, fun i hi _ => ?_⟩
    simp only [List.get_eq_getElem, List.getElem_mapIdx]
    exact (slots.inRange_operand i _).mpr (hranges i _ (List.getElem?_eq_getElem hi))

/-! ### What the record stands for, by position -/

/-- At a position that is not declared for it, the instruction has no value. -/
theorem arg_instruction (i : Nat) :
    slots.instruction.arg i = if slots.formats[i]?.any Format.isArg then slots.arg i else 0 := by
  rw [Instruction.arg, operands_instruction, List.getElem?_mapIdx]
  cases slots.formats[i]? with
  | none => rfl
  | some f => cases f <;> rfl

theorem long_instruction (i : Nat) :
    slots.instruction.long i = if slots.formats[i]?.any Format.isLong then slots.long i else 0 := by
  rw [Instruction.long, operands_instruction, List.getElem?_mapIdx]
  cases slots.formats[i]? with
  | none => rfl
  | some f => cases f <;> rfl

/-- Operands taken from one list hold it as often as a list is declared, and that is at most
once. -/
theorem lists_mapIdx {formats : List Format} (hone : formats.count .registers ≤ 1)
    (make : Nat → Format → Operand) (hfits : ∀ i f, (make i f).Fits f)
    (hlist : ∀ i, (make i .registers).list = slots.list) :
    (formats.mapIdx make).flatMap Operand.list = if .registers ∈ formats then slots.list
        else [] := by
  induction formats generalizing make with
  | nil => rfl
  | cons f formats ih =>
      have hrest :=
        ih (Nat.le_trans (List.Sublist.count_le _ (List.sublist_cons_self f formats)) hone)
        (fun i => make (i + 1)) (fun i g => hfits (i + 1) g) (fun i => hlist (i + 1))
      rw [List.mapIdx_cons, List.flatMap_cons, hrest]
      by_cases hf : f = .registers
      · subst hf
        rw [List.count_cons_self] at hone
        have hnone : Format.registers ∉ formats := List.count_eq_zero.mp (by omega)
        rw [hlist, if_neg hnone, if_pos List.mem_cons_self, List.append_nil]
      · rw [list_of_fits (hfits 0 f) hf, List.nil_append]
        simp only [List.mem_cons, Ne.symm hf, false_or]

theorem registers_instruction :
    slots.instruction.registers = if .registers ∈ slots.formats then slots.list else [] := by
  have hone : slots.formats.count .registers ≤ 1 := by
    rw [formats]
    cases hop : Opcode.ofByte? slots.opcode with
    | none => simp [Opcode.formatsOf, hop]
    | some op =>
        rw [Opcode.formatsOf_eq hop]
        exact count_registers_le op
  rw [Instruction.registers, operands_instruction]
  exact slots.lists_mapIdx hone slots.operand (fun i f => Operand.fits_operandOf _ _ _ _ f)
    fun _ => rfl

end

/-! ### The round trip -/

/-- A record that holds an instruction which differs from that of another record only in the forms
of its operands repeats the other record. -/
theorem Holds.repeats {found slots : Slots} {inst : Instruction} (h : found.Holds inst)
    (hsame : inst.narrow = slots.instruction.narrow) : found.Repeats slots where
  opcode := by
    have hopcode : inst.opcode = slots.opcode := congrArg Instruction.opcode hsame
    rw [h.opcode, hopcode]
  arg i hi := by
    rw [← arg_instruction, ← Instruction.arg_narrow, ← hsame, Instruction.arg_narrow, arg,
      h.args i hi, Option.getD_some]
  long i hi := by
    rw [← long_instruction, ← Instruction.long_narrow, ← hsame, Instruction.long_narrow, long,
      h.longs i hi, Option.getD_some]
  list := by
    rw [h.list, ← registers_instruction, ← Instruction.registers_narrow, hsame,
      Instruction.registers_narrow]

/-- Code that stands for an instruction is decoded into any record, which then holds the instruction
and appends the same code again. What the record held before is gone. -/
theorem load_of_standsAs {inst : Instruction} {code : List UInt8} (h : inst.StandsAs code)
    (rest : List UInt8) (previous : Slots) :
    ∃ found, previous.load (code ++ rest) = some (found, .ok code.length) ∧ found.Holds inst ∧
      ∀ out, found.append out = some (.ok (out ++ code)) := by
  obtain ⟨op, hop, hfits⟩ := h.fits
  obtain ⟨found, hload, -, hfound⟩ := load_eq (code ++ rest) previous
  obtain ⟨hholds, -⟩ := hfound inst rest (h.decode rest)
  refine ⟨found, ?_, hholds, fun out => ?_⟩
  · rw [hload, h.decode, h.size]
    rfl
  · rw [append_eq hholds hop hfits, h.encode]
    rfl

/-- Decoding undoes encoding. A record is encoded exactly when its opcode is assigned and its
declared operands are in range, whatever it holds elsewhere. The code is appended to what is there;
followed by anything, it is decoded as a whole, into a record that repeats the declared operands and
is zero elsewhere, and encoding that gives the same code.

The proof passes from records to instructions (`append_instruction`), where encoding and decoding
are known, and back by what a record holds (`Holds.repeats`). -/
theorem load_append (slots : Slots) (out rest : List UInt8) :
    ((∃ bytes, slots.append out = some (.ok bytes)) ↔ slots.Encodable) ∧
    ∀ bytes, slots.append out = some (.ok bytes) → ∃ code inst, bytes = out ++ code ∧
      slots.instruction.encode = .ok code ∧ Instruction.decode (code ++ rest) = .ok (inst, rest) ∧
      inst.encode = .ok code ∧
      ∀ previous : Slots, ∃ found, previous.load (code ++ rest) = some (found, .ok code.length) ∧
        found.Holds inst ∧ found.Repeats slots ∧
        ∀ more, found.append more = some (.ok (more ++ code)) := by
  have hfits : slots.instruction.Fits := Instruction.fits_ofPositions _ _ _ _ _
  have happend : ∀ bytes, slots.append out = some (.ok bytes) →
      ∃ code, slots.instruction.encode = .ok code ∧ bytes = out ++ code := by
    intro bytes h
    rw [append_instruction] at h
    cases hencode : slots.instruction.encode with
    | error e => simp [hencode, Except.map] at h
    | ok code =>
        simp only [hencode, Except.map, Option.some.injEq, Except.ok.injEq] at h
        exact ⟨code, rfl, h.symm⟩
  refine ⟨⟨?_, ?_⟩, ?_⟩
  · rintro ⟨bytes, h⟩
    obtain ⟨code, hencode, -⟩ := happend bytes h
    exact slots.encodable_instruction.mp (Instruction.encodable_of_encode hfits hencode)
  · intro h
    obtain ⟨code, inst, hencode, -, -⟩ := (slots.encodable_instruction.mpr h).encode hfits
    exact ⟨out ++ code, by rw [append_instruction, hencode]; rfl⟩
  · intro bytes h
    obtain ⟨code, hencode, hbytes⟩ := happend bytes h
    obtain ⟨code', inst, hencode', hstands, hsame⟩ :=
      (Instruction.encodable_of_encode hfits hencode).encode hfits
    obtain rfl : code = code' := Except.ok.inj (hencode.symm.trans hencode')
    refine ⟨code, inst, hbytes, hencode, hstands.decode rest, hstands.encode, fun previous => ?_⟩
    obtain ⟨found, hload, hholds, hagain⟩ := load_of_standsAs hstands rest previous
    exact ⟨found, hload, hholds, hholds.repeats hsame, hagain⟩

/-- A call that asks for its target in one byte and for its list in two. The target needs two bytes,
and the second entry of the list would have made it wide unasked; the positions that a call does not
declare hold leftovers. -/
def leftovers : Slots := ⟨0x48, 0, .replicate _ 0x80, .replicate _ 7, [1, 300], 3, 0b110⟩

theorem load_append_leftovers :
    let code : List UInt8 := [0x48, 0x80, 0x80, 0x80, 2, 0, 1, 1, 44]
    leftovers.append [5] = some (.ok ([5] ++ code)) ∧
      ∃ code' inst, [5] ++ code = [5] ++ code' ∧ leftovers.instruction.encode = .ok code' ∧
        Instruction.decode (code' ++ [0xFF]) = .ok (inst, [0xFF]) ∧ inst.encode = .ok code' ∧
        ∀ previous : Slots, ∃ found,
          previous.load (code' ++ [0xFF]) = some (found, .ok code'.length) ∧ found.Holds inst ∧
            found.Repeats leftovers ∧ ∀ more, found.append more = some (.ok (more ++ code')) := by
  have h : leftovers.append [5] = some (.ok ([5] ++ [0x48, 0x80, 0x80, 0x80, 2, 0, 1, 1, 44])) := by
    rw [append_instruction]
    rfl
  exact ⟨h, (load_append leftovers [5] [0xFF]).2 _ h⟩

end Slots

end RegisterVM
