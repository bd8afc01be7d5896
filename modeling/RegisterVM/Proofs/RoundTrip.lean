import RegisterVM.Proofs.CheckedDecode

/-!
# Encoding undoes decoding

An encoder that appends to what is already there, from a record of fixed arrays, and the round trip
through it: whatever the record held before, decoding a buffer into it and encoding it again appends
the very bytes that were consumed. The wide bits carry the choice of form, so a number that stood in
two bytes without need stands in two bytes again.
-/

namespace RegisterVM

namespace Slots

/-- Appends operand `i` of the record. Both arrays are looked at, whichever of them holds it. -/
def appendOperand (slots : Slots) (i : Nat) (f : Format) (out : List UInt8) :
    Option (Except EncodeError (List UInt8)) := do
  let value ← slots.args[i]?
  let long ← slots.longs[i]?
  let operand := Instruction.operandOf value long slots.list (slots.wide.testBit i) f
  return (Instruction.writeOperand slots.opcode i f operand).map (out ++ ·)

/-- Appends the operands of the record from number `i` on. -/
def appendOperands (slots : Slots) : (i : Nat) → List Format → (out : List UInt8) →
    Option (Except EncodeError (List UInt8))
  | _, [], out => some (.ok out)
  | i, f :: formats, out => do
      match ← slots.appendOperand i f out with
      | .error e => return .error e
      | .ok out => slots.appendOperands (i + 1) formats out

/-- Appends the instruction of the record. A byte that names no operation is an error, and the
buffer is as it was. -/
def append (slots : Slots) (out : List UInt8) : Option (Except EncodeError (List UInt8)) := do
  let (family, formats) ← opcodeTable[slots.opcode.toNat]?
  if family = 0 then return .error (.unknownOpcode slots.opcode)
  else slots.appendOperands 0 formats (out ++ [slots.opcode])

/-! ### Lists -/

/-- Only an operand for a list has one. -/
theorem list_of_fits {f : Format} {o : Operand} (h : o.Fits f) (hf : f ≠ .registers) :
    o.list = [] := by
  cases h with
  | registers list wide => exact absurd rfl hf
  | _ => rfl

theorem lists_of_fitAll {formats : List Format} {operands : List Operand}
    (h : Operand.FitAll formats operands) (hformats : Format.registers ∉ formats) :
    operands.flatMap Operand.list = [] := by
  induction h with
  | nil => rfl
  | cons hfirst _ ih =>
      rw [List.mem_cons, not_or] at hformats
      rw [List.flatMap_cons, list_of_fits hfirst (Ne.symm hformats.1), ih hformats.2]
      rfl

/-- No operation has two register lists, so the one list of the record is enough. This is checked
operation by operation. -/
theorem count_registers_le (op : Opcode) : op.formats.count .registers ≤ 1 := by
  rcases op with ⟨_ | _ | _ | _, _⟩ | ⟨_ | _ | _ | _, _⟩ | _ | _ | _ | _ | _ | _ | _ |
    _ | _ | _ | _ <;>
    simp [Opcode.formats]

/-! ### Appending -/

/-- Writing looks at an operand through its value, its list and its form, so taking it apart and
putting it together again makes no difference. -/
theorem writeOperand_operandOf {f : Format} {o : Operand} (hfits : o.Fits f) (opcode : UInt8)
    (i : Nat) {list : List Int32} (hlist : f = .registers → list = o.list) :
    Instruction.writeOperand opcode i f
        (Instruction.operandOf o.value o.longValue list o.isWide f) =
      Instruction.writeOperand opcode i f o := by
  cases hfits with
  | registers entries wide =>
      rw [hlist rfl]
      rfl
  | _ => rfl

/-- Appending from a record that holds an instruction writes the operands of the instruction, from
any of them on. -/
theorem appendOperands_eq {slots : Slots} {inst : Instruction} (hholds : slots.Holds inst)
    {formats : List Format} {operands : List Operand} (hfits : Operand.FitAll formats operands)
    (hone : formats.count .registers ≤ 1)
    (hlist : Format.registers ∈ formats → slots.list = operands.flatMap Operand.list)
    {done : List Operand} (hsplit : inst.operands = done ++ operands)
    (hroom : done.length + formats.length ≤ Instruction.positions) (out : List UInt8) :
    slots.appendOperands done.length formats out =
      some ((Instruction.writeOperands inst.opcode done.length formats operands).map
        (out ++ ·)) := by
  -- along the formats; the operands behind `done` still hold the whole list if they hold one at all
  induction hfits generalizing done out with
  | nil => simp [appendOperands, Instruction.writeOperands, Except.map]
  | @cons f o formats operands hfirst hrest ih =>
      rw [List.length_cons] at hroom
      have hat : inst.operands[done.length]? = some o := by
        rw [hsplit, List.getElem?_append_right (Nat.le_refl _), Nat.sub_self]
        rfl
      have hown : f = .registers → slots.list = o.list := by
        intro hf
        subst hf
        rw [List.count_cons_self] at hone
        have hnone : Format.registers ∉ formats := List.count_eq_zero.mp (by omega)
        rw [hlist List.mem_cons_self, List.flatMap_cons, lists_of_fitAll hrest hnone,
          List.append_nil]
      have hothers : Format.registers ∈ formats → slots.list = operands.flatMap Operand.list := by
        intro hmem
        have hf : f ≠ .registers := by
          rintro rfl
          rw [List.count_cons_self] at hone
          exact absurd (List.count_eq_zero.mp (by omega)) (not_not_intro hmem)
        rw [hlist (List.mem_cons_of_mem f hmem), List.flatMap_cons, list_of_fits hfirst hf,
          List.nil_append]
      have hcount : formats.count .registers ≤ 1 :=
        Nat.le_trans (List.Sublist.count_le _ (List.sublist_cons_self f formats)) hone
      have hargs : slots.args[done.length]? = some o.value := by
        rw [hholds.args _ (by omega), Instruction.arg, hat]
        rfl
      have hlongs : slots.longs[done.length]? = some o.longValue := by
        rw [hholds.longs _ (by omega), Instruction.long, hat]
        rfl
      have hwide : slots.wide.testBit done.length = o.isWide := by
        rw [hholds.wide, Instruction.isWide, hat]
        rfl
      rw [appendOperands, appendOperand, hargs, hlongs, hwide, hholds.opcode]
      simp only [Option.bind_eq_bind, Option.bind_some, Option.pure_def,
        writeOperand_operandOf hfirst _ _ hown, Instruction.writeOperands, List.head?_cons,
        Option.getD_some, List.tail_cons]
      cases Instruction.writeOperand inst.opcode done.length f o with
      | error e => rfl
      | ok front =>
          have hsplit' : inst.operands = (done ++ [o]) ++ operands := by
            rw [hsplit, List.append_assoc, List.singleton_append]
          have hlength : (done ++ [o]).length = done.length + 1 := List.length_append
          have hback := ih hcount hothers hsplit' (by omega) (out ++ front)
          rw [hlength] at hback
          simp only [Except.map, hback]
          cases Instruction.writeOperands inst.opcode (done.length + 1) formats operands with
          | error e => rfl
          | ok back => simp [bind, Except.bind, pure, Except.pure]

/-- Appending a record that holds an instruction appends the encoding of the instruction. -/
theorem append_eq {slots : Slots} {inst : Instruction} {op : Opcode} (hholds : slots.Holds inst)
    (hop : Opcode.ofByte? inst.opcode = some op) (hfits : Operand.FitAll op.formats inst.operands)
    (out : List UInt8) : slots.append out = some (inst.encode.map (out ++ ·)) := by
  have hassigned : Opcode.familyOf inst.opcode ≠ 0 := by
    rw [ne_eq, familyOf_eq_zero_iff, hop]
    simp
  have hformats := Opcode.formatsOf_eq hop
  have hroom : ([] : List Operand).length + op.formats.length ≤ Instruction.positions := by
    have := op.length_formats_le
    rw [List.length_nil, Instruction.positions]
    omega
  rw [append, hholds.opcode, getElem?_opcodeTable]
  simp only [Option.bind_eq_bind, Option.bind_some, if_neg hassigned, hformats,
    Instruction.encode, hop]
  have hoperands :=
    appendOperands_eq hholds hfits (count_registers_le op) (fun _ => hholds.list) rfl
    hroom (out ++ [inst.opcode])
  rw [List.length_nil] at hoperands
  rw [hoperands]
  cases Instruction.writeOperands inst.opcode 0 op.formats inst.operands with
  | error e => rfl
  | ok code => simp [bind, Except.bind, pure, Except.pure, Except.map]

/-! ### The round trip -/

/-- Where a buffer starts with an instruction, decoding it into any record succeeds and consumes a
prefix; encoding the record succeeds and appends just that prefix to whatever is there.

The proof goes through the instruction: what was decoded stands for its code (`decode_inv`), the
record holds it, and appending the record appends its encoding (`append_eq`). -/
theorem append_load {buf rest : List UInt8} {inst : Instruction}
    (h : Instruction.decode buf = .ok (inst, rest)) (previous : Slots) (out : List UInt8) :
    ∃ slots, previous.load buf = some (slots, .ok inst.size) ∧ inst.size ≤ buf.length ∧
      rest = buf.drop inst.size ∧ inst.encode = .ok (buf.take inst.size) ∧
      slots.append out = some (.ok (out ++ buf.take inst.size)) := by
  obtain ⟨code, rfl, hstands⟩ := Instruction.decode_inv h
  obtain ⟨op, hop, hfits⟩ := hstands.fits
  obtain ⟨slots, hload, -, hslots⟩ := load_eq (code ++ rest) previous
  obtain ⟨hholds, -⟩ := hslots inst rest h
  have htake : (code ++ rest).take inst.size = code := List.take_left' hstands.size
  refine ⟨slots, ?_, ?_, ?_, ?_, ?_⟩
  · rw [hload, h]
    rfl
  · rw [List.length_append, hstands.size]
    omega
  · rw [List.drop_left' hstands.size]
  · rw [htake, hstands.encode]
  · rw [append_eq hholds hop hfits, hstands.encode, htake]
    rfl

/-- A call whose target, count and entries all stand in two bytes where one would do, decoded into a
record that held something else. -/
theorem append_load_redundant_forms :
    let code : List UInt8 := [0x48, 0x80, 5, 0x80, 2, 0, 3, 0, 4]
    let inst : Instruction := ⟨0x48, [.number 5 true, .registers [3, 4] true]⟩
    Instruction.decode (code ++ [0xFF]) = .ok (inst, [0xFF]) ∧
      ∃ slots, Slots.load ⟨0xF0, 19, .replicate _ 7, .replicate _ 8, [9, 9], 3, 6⟩
        (code ++ [0xFF]) =
          some (slots, .ok inst.size) ∧ inst.size ≤ (code ++ [0xFF]).length ∧
        [0xFF] = (code ++ [0xFF]).drop inst.size ∧
        inst.encode = .ok ((code ++ [0xFF]).take inst.size) ∧
        slots.append [1, 2] = some (.ok ([1, 2] ++ (code ++ [0xFF]).take inst.size)) :=
  ⟨rfl, append_load rfl _ _⟩

end Slots

end RegisterVM
