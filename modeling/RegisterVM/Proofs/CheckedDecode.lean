import RegisterVM.Proofs.Codec

/-!
# Decoding into a reused record

An instruction can be kept in a record of fixed arrays that every decoding overwrites. Here the
decoder works on such a record and on a buffer that it looks into by index. Every access by index
gives nothing when it is out of range, and so does what depends on it; that the result is always
there is therefore the statement that no access is out of range.

`load_eq` ties this decoder to `Instruction.decode`: it ends the same way whatever the record held
before, and after a success the record holds the instruction.
-/

namespace RegisterVM

/-- The part of a sequence from `start` up to `stop`, if the bounds are in order and inside. Nothing
is cut off silently: a bound outside gives nothing. -/
def slice? {α : Type} (xs : List α) (start stop : Nat) : Option (List α) :=
  if start ≤ stop ∧ stop ≤ xs.length then some ((xs.take stop).drop start) else none

/-- The array with an element replaced, if there is one at the index. There is no growing and no
ignoring, so a write outside shows as having no result. -/
def set? {α : Type} {n : Nat} (xs : Vector α n) (i : Nat) (a : α) : Option (Vector α n) :=
  if h : i < n then some (xs.set i a h) else none

/-- For every byte the number of its family and the formats of its operands. It has an entry for
each of the 256 bytes, so looking an opcode up never leaves it. -/
def opcodeTable : Vector (Nat × List Format) 256 :=
  Vector.ofFn fun i => (Opcode.familyOf (UInt8.ofNat i.val), Opcode.formatsOf (UInt8.ofNat i.val))

/-- An instruction laid out by position. Each kind of operand has an array of its own, and the
positions of a kind that an operand is not of hold zero. -/
structure Slots where
  opcode : UInt8
  /-- The number of the family of the opcode. -/
  family : Nat
  args : Vector Int32 Instruction.positions
  longs : Vector Int64 Instruction.positions
  list : List Int32
  size : Nat
  /-- Bit `i` is set when operand `i` stands in its two-byte form. -/
  wide : Nat

namespace Slots

/-- The record before any operand is there. -/
def blank (opcode : UInt8) (family : Nat) : Slots :=
  ⟨opcode, family, .replicate _ 0, .replicate _ 0, [], 0, 0⟩

/-- Replaces a 32-bit operand. -/
def setArg? (slots : Slots) (i : Nat) (v : Int32) : Option Slots := do
  return { slots with args := ← set? slots.args i v }

/-- Replaces a 64-bit operand. -/
def setLong? (slots : Slots) (i : Nat) (v : Int64) : Option Slots := do
  return { slots with longs := ← set? slots.longs i v }

/-- Notes that operand `i` stands in its two-byte form, if it does. -/
def markWide (slots : Slots) (i : Nat) (wide : Bool) : Slots :=
  { slots with wide := if wide then slots.wide ||| 1 <<< i else slots.wide }

/-! ### The decoder -/

/-- The variable-width number at `p` and where it ends; nothing inside when the buffer ends first.
The outer layer is for indices out of range, the inner one for a buffer that is too short; only the
second may happen. -/
def loadVariable (buf : List UInt8) (p : Nat) : Option (Option ((Nat × Bool) × Nat)) :=
  if buf.length ≤ p then some none
  else do
    let first ← buf[p]?
    if first < 0x80 then return some ((first.toNat, false), p + 1)
    else if buf.length ≤ p + 1 then return none
    else do
      let second ← buf[p + 1]?
      return some ((first.toNat % 128 * 256 + second.toNat, true), p + 2)

/-- The big-endian number of `width` bytes at `p`, behind a part already read. -/
def loadNumber (buf : List UInt8) : (width p before : Nat) → Option Nat
  | 0, _, before => some before
  | width + 1, p, before => do
      let b ← buf[p]?
      loadNumber buf width (p + 1) (before * 256 + b.toNat)

/-- Appends `count` register indices of `width` bytes each to a list. -/
def loadEntries (buf : List UInt8) (width : Nat) :
    (count p : Nat) → List Int32 → Option (List Int32)
  | 0, _, list => some list
  | count + 1, p, list => do
      let entry ← loadNumber buf width p 0
      loadEntries buf width count (p + width) (list ++ [Int32.ofNat entry])

/-- Puts operand `i`, which stands at `p`, into the record: the record and where the operand ends;
no end when the buffer ends first. The length is compared before the bytes are looked at, so what is
looked at is there. -/
def loadOperand (buf : List UInt8) (i : Nat) (f : Format) (slots : Slots) (p : Nat) :
    Option (Slots × Option Nat) :=
  match f with
  | .uint | .pool | .jump => do
      match ← loadVariable buf p with
      | none => return (slots, none)
      | some ((value, wide), q) =>
          let v := if f = .jump then Instruction.signExtendJump value else Int32.ofNat value
          return (← (slots.markWide i wide).setArg? i v, some q)
  | .registers => do
      match ← loadVariable buf p with
      | none => return (slots, none)
      | some ((count, wide), q) =>
          let slots := slots.markWide i wide
          let width := if wide then 2 else 1
          if buf.length < q + width * count then return (slots, none)
          else
            return ({ slots with list := ← loadEntries buf width count q slots.list },
              some (q + width * count))
  | .int32 | .float32 =>
      if buf.length < p + 4 then return (slots, none)
      else do
        let n ← loadNumber buf 4 p 0
        return (← slots.setArg? i (Int32.ofNat n), some (p + 4))
  | .int64 | .float64 =>
      if buf.length < p + 8 then return (slots, none)
      else do
        let n ← loadNumber buf 8 p 0
        return (← slots.setLong? i (Int64.ofNat n), some (p + 8))

/-- Puts operands from number `i` on into the record. -/
def loadOperands (buf : List UInt8) : (i : Nat) → List Format → Slots → (p : Nat) →
    Option (Slots × Option Nat)
  | _, [], slots, p => some (slots, some p)
  | i, f :: formats, slots, p => do
      match ← loadOperand buf i f slots p with
      | (slots, none) => return (slots, none)
      | (slots, some q) => loadOperands buf (i + 1) formats slots q

/-- Decodes the instruction at the start of a buffer into the record, whatever that held: the
record, and the length of the instruction or why there is none. A record that was given up half-way
is returned as it is then, and nobody looks into it. -/
def load (slots : Slots) (buf : List UInt8) : Option (Slots × Except DecodeError Nat) :=
  if buf.length = 0 then some (slots, .error .short)
  else do
    let opcode ← buf[0]?
    let (family, formats) ← opcodeTable[opcode.toNat]?
    if family = 0 then return ({ blank opcode family with size := 1 }, .error .unknownOpcode)
    else
      match ← loadOperands buf 0 formats (blank opcode family) 1 with
      | (slots, none) => return (slots, .error .short)
      | (slots, some p) => return ({ slots with size := p }, .ok p)

/-! ### Reading by index -/

section

variable {buf : List UInt8} {p : Nat}

theorem loadVariable_of_none (h : Instruction.readVariable (buf.drop p) = none) :
    loadVariable buf p = some none := by
  unfold loadVariable
  by_cases hp : buf.length ≤ p
  · rw [if_pos hp]
  · have hp' : p < buf.length := Nat.lt_of_not_le hp
    rw [List.drop_eq_getElem_cons hp'] at h
    unfold Instruction.readVariable at h
    dsimp only at h
    rw [if_neg hp, List.getElem?_eq_getElem hp']
    simp only [Option.bind_eq_bind, Option.bind_some]
    by_cases hfirst : buf[p] < 0x80
    · simp [hfirst] at h
    · rw [if_neg hfirst] at h ⊢
      cases hrest : buf.drop (p + 1) with
      | cons second rest => simp [hrest] at h
      | nil =>
          rw [List.drop_eq_nil_iff] at hrest
          rw [if_pos hrest]
          rfl

theorem loadVariable_of_some {found : Nat × Bool} {rest : List UInt8}
    (h : Instruction.readVariable (buf.drop p) = some (found, rest)) :
    ∃ q, loadVariable buf p = some (some (found, q)) ∧ q ≤ buf.length ∧ rest = buf.drop q := by
  unfold loadVariable
  by_cases hp : buf.length ≤ p
  · rw [List.drop_of_length_le hp] at h
    cases h
  · have hp' : p < buf.length := Nat.lt_of_not_le hp
    rw [List.drop_eq_getElem_cons hp'] at h
    unfold Instruction.readVariable at h
    dsimp only at h
    rw [if_neg hp, List.getElem?_eq_getElem hp']
    simp only [Option.bind_eq_bind, Option.bind_some]
    by_cases hfirst : buf[p] < 0x80
    · rw [if_pos hfirst] at h ⊢
      obtain ⟨rfl, rfl⟩ := Prod.mk.inj (Option.some.inj h)
      exact ⟨p + 1, rfl, hp', rfl⟩
    · rw [if_neg hfirst] at h ⊢
      by_cases hnext : buf.length ≤ p + 1
      · rw [List.drop_of_length_le hnext] at h
        cases h
      · have hnext' : p + 1 < buf.length := Nat.lt_of_not_le hnext
        rw [List.drop_eq_getElem_cons hnext'] at h
        obtain ⟨rfl, rfl⟩ := Prod.mk.inj (Option.some.inj h)
        rw [if_neg hnext, List.getElem?_eq_getElem hnext']
        exact ⟨p + 2, rfl, hnext', rfl⟩

/-- Reading a number by index gives the number that the bytes spell. The accumulator is general,
since the loop starts in the middle of every induction. -/
theorem loadNumber_eq {width before : Nat} (h : p + width ≤ buf.length) :
    loadNumber buf width p before =
      some (before * 256 ^ width + bigEndian ((buf.drop p).take width)) := by
  induction width generalizing p before with
  | zero => simp [loadNumber]
  | succ width ih =>
      have hp : p < buf.length := by omega
      have hlength : ((buf.drop (p + 1)).take width).length = width := by
        rw [List.length_take, List.length_drop]
        omega
      rw [loadNumber, List.getElem?_eq_getElem hp, List.drop_eq_getElem_cons hp,
        List.take_succ_cons, bigEndian_cons, hlength]
      simp only [Option.bind_eq_bind, Option.bind_some]
      rw [ih (by omega), Nat.add_mul, Nat.mul_assoc, Nat.mul_comm 256, ← Nat.pow_succ,
        Nat.add_assoc]

/-- Reading entries by index gives the numbers that groups of bytes spell, behind what the list had
before. -/
theorem loadEntries_eq {width count : Nat} {list : List Int32}
    (h : p + width * count ≤ buf.length) :
    loadEntries buf width count p list =
      some (list ++ (chunks width count (buf.drop p)).map fun e => Int32.ofNat (bigEndian e)) := by
  induction count generalizing p list with
  | zero => simp [loadEntries, chunks]
  | succ count ih =>
      rw [Nat.mul_succ] at h
      rw [loadEntries, loadNumber_eq (by omega), chunks, List.map_cons, List.drop_drop]
      simp only [Option.bind_eq_bind, Option.bind_some, Nat.zero_mul, Nat.zero_add]
      rw [ih (by omega), List.append_assoc, List.singleton_append]

/-- Groups need no more than the bytes they are made of. The decoder groups the whole rest of the
buffer and the reader a prefix of it, and this is why that is the same. -/
theorem chunks_take (width count : Nat) (bytes : List UInt8) :
    chunks width count (bytes.take (width * count)) = chunks width count bytes := by
  induction count generalizing bytes with
  | zero => rfl
  | succ count ih =>
      rw [chunks, chunks, List.take_take, List.drop_take, Nat.mul_succ, Nat.add_sub_cancel, ih]
      rw [Nat.min_eq_left (Nat.le_add_left width (width * count))]

/-- Groups of one byte spell the bytes themselves. -/
theorem chunks_one {count : Nat} {bytes : List UInt8} (h : count ≤ bytes.length) :
    (chunks 1 count bytes).map (fun e => Int32.ofNat (bigEndian e)) =
      (bytes.take count).map fun e => Int32.ofNat e.toNat := by
  induction count generalizing bytes with
  | zero => rfl
  | succ count ih =>
      cases bytes with
      | nil => simp at h
      | cons b rest =>
          rw [List.length_cons] at h
          simp only [chunks, List.map_cons, List.take_succ_cons, List.take_zero,
            List.drop_succ_cons, List.drop_zero]
          rw [ih (by omega)]
          simp [bigEndian]

end

/-! ### What the record holds -/

/-- The record holds an instruction, apart from its length. All positions are covered, also those
that the instruction does not have, which hold zero: a handler that looked there would find what the
instruction says. -/
structure Holds (slots : Slots) (inst : Instruction) : Prop where
  opcode : slots.opcode = inst.opcode
  family : slots.family = Opcode.familyOf inst.opcode
  args : ∀ j < Instruction.positions, slots.args[j]? = some (inst.arg j)
  longs : ∀ j < Instruction.positions, slots.longs[j]? = some (inst.long j)
  list : slots.list = inst.registers
  wide : ∀ j, slots.wide.testBit j = inst.isWide j

theorem holds_blank (opcode : UInt8) :
    (blank opcode (Opcode.familyOf opcode)).Holds ⟨opcode, []⟩ where
  opcode := rfl
  family := rfl
  args j hj := by simp [blank, Instruction.arg, hj]
  longs j hj := by simp [blank, Instruction.long, hj]
  list := rfl
  wide j := by simp [blank, Instruction.isWide]

/-- Looking at a position of one more operand. The four arrays of the record are four views of the
operands, and this covers each of them. -/
theorem lookup_concat {α : Type} (view : Operand → α) (missing : α) (operands : List Operand)
    (o : Operand) (j : Nat) :
    ((operands ++ [o])[j]?.map view).getD missing =
      if j = operands.length then view o else (operands[j]?.map view).getD missing := by
  by_cases hj : j = operands.length
  · subst hj
    simp
  · rw [if_neg hj, List.getElem?_append]
    split
    · rfl
    · rw [List.getElem?_eq_none (by simp; omega), List.getElem?_eq_none (by omega)]

theorem testBit_markWide (slots : Slots) (i j : Nat) (wide : Bool) :
    (slots.markWide i wide).wide.testBit j =
        (slots.wide.testBit j || (wide && decide (i = j))) := by
  cases wide with
  | false => simp [markWide]
  | true => simp [markWide, Nat.testBit_or, Nat.one_shiftLeft, Nat.testBit_two_pow]

theorem setArg?_eq {slots : Slots} {i : Nat} (hi : i < Instruction.positions) (v : Int32) :
    slots.setArg? i v = some { slots with args := slots.args.set i v hi } := by
  simp [setArg?, set?, hi]

theorem setLong?_eq {slots : Slots} {i : Nat} (hi : i < Instruction.positions) (v : Int64) :
    slots.setLong? i v = some { slots with longs := slots.longs.set i v hi } := by
  simp [setLong?, set?, hi]

section

variable {slots : Slots} {opcode : UInt8} {done : List Operand}

/-- A record holds one more operand when position `done.length` is set to it and the rest is kept.
It is the invariant of the decoding loop, stated once for all formats. -/
theorem Holds.concat {after : Slots} {o : Operand} (h : slots.Holds ⟨opcode, done⟩)
    (hopcode : after.opcode = slots.opcode) (hfamily : after.family = slots.family)
    (hargs : ∀ j < Instruction.positions, after.args[j]? =
      if j = done.length then some o.value else slots.args[j]?)
    (hlongs : ∀ j < Instruction.positions, after.longs[j]? =
      if j = done.length then some o.longValue else slots.longs[j]?)
    (hlist : after.list = slots.list ++ o.list)
    (hwide : ∀ j, after.wide.testBit j =
      if j = done.length then o.isWide else slots.wide.testBit j) :
    after.Holds ⟨opcode, done ++ [o]⟩ where
  opcode := hopcode.trans h.opcode
  family := hfamily.trans h.family
  args j hj := by
    rw [hargs j hj, Instruction.arg, lookup_concat]
    split
    · rfl
    · exact h.args j hj
  longs j hj := by
    rw [hlongs j hj, Instruction.long, lookup_concat]
    split
    · rfl
    · exact h.longs j hj
  list := by
    rw [hlist, h.list, Instruction.registers, Instruction.registers, List.flatMap_append]
    simp
  wide j := by
    rw [hwide j, Instruction.isWide, lookup_concat]
    split
    · rfl
    · exact h.wide j

/-- Positions that no operand has been put into yet are zero, so putting one in may add to what is
there as well as replace it. -/
theorem Holds.unset (h : slots.Holds ⟨opcode, done⟩) :
    slots.wide.testBit done.length = false ∧
      (done.length < Instruction.positions →
        slots.args[done.length]? = some 0 ∧ slots.longs[done.length]? = some 0) := by
  refine ⟨?_, fun hlength => ⟨?_, ?_⟩⟩
  · rw [h.wide]
    simp [Instruction.isWide]
  · rw [h.args _ hlength]
    simp [Instruction.arg]
  · rw [h.longs _ hlength]
    simp [Instruction.long]

theorem Holds.testBit_markWide (h : slots.Holds ⟨opcode, done⟩) (wide : Bool) (j : Nat) :
    (slots.markWide done.length wide).wide.testBit j =
      if j = done.length then wide else slots.wide.testBit j := by
  rw [Slots.testBit_markWide]
  by_cases hj : j = done.length
  · subst hj
    simp [h.unset.1]
  · simp [hj, Ne.symm hj]

/-- Putting a 32-bit operand into the record. The index is in range because there are fewer operands
than positions, which holds for the formats of every opcode. -/
theorem Holds.setArg (h : slots.Holds ⟨opcode, done⟩) (hdone : done.length < Instruction.positions)
    {o : Operand} (hlong : o.longValue = 0) (hlist : o.list = []) :
    ∃ after, (slots.markWide done.length o.isWide).setArg? done.length o.value = some after ∧
      after.Holds ⟨opcode, done ++ [o]⟩ := by
  refine ⟨_, setArg?_eq hdone _, h.concat rfl rfl ?_ ?_ ?_ ?_⟩
  · intro j hj
    simp only [Vector.getElem?_set, eq_comm (a := done.length)]
    rfl
  · intro j hj
    rw [hlong]
    split
    · rename_i hj
      rw [hj]
      exact (h.unset.2 hdone).2
    · rfl
  · rw [hlist, List.append_nil]
    rfl
  · exact h.testBit_markWide o.isWide

/-- Putting a 64-bit operand into the record. -/
theorem Holds.setLong (h : slots.Holds ⟨opcode, done⟩) (hdone : done.length < Instruction.positions)
    (v : Int64) :
    ∃ after, slots.setLong? done.length v = some after ∧
      after.Holds ⟨opcode, done ++ [.long v]⟩ := by
  refine ⟨_, setLong?_eq hdone _, h.concat rfl rfl ?_ ?_ ?_ ?_⟩
  · intro j hj
    split
    · rename_i hj
      rw [hj]
      exact (h.unset.2 hdone).1
    · rfl
  · intro j hj
    simp only [Vector.getElem?_set, eq_comm (a := done.length), Operand.longValue]
  · simp only [Operand.list, List.append_nil]
  · exact h.testBit_markWide false

/-- Putting a register list into the record. -/
theorem Holds.setList (h : slots.Holds ⟨opcode, done⟩) (hdone : done.length < Instruction.positions)
    (entries : List Int32) (wide : Bool) :
    Holds { slots.markWide done.length wide with list := slots.list ++ entries }
      ⟨opcode, done ++ [.registers entries wide]⟩ := by
  refine h.concat rfl rfl ?_ ?_ rfl ?_
  · intro j hj
    split
    · rename_i hj
      rw [hj]
      exact (h.unset.2 hdone).1
    · rfl
  · intro j hj
    split
    · rename_i hj
      rw [hj]
      exact (h.unset.2 hdone).2
    · rfl
  · exact h.testBit_markWide wide

end

/-! ### Operands -/

section

variable {buf : List UInt8} {p : Nat}

theorem takeExact_drop_of_some {n : Nat} {front rest : List UInt8} (hp : p ≤ buf.length)
    (h : takeExact n (buf.drop p) = some (front, rest)) :
    p + n ≤ buf.length ∧ front = (buf.drop p).take n ∧ rest = buf.drop (p + n) := by
  have hlength : ¬ (buf.drop p).length < n := by
    rw [← takeExact_eq_none_iff, h]
    simp
  rw [List.length_drop] at hlength
  rw [takeExact] at h
  split at h
  · obtain ⟨rfl, rfl⟩ := Prod.mk.inj (Option.some.inj h)
    exact ⟨by omega, rfl, by rw [List.drop_drop]⟩
  · cases h

theorem takeExact_drop_of_none {n : Nat} (h : takeExact n (buf.drop p) = none) :
    buf.length < p + n := by
  rw [takeExact_eq_none_iff, List.length_drop] at h
  omega

variable {slots : Slots} {opcode : UInt8} {done : List Operand}

/-- The variable-width formats, with the value made of the number by `make`. Jumps and plain numbers
differ in that alone. -/
theorem loadVariable_holds {make : Nat → Int32} {o : Operand} {rest : List UInt8}
    (hslots : slots.Holds ⟨opcode, done⟩) (hdone : done.length < Instruction.positions)
    (h : (do
      let ((value, wide), rest) ← Instruction.readVariable (buf.drop p)
      return (Operand.number (make value) wide, rest)) = some (o, rest)) :
    ∃ value wide q after, loadVariable buf p = some (some ((value, wide), q)) ∧
      (slots.markWide done.length wide).setArg? done.length (make value) = some after ∧
      q ≤ buf.length ∧ rest = buf.drop q ∧ after.Holds ⟨opcode, done ++ [o]⟩ := by
  cases hread : Instruction.readVariable (buf.drop p) with
  | none => simp [hread] at h
  | some found =>
      obtain ⟨⟨value, wide⟩, back⟩ := found
      simp only [hread, Option.bind_eq_bind, Option.bind_some, Option.pure_def, Option.some.injEq,
        Prod.mk.injEq] at h
      obtain ⟨rfl, rfl⟩ := h
      obtain ⟨q, hload, hq, hrest⟩ := loadVariable_of_some hread
      obtain ⟨after, hset, hafter⟩ :=
        hslots.setArg hdone (o := .number (make value) wide) rfl rfl
      exact ⟨value, wide, q, after, hload, hset, hq, hrest, hafter⟩

/-- The 32-bit formats. -/
theorem loadWord_holds {o : Operand} {rest : List UInt8} (hp : p ≤ buf.length)
    (hslots : slots.Holds ⟨opcode, done⟩) (hdone : done.length < Instruction.positions)
    (h : (do
      let (word, rest) ← takeExact 4 (buf.drop p)
      return (Operand.word (Int32.ofNat (bigEndian word)), rest)) = some (o, rest)) :
    ∃ n after, p + 4 ≤ buf.length ∧ loadNumber buf 4 p 0 = some n ∧
      slots.setArg? done.length (Int32.ofNat n) = some after ∧ rest = buf.drop (p + 4) ∧
      after.Holds ⟨opcode, done ++ [o]⟩ := by
  cases hcut : takeExact 4 (buf.drop p) with
  | none => simp [hcut] at h
  | some cut =>
      obtain ⟨word, back⟩ := cut
      simp only [hcut, Option.bind_eq_bind, Option.bind_some, Option.pure_def, Option.some.injEq,
        Prod.mk.injEq] at h
      obtain ⟨rfl, rfl⟩ := h
      obtain ⟨hend, rfl, hrest⟩ := takeExact_drop_of_some hp hcut
      obtain ⟨after, hset, hafter⟩ := hslots.setArg hdone
        (o := .word (Int32.ofNat (bigEndian ((buf.drop p).take 4)))) rfl rfl
      refine ⟨_, after, hend, loadNumber_eq hend, ?_, hrest, hafter⟩
      rw [Nat.zero_mul, Nat.zero_add]
      exact hset

/-- The 64-bit formats. -/
theorem loadLong_holds {o : Operand} {rest : List UInt8} (hp : p ≤ buf.length)
    (hslots : slots.Holds ⟨opcode, done⟩) (hdone : done.length < Instruction.positions)
    (h : (do
      let (long, rest) ← takeExact 8 (buf.drop p)
      return (Operand.long (Int64.ofNat (bigEndian long)), rest)) = some (o, rest)) :
    ∃ n after, p + 8 ≤ buf.length ∧ loadNumber buf 8 p 0 = some n ∧
      slots.setLong? done.length (Int64.ofNat n) = some after ∧ rest = buf.drop (p + 8) ∧
      after.Holds ⟨opcode, done ++ [o]⟩ := by
  cases hcut : takeExact 8 (buf.drop p) with
  | none => simp [hcut] at h
  | some cut =>
      obtain ⟨long, back⟩ := cut
      simp only [hcut, Option.bind_eq_bind, Option.bind_some, Option.pure_def, Option.some.injEq,
        Prod.mk.injEq] at h
      obtain ⟨rfl, rfl⟩ := h
      obtain ⟨hend, rfl, hrest⟩ := takeExact_drop_of_some hp hcut
      obtain ⟨after, hset, hafter⟩ := hslots.setLong hdone
        (Int64.ofNat (bigEndian ((buf.drop p).take 8)))
      refine ⟨_, after, hend, loadNumber_eq hend, ?_, hrest, hafter⟩
      rw [Nat.zero_mul, Nat.zero_add]
      exact hset

/-- Register lists: the count is read like a number, and then the entries in the width that was read
with it. -/
theorem loadList_holds {o : Operand} {rest : List UInt8}
    (hslots : slots.Holds ⟨opcode, done⟩) (hdone : done.length < Instruction.positions)
    (h : Instruction.readList (buf.drop p) = some (o, rest)) :
    ∃ count wide q list, loadVariable buf p = some (some ((count, wide), q)) ∧
      q + (if wide then 2 else 1) * count ≤ buf.length ∧
      loadEntries buf (if wide then 2 else 1) count q slots.list = some list ∧
      rest = buf.drop (q + (if wide then 2 else 1) * count) ∧
      Holds { slots.markWide done.length wide with list } ⟨opcode, done ++ [o]⟩ := by
  unfold Instruction.readList at h
  cases hread : Instruction.readVariable (buf.drop p) with
  | none => simp [hread] at h
  | some found =>
      obtain ⟨⟨count, wide⟩, back⟩ := found
      obtain ⟨q, hload, hq, rfl⟩ := loadVariable_of_some hread
      simp only [hread, Option.bind_eq_bind, Option.bind_some] at h
      cases wide with
      | true =>
          simp only [if_true] at h
          cases hcut : takeExact (2 * count) (buf.drop q) with
          | none => simp [hcut] at h
          | some cut =>
              obtain ⟨entries, back⟩ := cut
              simp only [hcut, Option.bind_some, Option.pure_def, Option.some.injEq,
                Prod.mk.injEq] at h
              obtain ⟨rfl, rfl⟩ := h
              obtain ⟨hend, rfl, hrest⟩ := takeExact_drop_of_some hq hcut
              refine ⟨count, true, q, _, hload, hend, loadEntries_eq hend, hrest, ?_⟩
              rw [chunks_take]
              exact hslots.setList hdone _ true
      | false =>
          simp only [Bool.false_eq_true, if_false] at h
          cases hcut : takeExact count (buf.drop q) with
          | none => simp [hcut] at h
          | some cut =>
              obtain ⟨entries, back⟩ := cut
              simp only [hcut, Option.bind_some, Option.pure_def, Option.some.injEq,
                Prod.mk.injEq] at h
              obtain ⟨rfl, rfl⟩ := h
              obtain ⟨hend, rfl, hrest⟩ := takeExact_drop_of_some hq hcut
              have hend' : q + 1 * count ≤ buf.length := by omega
              have hentries : count ≤ (buf.drop q).length := by
                rw [List.length_drop]
                omega
              refine ⟨count, false, q, _, hload, hend', loadEntries_eq hend', ?_, ?_⟩
              · simpa using hrest
              · rw [← chunks_one hentries]
                exact hslots.setList hdone _ false

/-- Where the buffer ends inside an operand, the record is given up. It still has the opcode, which
is all that a fault reports. -/
theorem loadOperand_of_none {f : Format} (i : Nat) (slots : Slots)
    (h : Instruction.readOperand f (buf.drop p) = none) :
    ∃ after, loadOperand buf i f slots p = some (after, none) ∧ after.opcode = slots.opcode := by
  cases f with
  | uint | pool | jump =>
      cases hread : Instruction.readVariable (buf.drop p) with
      | some found => simp [Instruction.readOperand, hread] at h
      | none =>
          refine ⟨slots, ?_, rfl⟩
          simp only [loadOperand, loadVariable_of_none hread, Option.bind_eq_bind, Option.bind_some,
            Option.pure_def]
  | registers =>
      rw [Instruction.readOperand, Instruction.readList] at h
      cases hread : Instruction.readVariable (buf.drop p) with
      | none =>
          refine ⟨slots, ?_, rfl⟩
          simp only [loadOperand, loadVariable_of_none hread, Option.bind_eq_bind, Option.bind_some,
            Option.pure_def]
      | some found =>
          obtain ⟨⟨count, wide⟩, back⟩ := found
          obtain ⟨q, hload, hq, rfl⟩ := loadVariable_of_some hread
          simp only [hread, Option.bind_eq_bind, Option.bind_some] at h
          have hend : buf.length < q + (if wide then 2 else 1) * count := by
            cases wide with
            | true =>
                cases hcut : takeExact (2 * count) (buf.drop q) with
                | some cut => simp [hcut] at h
                | none => exact takeExact_drop_of_none hcut
            | false =>
                cases hcut : takeExact count (buf.drop q) with
                | some cut => simp [hcut] at h
                | none => simpa using takeExact_drop_of_none hcut
          refine ⟨slots.markWide i wide, ?_, rfl⟩
          simp only [loadOperand, hload, Option.bind_eq_bind, Option.bind_some, if_pos hend,
            Option.pure_def]
  | int32 | float32 =>
      cases hcut : takeExact 4 (buf.drop p) with
      | some cut => simp [Instruction.readOperand, hcut] at h
      | none =>
          refine ⟨slots, ?_, rfl⟩
          simp only [loadOperand, if_pos (takeExact_drop_of_none hcut), Option.pure_def]
  | int64 | float64 =>
      cases hcut : takeExact 8 (buf.drop p) with
      | some cut => simp [Instruction.readOperand, hcut] at h
      | none =>
          refine ⟨slots, ?_, rfl⟩
          simp only [loadOperand, if_pos (takeExact_drop_of_none hcut), Option.pure_def]

/-- Where an operand can be read, it is put into the record, and the position is the one behind it.
One case for each format, each by its lemma above. -/
theorem loadOperand_of_some {f : Format} {o : Operand} {rest : List UInt8} (hp : p ≤ buf.length)
    (hslots : slots.Holds ⟨opcode, done⟩) (hdone : done.length < Instruction.positions)
    (h : Instruction.readOperand f (buf.drop p) = some (o, rest)) :
    ∃ after q, loadOperand buf done.length f slots p = some (after, some q) ∧ q ≤ buf.length ∧
      rest = buf.drop q ∧ after.Holds ⟨opcode, done ++ [o]⟩ := by
  cases f with
  | uint | pool | jump =>
      obtain ⟨value, wide, q, after, hload, hset, hq, hrest, hafter⟩ :=
        loadVariable_holds hslots hdone h
      refine ⟨after, q, ?_, hq, hrest, hafter⟩
      simp only [loadOperand, hload, Option.bind_eq_bind, Option.bind_some, reduceCtorEq, if_false,
        if_true, hset, Option.pure_def]
  | registers =>
      obtain ⟨count, wide, q, list, hload, hend, hentries, hrest, hafter⟩ :=
        loadList_holds hslots hdone h
      refine ⟨_, _, ?_, hend, hrest, hafter⟩
      simp only [loadOperand, hload, Option.bind_eq_bind, Option.bind_some,
        if_neg (Nat.not_lt.mpr hend)]
      have hlist : (slots.markWide done.length wide).list = slots.list := rfl
      rw [hlist, hentries]
      rfl
  | int32 | float32 =>
      obtain ⟨n, after, hend, hnumber, hset, hrest, hafter⟩ := loadWord_holds hp hslots hdone h
      refine ⟨after, p + 4, ?_, hend, hrest, hafter⟩
      simp only [loadOperand, if_neg (Nat.not_lt.mpr hend), hnumber, hset, Option.bind_eq_bind,
        Option.bind_some, Option.pure_def]
  | int64 | float64 =>
      obtain ⟨n, after, hend, hnumber, hset, hrest, hafter⟩ := loadLong_holds hp hslots hdone h
      refine ⟨after, p + 8, ?_, hend, hrest, hafter⟩
      simp only [loadOperand, if_neg (Nat.not_lt.mpr hend), hnumber, hset, Option.bind_eq_bind,
        Option.bind_some, Option.pure_def]

/-! ### Instructions -/

theorem loadOperands_of_none {formats : List Format} (i : Nat) (hp : p ≤ buf.length)
    (hslots : slots.Holds ⟨opcode, done⟩) (hdone : done.length = i)
    (hroom : i + formats.length ≤ Instruction.positions)
    (h : Instruction.readOperands formats (buf.drop p) = none) :
    ∃ after, loadOperands buf i formats slots p = some (after, none) ∧ after.opcode = opcode := by
  induction formats generalizing i slots done p with
  | nil => simp [Instruction.readOperands] at h
  | cons f formats ih =>
      rw [Instruction.readOperands] at h
      rw [List.length_cons] at hroom
      rw [loadOperands]
      subst hdone
      cases hread : Instruction.readOperand f (buf.drop p) with
      | none =>
          obtain ⟨after, hload, hopcode⟩ := loadOperand_of_none done.length slots hread
          refine ⟨after, ?_, hopcode.trans hslots.opcode⟩
          simp only [hload, Option.bind_eq_bind, Option.bind_some, Option.pure_def]
      | some found =>
          obtain ⟨o, rest⟩ := found
          obtain ⟨after, q, hload, hq, rfl, hafter⟩ :=
            loadOperand_of_some hp hslots (by omega) hread
          simp only [hread, Option.bind_eq_bind, Option.bind_some] at h
          simp only [hload, Option.bind_eq_bind, Option.bind_some]
          refine ih (done.length + 1) hq hafter (by simp) (by omega) ?_
          cases hrest : Instruction.readOperands formats (buf.drop q) with
          | none => rfl
          | some more => simp [hrest] at h

/-- Where all operands can be read, the record holds them all. By induction over the formats, with
`Holds` for the operands so far as the invariant. -/
theorem loadOperands_of_some {formats : List Format} {operands : List Operand} {rest : List UInt8}
    (i : Nat) (hp : p ≤ buf.length) (hslots : slots.Holds ⟨opcode, done⟩) (hdone : done.length = i)
    (hroom : i + formats.length ≤ Instruction.positions)
    (h : Instruction.readOperands formats (buf.drop p) = some (operands, rest)) :
    ∃ after q, loadOperands buf i formats slots p = some (after, some q) ∧ q ≤ buf.length ∧
      rest = buf.drop q ∧ after.Holds ⟨opcode, done ++ operands⟩ := by
  induction formats generalizing i slots done p operands with
  | nil =>
      obtain ⟨rfl, rfl⟩ := Prod.mk.inj (Option.some.inj h)
      exact ⟨slots, p, rfl, hp, rfl, by rwa [List.append_nil]⟩
  | cons f formats ih =>
      rw [Instruction.readOperands] at h
      rw [List.length_cons] at hroom
      rw [loadOperands]
      subst hdone
      cases hread : Instruction.readOperand f (buf.drop p) with
      | none => simp [hread] at h
      | some found =>
          obtain ⟨o, middle⟩ := found
          obtain ⟨after, q, hload, hq, rfl, hafter⟩ :=
            loadOperand_of_some hp hslots (by omega) hread
          simp only [hread, Option.bind_eq_bind, Option.bind_some] at h
          simp only [hload, Option.bind_eq_bind, Option.bind_some]
          cases hrest : Instruction.readOperands formats (buf.drop q) with
          | none => simp [hrest] at h
          | some more =>
              obtain ⟨others, back⟩ := more
              simp only [hrest, Option.bind_some, Option.pure_def, Option.some.injEq,
                Prod.mk.injEq] at h
              obtain ⟨rfl, rfl⟩ := h
              obtain ⟨last, r, hlast, hr, hback, hholds⟩ :=
                ih (done.length + 1) hq hafter (by simp) (by omega) hrest
              exact ⟨last, r, hlast, hr, hback, by rwa [List.append_assoc] at hholds⟩

end

theorem getElem?_opcodeTable (opcode : UInt8) :
    opcodeTable[opcode.toNat]? = some (Opcode.familyOf opcode, Opcode.formatsOf opcode) := by
  have hlt : opcode.toNat < 256 := opcode.toNat_lt
  simp [opcodeTable, hlt]

/-- Family 0 is that of the unassigned bytes, so testing for it is testing whether there is an
operation. -/
theorem familyOf_eq_zero_iff (opcode : UInt8) :
    Opcode.familyOf opcode = 0 ↔ Opcode.ofByte? opcode = none := by
  rw [Opcode.familyOf]
  cases Opcode.ofByte? opcode with
  | none => simp
  | some op =>
      simp only [Option.map_some, Option.getD_some, reduceCtorEq, iff_false]
      rcases op with ⟨_ | _ | _ | _, _⟩ | ⟨_ | _ | _ | _, _⟩ | _ | _ | _ | _ | _ | _ | _ |
        _ | _ | _ | _ <;>
        simp [Opcode.family]

/-- Decoding into a record never leaves a range and ends as decoding does, whatever the record held
before. The record then has the opcode byte, and after a success the whole instruction. That there
is a result is the point: every index on the way is looked up with a result that may be missing. -/
theorem load_eq (buf : List UInt8) (previous : Slots) :
    ∃ slots, previous.load buf =
        some (slots, (Instruction.decode buf).map fun found => found.1.size) ∧
      (buf ≠ [] → slots.opcode = buf.headD 0) ∧
      ∀ inst rest, Instruction.decode buf = .ok (inst, rest) →
        slots.Holds inst ∧ slots.size = inst.size := by
  cases buf with
  | nil => exact ⟨previous, rfl, by simp, by simp [Instruction.decode]⟩
  | cons opcode tail =>
      rw [load, if_neg (by simp)]
      simp only [List.getElem?_cons_zero, Option.bind_eq_bind, Option.bind_some,
        getElem?_opcodeTable, List.headD_cons]
      cases hop : Opcode.ofByte? opcode with
      | none =>
          rw [if_pos ((familyOf_eq_zero_iff opcode).mpr hop)]
          refine ⟨{ blank opcode (Opcode.familyOf opcode) with size := 1 }, ?_, fun _ => rfl, ?_⟩
          · simp only [Instruction.decode, hop, Option.pure_def, Except.map]
          · simp [Instruction.decode, hop]
      | some op =>
          have hassigned : Opcode.familyOf opcode ≠ 0 := by
            rw [ne_eq, familyOf_eq_zero_iff, hop]
            simp
          have hformats := Opcode.formatsOf_eq hop
          have hroom : 0 + op.formats.length ≤ Instruction.positions := by
            have := op.length_formats_le
            rw [Instruction.positions]
            omega
          have hp : 1 ≤ (opcode :: tail).length := by simp
          rw [if_neg hassigned, hformats]
          cases hread : Instruction.readOperands op.formats tail with
          | none =>
              obtain ⟨slots, hload, hopcode⟩ :=
                loadOperands_of_none 0 hp (holds_blank opcode) rfl hroom hread
              refine ⟨slots, ?_, fun _ => hopcode, ?_⟩
              · simp only [hload, Option.bind_some, Option.pure_def, Instruction.decode, hop, hread,
                  Except.map]
              · simp [Instruction.decode, hop, hread]
          | some found =>
              obtain ⟨operands, rest⟩ := found
              obtain ⟨slots, q, hload, hq, hrest, hholds⟩ :=
                loadOperands_of_some 0 hp (holds_blank opcode) rfl hroom hread
              have hdecode : Instruction.decode (opcode :: tail) =
                  .ok (⟨opcode, operands⟩, rest) := by
                simp only [Instruction.decode, hop, hread]
              have hsize : q = Instruction.size ⟨opcode, operands⟩ := by
                obtain ⟨code, hcode, hstands⟩ := Instruction.decode_inv hdecode
                have hlength := congrArg List.length hcode
                rw [List.length_append, hstands.size, hrest, List.length_drop] at hlength
                omega
              refine ⟨{ slots with size := q }, ?_, fun _ => hholds.opcode, ?_⟩
              · simp only [hload, Option.bind_some, Option.pure_def, hdecode, Except.map, hsize]
              · intro inst back hinst
                rw [hdecode] at hinst
                obtain ⟨rfl, rfl⟩ := Prod.mk.inj (Except.ok.inj hinst)
                exact ⟨⟨hholds.1, hholds.2, hholds.3, hholds.4, hholds.5, hholds.6⟩, hsize⟩

end Slots

end RegisterVM
