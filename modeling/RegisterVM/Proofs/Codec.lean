import RegisterVM.Instruction.Codec
import RegisterVM.Proofs.Bytes

/-!
# The instruction stream: laws

Reading an operand settles everything about the bytes it was read from. `Stands f o front` collects
what: the operand has the shape of its format, `front` is what writing it gives, and reading finds
it again whatever follows. Each reader is inverted once, into such bytes and a rest; that decoding
is undone by encoding, that it does not look past the instruction, and how far it can reach all
follow from the inversions by one induction over the formats.

The inversions are stated with the bytes themselves, never with positions. A caller that holds a
longer sequence splits it with them and goes on with the rest, so no arithmetic on offsets is needed
before the checked decoder.
-/

namespace RegisterVM

theorem Opcode.formatsOf_eq {opcode : UInt8} {op : Opcode} (h : Opcode.ofByte? opcode = some op) :
    Opcode.formatsOf opcode = op.formats := by
  rw [Opcode.formatsOf, h]
  rfl

/-- Which operands a format gives. An operand is a number, a word, a long or a list, and the format
alone says which of them; the readers give no others, and the writers refuse all others. -/
inductive Operand.Fits : Format → Operand → Prop
  | uint (value : Int32) (wide : Bool) : Fits .uint (.number value wide)
  | pool (value : Int32) (wide : Bool) : Fits .pool (.number value wide)
  | jump (value : Int32) (wide : Bool) : Fits .jump (.number value wide)
  | registers (list : List Int32) (wide : Bool) : Fits .registers (.registers list wide)
  | int32 (value : Int32) : Fits .int32 (.word value)
  | float32 (value : Int32) : Fits .float32 (.word value)
  | int64 (value : Int64) : Fits .int64 (.long value)
  | float64 (value : Int64) : Fits .float64 (.long value)

/-- Operands that fit formats one by one. This is the shape over which the operands of an
instruction are reasoned about: each induction in this module follows its two constructors. -/
inductive Operand.FitAll : List Format → List Operand → Prop
  | nil : FitAll [] []
  | cons {f : Format} {o : Operand} {formats : List Format} {operands : List Operand} :
      o.Fits f → FitAll formats operands → FitAll (f :: formats) (o :: operands)

/-- The most bytes an operand of a format can take. Only a register list makes an instruction long,
and its count is what bounds it. -/
def Format.maxSize : Format → Nat
  | .uint | .pool | .jump => 2
  | .registers => 2 + 2 * 0x7FFF
  | .int32 | .float32 => 4
  | .int64 | .float64 => 8

namespace Instruction

/-- `front` is how the operand `o` of format `f` stands in an instruction stream. The fields are
what later proofs ask of an operand, so none of them looks into a reader or a writer again. -/
structure Stands (f : Format) (o : Operand) (front : List UInt8) : Prop where
  fits : o.Fits f
  size : front.length = o.size
  bound : front.length ≤ f.maxSize
  write : ∀ (opcode : UInt8) (position : Nat), writeOperand opcode position f o = .ok front
  read : ∀ more : List UInt8, readOperand f (front ++ more) = some (o, more)

/-! ### Variable-width numbers -/

/-- A number that was read is written as it stood, with the width it had: the first bit of the first
byte says whether a second byte follows, and nothing else depends on it. -/
theorem readVariable_inv {bytes rest : List UInt8} {value : Nat} {wide : Bool}
    (h : readVariable bytes = some ((value, wide), rest)) :
    bytes = writeVariable value wide ++ rest ∧ value < 0x8000 ∧ (wide = false → value < 0x80) := by
  cases bytes with
  | nil => simp [readVariable] at h
  | cons first tail =>
      by_cases hfirst : first < 0x80
      · simp only [readVariable, if_pos hfirst, Option.some.injEq, Prod.mk.injEq] at h
        obtain ⟨⟨rfl, rfl⟩, rfl⟩ := h
        have hlt : first.toNat < 0x80 := UInt8.lt_iff_toNat_lt.mp hfirst
        refine ⟨by simp [writeVariable], by omega, fun _ => hlt⟩
      · cases tail with
        | nil => simp [readVariable, hfirst] at h
        | cons second tail =>
            simp only [readVariable, if_neg hfirst, Option.some.injEq, Prod.mk.injEq] at h
            obtain ⟨⟨rfl, rfl⟩, rfl⟩ := h
            have hge : 0x80 ≤ first.toNat := by
              simpa [UInt8.lt_iff_toNat_lt] using hfirst
            have hlt := first.toNat_lt
            have hsecond := second.toNat_lt
            refine ⟨?_, by omega, fun hw => by simp at hw⟩
            have hhigh : UInt8.ofNat (0x80 + (first.toNat % 128 * 256 + second.toNat) / 256) =
                first := by
              apply UInt8.toNat_inj.mp
              simp only [UInt8.toNat_ofNat']
              omega
            have hlow : UInt8.ofNat (first.toNat % 128 * 256 + second.toNat) = second := by
              apply UInt8.toNat_inj.mp
              simp only [UInt8.toNat_ofNat']
              omega
            simp [writeVariable, hhigh, hlow]

/-- A number that fits its form is read back from what was written. A wide number may be one that
would have fitted one byte; the width is kept and not chosen anew. -/
theorem readVariable_writeVariable {value : Nat} {wide : Bool} (hvalue : value < 0x8000)
    (hnarrow : wide = false → value < 0x80) (more : List UInt8) :
    readVariable (writeVariable value wide ++ more) = some ((value, wide), more) := by
  cases wide with
  | false =>
      have hlt := hnarrow rfl
      have hbyte : (UInt8.ofNat value).toNat = value := by
        rw [UInt8.toNat_ofNat']
        omega
      have hfirst : UInt8.ofNat value < 0x80 := by
        rw [UInt8.lt_iff_toNat_lt, hbyte]
        exact hlt
      simp only [writeVariable, Bool.false_eq_true, if_false, List.cons_append, List.nil_append,
        readVariable, if_pos hfirst, hbyte]
  | true =>
      have hbyte : (UInt8.ofNat (0x80 + value / 256)).toNat = 0x80 + value / 256 := by
        rw [UInt8.toNat_ofNat']
        omega
      have hfirst : ¬ UInt8.ofNat (0x80 + value / 256) < 0x80 := by
        rw [UInt8.lt_iff_toNat_lt, hbyte]
        simp
      have hvalue' : (0x80 + value / 256) % 128 * 256 + (UInt8.ofNat value).toNat = value := by
        rw [UInt8.toNat_ofNat']
        omega
      simp only [writeVariable, if_true, List.cons_append, List.nil_append, readVariable,
        if_neg hfirst, hbyte, hvalue']

theorem length_writeVariable (value : Nat) (wide : Bool) :
    (writeVariable value wide).length = if wide then 2 else 1 := by
  cases wide <;> rfl

/-- Only a sequence of fewer than two bytes holds no variable-width number, for no first byte is
refused. -/
theorem length_lt_of_readVariable_none {bytes : List UInt8} (h : readVariable bytes = none) :
    bytes.length < 2 := by
  match bytes with
  | [] => simp
  | [_] => simp
  | first :: second :: tail =>
      by_cases hfirst : first < 0x80 <;> simp [readVariable, hfirst] at h

/-! ### Jumps -/

/-- The signed value of a 15-bit field: fields from `0x4000` on are the distances backwards. -/
theorem toInt_signExtendJump {field : Nat} (h : field < 0x8000) :
    (signExtendJump field).toInt = if 0x4000 ≤ field then (field : Int) - 0x8000 else field := by
  have hmod : field % 0x8000 = field := Nat.mod_eq_of_lt h
  simp only [signExtendJump, hmod]
  split <;> rw [Int32.toInt_ofInt_of_le] <;> omega

/-- The field of a jump is found again from its signed value, so a jump that was read can be written
without loss. -/
theorem jumpField_signExtendJump {field : Nat} (h : field < 0x8000) :
    jumpField (signExtendJump field) = field := by
  have hmod : field % 0x8000 = field := Nat.mod_eq_of_lt h
  have hnat (i : Int) : (Int32.ofInt i).toUInt32.toNat = (i % 2 ^ 32).toNat := by
    rw [← UInt32.toNat_toBitVec, Int32.toBitVec_toUInt32, Int32.toBitVec_ofInt, BitVec.toNat_ofInt]
    rfl
  simp only [jumpField, signExtendJump, hmod, hnat]
  split <;> omega

/-! ### How operands stand -/

theorem stands_uint {value : Nat} {wide : Bool} (hvalue : value < 0x8000)
    (hnarrow : wide = false → value < 0x80) :
    Stands .uint (.number (Int32.ofNat value) wide) (writeVariable value wide) where
  fits := .uint _ _
  size := length_writeVariable value wide
  bound := by
    rw [length_writeVariable, Format.maxSize]
    split <;> omega
  write opcode position := by
    have htoInt : (Int32.ofNat value).toInt = value := Int32.toInt_ofNat_of_lt (by omega)
    have hrange : (decide ((value : Int) < 0) || decide (maxUnsigned < (value : Int))) = false := by
      rw [Bool.or_eq_false_iff, decide_eq_false_iff_not, decide_eq_false_iff_not, maxUnsigned]
      omega
    have hwide : (wide || decide (0x80 ≤ (value : Int))) = wide := by
      cases wide with
      | true => rfl
      | false =>
          have hlt := hnarrow rfl
          rw [Bool.false_or, decide_eq_false_iff_not]
          omega
    change (if (decide ((Int32.ofNat value).toInt < 0) ||
        decide (maxUnsigned < (Int32.ofNat value).toInt)) = true then _ else
      Except.ok (writeVariable (Int32.ofNat value).toInt.toNat
        (wide || decide (0x80 ≤ (Int32.ofNat value).toInt)))) = _
    rw [htoInt, hrange, hwide, if_neg Bool.false_ne_true, Int.toNat_natCast]
  read more := by
    simp only [readOperand, readVariable_writeVariable hvalue hnarrow, Option.bind_eq_bind,
      Option.bind_some, Option.pure_def]

/-- A pool index is stored like an unsigned number. -/
theorem stands_pool {o : Operand} {front : List UInt8} (h : Stands .uint o front) :
    Stands .pool o front where
  fits := by
    cases h.fits
    exact .pool _ _
  size := h.size
  bound := h.bound
  write := h.write
  read := h.read

theorem stands_jump {field : Nat} {wide : Bool} (hfield : field < 0x8000)
    (hnarrow : wide = false → field < 0x80) :
    Stands .jump (.number (signExtendJump field) wide) (writeVariable field wide) where
  fits := .jump _ _
  size := length_writeVariable field wide
  bound := by
    rw [length_writeVariable, Format.maxSize]
    split <;> omega
  write opcode position := by
    have htoInt := toInt_signExtendJump hfield
    have hrange : (decide ((signExtendJump field).toInt < minJump) ||
        decide (maxJump < (signExtendJump field).toInt)) = false := by
      rw [htoInt, Bool.or_eq_false_iff, decide_eq_false_iff_not, decide_eq_false_iff_not, minJump,
        maxJump]
      split <;> omega
    have hwide : ((wide || decide ((signExtendJump field).toInt < 0)) ||
        decide (0x80 ≤ (signExtendJump field).toInt)) = wide := by
      cases wide with
      | true => rfl
      | false =>
          have hlt := hnarrow rfl
          rw [htoInt, if_neg (by omega)]
          simp only [Bool.false_or, Bool.or_eq_false_iff, decide_eq_false_iff_not]
          omega
    change (if (decide ((signExtendJump field).toInt < minJump) ||
        decide (maxJump < (signExtendJump field).toInt)) = true then _ else
      Except.ok (writeVariable (jumpField (signExtendJump field))
        ((wide || decide ((signExtendJump field).toInt < 0)) ||
          decide (0x80 ≤ (signExtendJump field).toInt)))) = _
    rw [hrange, hwide, if_neg Bool.false_ne_true, jumpField_signExtendJump hfield]
  read more := by
    simp only [readOperand, readVariable_writeVariable hfield hnarrow, Option.bind_eq_bind,
      Option.bind_some, Option.pure_def]

/-! ### Register lists

The entries of a list are words in the source of an operand and one or two bytes each in the stream.
An entry in range is its own unsigned value, so nothing is lost on the way. -/

/-- A word is determined by its unsigned value. -/
theorem ofNat_toUInt32_toNat (v : Int32) : Int32.ofNat v.toUInt32.toNat = v := by
  apply Int32.toBitVec.inj
  rw [← Int32.toBitVec_toUInt32, Int32.toUInt32_ofNat', UInt32.ofNat_toNat, Int32.toBitVec_toUInt32]

/-- The unsigned value of a word that is not negative is its value. -/
theorem toUInt32_toNat_of_nonneg {v : Int32} (h : 0 ≤ v.toInt) :
    (v.toUInt32.toNat : Int) = v.toInt := by
  rw [← Int32.toInt_toBitVec, BitVec.toInt_eq_toNat_cond] at h ⊢
  rw [← UInt32.toNat_toBitVec, Int32.toBitVec_toUInt32]
  have hlt := v.toBitVec.isLt
  split at h <;> rename_i hsmall
  · rw [if_pos hsmall]
  · omega

/-- A list within a bound that fits two bytes has no entry to refuse. -/
theorem misfit?_eq_none {list : List Int32} {bound : Int} (hbound : bound ≤ 0xFFFF)
    (h : ∀ r ∈ list, 0 ≤ r.toInt ∧ r.toInt ≤ bound) : misfit? list = none := by
  rw [misfit?, List.find?_eq_none]
  intro r hr
  obtain ⟨hlow, hhigh⟩ := h r hr
  simp only [Bool.or_eq_true, decide_eq_true_eq]
  omega

/-- How a wide register list stands: the count in two bytes and then every entry in two bytes. An
entry below `2 ^ 16` is its own unsigned value, so what is read is the list. -/
theorem stands_list_wide {list : List Int32} (hlength : list.length < 0x8000)
    (h : ∀ r ∈ list, 0 ≤ r.toInt ∧ r.toInt ≤ 0xFFFF) :
    Stands .registers (.registers list true)
      (writeVariable list.length true ++ list.flatMap fun r => toBigEndian 2 r.toUInt32.toNat) := by
  have hflat : (list.flatMap fun r => toBigEndian 2 r.toUInt32.toNat).length = 2 * list.length := by
    rw [List.length_flatMap]
    simp only [length_toBigEndian, List.map_const', List.sum_replicate_nat, Nat.mul_comm]
  have hread : list.map (fun r => Int32.ofNat (bigEndian (toBigEndian 2 r.toUInt32.toNat))) =
      list := by
    refine (List.map_congr_left fun r hr => ?_).trans (List.map_id list)
    have hnat := toUInt32_toNat_of_nonneg (h r hr).1
    have hhigh := (h r hr).2
    rw [bigEndian_toBigEndian, Nat.mod_eq_of_lt (by omega), ofNat_toUInt32_toNat]
    rfl
  constructor
  case fits => exact .registers _ _
  case size =>
    rw [List.length_append, hflat, length_writeVariable]
    rfl
  case bound =>
    rw [List.length_append, hflat, length_writeVariable, if_pos rfl, Format.maxSize]
    omega
  case write =>
    intro opcode position
    change writeList list true = _
    simp only [writeList, misfit?_eq_none (Int.le_refl _) h, Bool.true_or, if_true,
      if_neg (show ¬ 0x7FFF < list.length by omega)]
  case read =>
    intro more
    have hcount (tail : List UInt8) : readVariable (writeVariable list.length true ++ tail)
        = some ((list.length, true), tail) :=
      readVariable_writeVariable hlength (fun hw => absurd hw (by decide)) tail
    simp only [readOperand, readList, List.append_assoc, hcount, Option.bind_eq_bind,
      Option.bind_some, if_true, takeExact_append hflat,
      chunks_flatMap (fun r : Int32 => length_toBigEndian 2 r.toUInt32.toNat) list, List.map_map,
      Function.comp_def, hread, Option.pure_def]

/-- How a narrow register list stands: the count in one byte and every entry in one byte. -/
theorem stands_list_narrow {list : List Int32} (hlength : list.length < 0x80)
    (h : ∀ r ∈ list, 0 ≤ r.toInt ∧ r.toInt ≤ 0xFF) :
    Stands .registers (.registers list false)
      (writeVariable list.length false ++ list.map fun r => r.toUInt32.toUInt8) := by
  have hread : list.map (fun r => Int32.ofNat r.toUInt32.toUInt8.toNat) = list := by
    refine (List.map_congr_left fun r hr => ?_).trans (List.map_id list)
    have hnat := toUInt32_toNat_of_nonneg (h r hr).1
    have hhigh := (h r hr).2
    rw [UInt32.toNat_toUInt8, Nat.mod_eq_of_lt (by omega), ofNat_toUInt32_toNat]
    rfl
  have hany : list.any (fun r => decide (0xFF < r.toInt)) = false := by
    rw [List.any_eq_false]
    intro r hr
    have hhigh := (h r hr).2
    rw [decide_eq_true_eq]
    omega
  constructor
  case fits => exact .registers _ _
  case size =>
    rw [List.length_append, List.length_map, length_writeVariable]
    rfl
  case bound =>
    rw [List.length_append, List.length_map, length_writeVariable, if_neg Bool.false_ne_true,
      Format.maxSize]
    omega
  case write =>
    intro opcode position
    change writeList list false = _
    simp only [writeList, misfit?_eq_none (by decide) h, hany, Bool.false_or, decide_eq_true_eq,
      if_neg (show ¬ 0x7FFF < list.length by omega), if_neg (show ¬ 0x80 ≤ list.length by omega)]
  case read =>
    intro more
    have hcount (tail : List UInt8) : readVariable (writeVariable list.length false ++ tail)
        = some ((list.length, false), tail) :=
      readVariable_writeVariable (by omega) (fun _ => hlength) tail
    simp only [readOperand, readList, List.append_assoc, hcount, Option.bind_eq_bind,
      Option.bind_some, Bool.false_eq_true, if_false, takeExact_append (List.length_map _),
      List.map_map, Function.comp_def, hread, Option.pure_def]

/-! ### Constants -/

theorem stands_int32 {word : List UInt8} (h : word.length = 4) :
    Stands .int32 (.word (Int32.ofNat (bigEndian word))) word where
  fits := .int32 _
  size := h
  bound := Nat.le_of_eq h
  write opcode position := by
    have hlt := bigEndian_lt word
    rw [h] at hlt
    have hword := toBigEndian_bigEndian word
    rw [h] at hword
    simp only [writeOperand, Operand.value, Int32.toUInt32_ofNat', UInt32.toNat_ofNat',
      Nat.mod_eq_of_lt (show bigEndian word < 2 ^ 32 from hlt), hword]
  read more := by
    simp only [readOperand, takeExact_append h, Option.bind_eq_bind, Option.bind_some,
      Option.pure_def]

theorem stands_int64 {long : List UInt8} (h : long.length = 8) :
    Stands .int64 (.long (Int64.ofNat (bigEndian long))) long where
  fits := .int64 _
  size := h
  bound := Nat.le_of_eq h
  write opcode position := by
    have hlt := bigEndian_lt long
    rw [h] at hlt
    have hlong := toBigEndian_bigEndian long
    rw [h] at hlong
    simp only [writeOperand, Operand.longValue, Int64.toUInt64_ofNat', UInt64.toNat_ofNat',
      Nat.mod_eq_of_lt (show bigEndian long < 2 ^ 64 from hlt), hlong]
  read more := by
    simp only [readOperand, takeExact_append h, Option.bind_eq_bind, Option.bind_some,
      Option.pure_def]

/-- Floating-point constants are stored like integers of their width. -/
theorem stands_float32 {o : Operand} {front : List UInt8} (h : Stands .int32 o front) :
    Stands .float32 o front where
  fits := by
    cases h.fits
    exact .float32 _
  size := h.size
  bound := h.bound
  write := h.write
  read := h.read

theorem stands_float64 {o : Operand} {front : List UInt8} (h : Stands .int64 o front) :
    Stands .float64 o front where
  fits := by
    cases h.fits
    exact .float64 _
  size := h.size
  bound := h.bound
  write := h.write
  read := h.read

/-! ### Inverting the readers -/

/-- Whatever a register list was read from is how it stands. The width read with the count decides
the width of the entries, and the bytes taken are exactly as many as both say. -/
theorem readList_inv {bytes rest : List UInt8} {o : Operand} (h : readList bytes = some (o, rest)) :
    ∃ front, bytes = front ++ rest ∧ Stands .registers o front := by
  rw [readList, Option.bind_eq_bind, Option.bind_eq_some_iff] at h
  obtain ⟨⟨⟨count, wide⟩, tail⟩, hcount, h⟩ := h
  obtain ⟨rfl, hlt, hnarrow⟩ := readVariable_inv hcount
  cases wide with
  | true =>
      simp only [if_true, Option.bind_eq_bind, Option.bind_eq_some_iff, Option.pure_def,
        Option.some.injEq, Prod.mk.injEq] at h
      obtain ⟨⟨entries, back⟩, hcut, rfl, rfl⟩ := h
      obtain ⟨rfl, hlength⟩ := takeExact_eq_some hcut
      have hgroup : ∀ g ∈ chunks 2 count entries, bigEndian g < 2 ^ 16 := fun g hg => by
        have hlt := bigEndian_lt g
        rwa [length_of_mem_chunks hlength hg] at hlt
      have hback : ((chunks 2 count entries).map fun g => Int32.ofNat (bigEndian g)).flatMap
          (fun r => toBigEndian 2 r.toUInt32.toNat) = entries := by
        have hone : ∀ g ∈ chunks 2 count entries,
            toBigEndian 2 (Int32.ofNat (bigEndian g)).toUInt32.toNat = g := fun g hg => by
          have hlt := hgroup g hg
          have hword := toBigEndian_bigEndian g
          rw [length_of_mem_chunks hlength hg] at hword
          rw [Int32.toUInt32_ofNat', UInt32.toNat_ofNat', Nat.mod_eq_of_lt (by omega), hword]
        rw [List.flatMap_map, List.flatMap_def, List.map_congr_left hone, List.map_id',
          flatten_chunks hlength]
      have hrange : ∀ r ∈ (chunks 2 count entries).map fun g => Int32.ofNat (bigEndian g),
          0 ≤ r.toInt ∧ r.toInt ≤ 0xFFFF := fun r hr => by
        obtain ⟨g, hg, rfl⟩ := List.mem_map.mp hr
        have hlt := hgroup g hg
        rw [Int32.toInt_ofNat_of_lt (by omega)]
        omega
      have hstands := stands_list_wide (by rw [List.length_map, length_chunks]; exact hlt) hrange
      rw [hback, List.length_map, length_chunks] at hstands
      exact ⟨_, (List.append_assoc ..).symm, hstands⟩
  | false =>
      simp only [Bool.false_eq_true, if_false, Option.bind_eq_bind, Option.bind_eq_some_iff,
        Option.pure_def, Option.some.injEq, Prod.mk.injEq] at h
      obtain ⟨⟨entries, back⟩, hcut, rfl, rfl⟩ := h
      obtain ⟨rfl, rfl⟩ := takeExact_eq_some hcut
      have hback : (entries.map fun e => Int32.ofNat e.toNat).map (fun r => r.toUInt32.toUInt8)
          = entries := by
        have hone : ∀ e ∈ entries, (Int32.ofNat e.toNat).toUInt32.toUInt8 = e := fun e _ => by
          have hlt := e.toNat_lt
          apply UInt8.toNat_inj.mp
          rw [Int32.toUInt32_ofNat', UInt32.toNat_toUInt8, UInt32.toNat_ofNat']
          omega
        rw [List.map_map, Function.comp_def, List.map_congr_left hone, List.map_id']
      have hrange : ∀ r ∈ entries.map fun e => Int32.ofNat e.toNat,
          0 ≤ r.toInt ∧ r.toInt ≤ 0xFF := fun r hr => by
        obtain ⟨e, -, rfl⟩ := List.mem_map.mp hr
        have hlt := e.toNat_lt
        rw [Int32.toInt_ofNat_of_lt (by omega)]
        omega
      have hstands := stands_list_narrow (by rw [List.length_map]; exact hnarrow rfl) hrange
      rw [hback, List.length_map] at hstands
      exact ⟨_, (List.append_assoc ..).symm, hstands⟩

/-- An operand that holds a variable-width number was read from that number. -/
theorem readNumber_inv {bytes rest : List UInt8} {o : Operand} {make : Nat → Int32}
    (h : (do
      let ((value, wide), rest) ← readVariable bytes
      return (Operand.number (make value) wide, rest)) = some (o, rest)) :
    ∃ value wide, o = .number (make value) wide ∧ bytes = writeVariable value wide ++ rest ∧
      value < 0x8000 ∧ (wide = false → value < 0x80) := by
  simp only [Option.bind_eq_bind, Option.bind_eq_some_iff, Option.pure_def, Option.some.injEq,
    Prod.mk.injEq] at h
  obtain ⟨⟨⟨value, wide⟩, tail⟩, hread, rfl, rfl⟩ := h
  exact ⟨value, wide, rfl, readVariable_inv hread⟩

theorem readInt32_inv {bytes rest : List UInt8} {o : Operand}
    (h : readOperand .int32 bytes = some (o, rest)) :
    ∃ front, bytes = front ++ rest ∧ Stands .int32 o front := by
  simp only [readOperand, Option.bind_eq_bind, Option.bind_eq_some_iff, Option.pure_def,
    Option.some.injEq, Prod.mk.injEq] at h
  obtain ⟨⟨word, tail⟩, hcut, rfl, rfl⟩ := h
  obtain ⟨hbytes, hlength⟩ := takeExact_eq_some hcut
  exact ⟨word, hbytes, stands_int32 hlength⟩

theorem readInt64_inv {bytes rest : List UInt8} {o : Operand}
    (h : readOperand .int64 bytes = some (o, rest)) :
    ∃ front, bytes = front ++ rest ∧ Stands .int64 o front := by
  simp only [readOperand, Option.bind_eq_bind, Option.bind_eq_some_iff, Option.pure_def,
    Option.some.injEq, Prod.mk.injEq] at h
  obtain ⟨⟨long, tail⟩, hcut, rfl, rfl⟩ := h
  obtain ⟨hbytes, hlength⟩ := takeExact_eq_some hcut
  exact ⟨long, hbytes, stands_int64 hlength⟩

/-- Whatever an operand was read from is how that operand stands. One case for each format; all that
follows about operands is read off `Stands` and makes no such case distinction. -/
theorem readOperand_inv {f : Format} {bytes rest : List UInt8} {o : Operand}
    (h : readOperand f bytes = some (o, rest)) :
    ∃ front, bytes = front ++ rest ∧ Stands f o front := by
  cases f with
  | uint =>
      obtain ⟨value, wide, rfl, hbytes, hlt, hnarrow⟩ := readNumber_inv h
      exact ⟨_, hbytes, stands_uint hlt hnarrow⟩
  | pool =>
      obtain ⟨value, wide, rfl, hbytes, hlt, hnarrow⟩ := readNumber_inv h
      exact ⟨_, hbytes, stands_pool (stands_uint hlt hnarrow)⟩
  | jump =>
      obtain ⟨value, wide, rfl, hbytes, hlt, hnarrow⟩ := readNumber_inv h
      exact ⟨_, hbytes, stands_jump hlt hnarrow⟩
  | registers => exact readList_inv h
  | int32 => exact readInt32_inv h
  | float32 =>
      obtain ⟨front, hbytes, hstands⟩ := readInt32_inv h
      exact ⟨front, hbytes, stands_float32 hstands⟩
  | int64 => exact readInt64_inv h
  | float64 =>
      obtain ⟨front, hbytes, hstands⟩ := readInt64_inv h
      exact ⟨front, hbytes, stands_float64 hstands⟩

/-- An operand is missing only where the sequence is shorter than the format can need. Reading has
no other way to fail, since every operand byte is allowed. -/
theorem length_lt_of_readOperand_none {f : Format} {bytes : List UInt8}
    (h : readOperand f bytes = none) : bytes.length < f.maxSize := by
  cases f with
  | uint | pool | jump =>
      simp only [readOperand, Option.bind_eq_bind, Option.bind_eq_none_iff, Option.pure_def,
        reduceCtorEq, imp_false] at h
      exact length_lt_of_readVariable_none (Option.eq_none_iff_forall_not_mem.mpr h)
  | int32 | float32 | int64 | float64 =>
      simp only [readOperand, Option.bind_eq_bind, Option.bind_eq_none_iff, Option.pure_def,
        reduceCtorEq, imp_false] at h
      exact takeExact_eq_none_iff.mp (Option.eq_none_iff_forall_not_mem.mpr h)
  | registers =>
      rw [Format.maxSize]
      cases hcount : readVariable bytes with
      | none =>
          have hlt := length_lt_of_readVariable_none hcount
          omega
      | some found =>
          obtain ⟨⟨count, wide⟩, tail⟩ := found
          obtain ⟨rfl, hlt, hnarrow⟩ := readVariable_inv hcount
          rw [List.length_append, length_writeVariable]
          cases wide with
          | true =>
              have hcut : takeExact (2 * count) tail = none := by
                cases hcut : takeExact (2 * count) tail with
                | none => rfl
                | some cut => simp [readOperand, readList, hcount, hcut] at h
              have hshort := takeExact_eq_none_iff.mp hcut
              rw [if_pos rfl]
              omega
          | false =>
              have hcut : takeExact count tail = none := by
                cases hcut : takeExact count tail with
                | none => rfl
                | some cut => simp [readOperand, readList, hcount, hcut] at h
              have hshort := takeExact_eq_none_iff.mp hcut
              rw [if_neg Bool.false_ne_true]
              omega

/-! ### Operand sequences -/

/-- `front` is how the operands of some formats stand one after another. Its fields are those of
`Stands`, summed up over the formats. -/
structure StandAll (formats : List Format) (operands : List Operand)
    (front : List UInt8) : Prop where
  fits : Operand.FitAll formats operands
  size : front.length = operands.foldr (fun operand total => operand.size + total) 0
  bound : front.length ≤ (formats.map Format.maxSize).sum
  write : ∀ (opcode : UInt8) (position : Nat),
    writeOperands opcode position formats operands = .ok front
  read : ∀ more : List UInt8, readOperands formats (front ++ more) = some (operands, more)

theorem standAll_nil : StandAll [] [] [] where
  fits := .nil
  size := rfl
  bound := Nat.le_refl _
  write _ _ := rfl
  read _ := rfl

/-- One more operand in front. This is the only step of the inductions over the formats: what the
first operand takes up and what the rest does are joined field by field. -/
theorem Stands.cons {f : Format} {o : Operand} {front back : List UInt8} {formats : List Format}
    {operands : List Operand} (h : Stands f o front) (hrest : StandAll formats operands back) :
    StandAll (f :: formats) (o :: operands) (front ++ back) where
  fits := .cons h.fits hrest.fits
  size := by rw [List.length_append, h.size, hrest.size, List.foldr_cons]
  bound := by
    rw [List.length_append, List.map_cons, List.sum_cons]
    exact Nat.add_le_add h.bound hrest.bound
  write opcode position := by
    simp only [writeOperands, List.head?_cons, Option.getD_some, List.tail_cons, h.write,
      hrest.write, bind, Except.bind, pure, Except.pure]
  read more := by
    simp only [readOperands, List.append_assoc, h.read, hrest.read, Option.bind_eq_bind,
      Option.bind_some, Option.pure_def]

/-- Whatever operands were read from is how they stand, by induction over the formats. -/
theorem readOperands_inv {formats : List Format} {bytes rest : List UInt8} {operands : List Operand}
    (h : readOperands formats bytes = some (operands, rest)) :
    ∃ front, bytes = front ++ rest ∧ StandAll formats operands front := by
  induction formats generalizing bytes operands with
  | nil =>
      simp only [readOperands, Option.some.injEq, Prod.mk.injEq] at h
      obtain ⟨rfl, rfl⟩ := h
      exact ⟨[], rfl, standAll_nil⟩
  | cons f formats ih =>
      simp only [readOperands, Option.bind_eq_bind, Option.bind_eq_some_iff, Option.pure_def,
        Option.some.injEq, Prod.mk.injEq] at h
      obtain ⟨⟨o, tail⟩, hone, ⟨others, last⟩, hothers, rfl, rfl⟩ := h
      obtain ⟨front, rfl, hstands⟩ := readOperand_inv hone
      obtain ⟨back, rfl, hstandAll⟩ := ih hothers
      exact ⟨front ++ back, (List.append_assoc ..).symm, hstands.cons hstandAll⟩

theorem length_lt_of_readOperands_none {formats : List Format} {bytes : List UInt8}
    (h : readOperands formats bytes = none) : bytes.length < (formats.map Format.maxSize).sum := by
  induction formats generalizing bytes with
  | nil => simp [readOperands] at h
  | cons f formats ih =>
      rw [List.map_cons, List.sum_cons]
      cases hone : readOperand f bytes with
      | none =>
          have hlt := length_lt_of_readOperand_none hone
          omega
      | some found =>
          obtain ⟨o, tail⟩ := found
          obtain ⟨front, rfl, hstands⟩ := readOperand_inv hone
          have hbound := hstands.bound
          have hothers : readOperands formats tail = none := by
            cases hothers : readOperands formats tail with
            | none => rfl
            | some others => simp [readOperands, hone, hothers] at h
          have hlt := ih hothers
          rw [List.length_append]
          omega

/-! ### Whole instructions -/

theorem maxSize_eq : maxSize = 65585 := rfl

/-- No operation's operands reach past the longest instruction, as a look at the formats of every
operation shows. An invocation with the longest register list reaches the bound. -/
theorem sum_maxSize_formats_le (op : Opcode) :
    1 + (op.formats.map Format.maxSize).sum ≤ maxSize := by
  rw [maxSize_eq]
  rcases op with ⟨_ | _ | _ | _, _⟩ | ⟨_ | _ | _ | _, _⟩ | _ | _ | _ | _ | _ | _ | _ |
    _ | _ | _ | _ <;>
    simp [Opcode.formats, Format.maxSize]

/-- `code` is how an instruction stands in a stream. Encoding and decoding are both in it, so that a
proof about either has the other at hand. -/
structure StandsAs (inst : Instruction) (code : List UInt8) : Prop where
  fits : ∃ op, Opcode.ofByte? inst.opcode = some op ∧ Operand.FitAll op.formats inst.operands
  size : code.length = inst.size
  bound : inst.size ≤ maxSize
  encode : inst.encode = .ok code
  decode : ∀ more : List UInt8, decode (code ++ more) = .ok (inst, more)

/-- An opcode byte followed by its operands is how an instruction stands. The bound on the size is
the one on the formats of its operation. -/
theorem StandAll.standsAs {opcode : UInt8} {op : Opcode} {operands : List Operand}
    {front : List UInt8} (hop : Opcode.ofByte? opcode = some op)
    (h : StandAll op.formats operands front) : StandsAs ⟨opcode, operands⟩ (opcode :: front) := by
  have hsize : (opcode :: front).length = Instruction.size ⟨opcode, operands⟩ := by
    rw [List.length_cons, h.size, Instruction.size, Nat.add_comm]
  refine ⟨⟨op, hop, h.fits⟩, hsize, ?_, ?_, ?_⟩
  · have hbound := h.bound
    have hreach := sum_maxSize_formats_le op
    rw [← hsize, List.length_cons]
    omega
  · simp only [encode, hop, h.write, bind, Except.bind, pure, Except.pure]
  · intro more
    simp only [List.cons_append, decode, hop, h.read]

/-- Whatever an instruction was read from is how that instruction stands. That decoding is undone by
encoding, that it does not look ahead and that it takes at most `maxSize` bytes are all fields of
the result. -/
theorem decode_inv {bytes rest : List UInt8} {inst : Instruction}
    (h : decode bytes = .ok (inst, rest)) :
    ∃ code, bytes = code ++ rest ∧ StandsAs inst code := by
  cases bytes with
  | nil => simp [decode] at h
  | cons opcode tail =>
      rw [decode] at h
      cases hop : Opcode.ofByte? opcode with
      | none => simp [hop] at h
      | some op =>
          cases hread : readOperands op.formats tail with
          | none => simp [hop, hread] at h
          | some found =>
              obtain ⟨operands, last⟩ := found
              simp only [hop, hread, Except.ok.injEq, Prod.mk.injEq] at h
              obtain ⟨rfl, rfl⟩ := h
              obtain ⟨front, rfl, hstands⟩ := readOperands_inv hread
              exact ⟨opcode :: front, rfl, hstands.standsAs hop⟩

/-- Decoding does not look past the instruction: what follows is left over as it is. A window may
therefore end anywhere behind an instruction. -/
theorem decode_append {bytes rest : List UInt8} {inst : Instruction}
    (h : decode bytes = .ok (inst, rest)) (more : List UInt8) :
    decode (bytes ++ more) = .ok (inst, rest ++ more) := by
  obtain ⟨code, rfl, hstands⟩ := decode_inv h
  rw [List.append_assoc, hstands.decode]

/-- An unassigned opcode is found out by its byte alone, whatever follows and however much of it is
at hand. -/
theorem decode_append_unknown {bytes : List UInt8} (h : decode bytes = .error .unknownOpcode)
    (more : List UInt8) :
    decode (bytes ++ more) = .error .unknownOpcode ∧ (bytes ++ more).headD 0 = bytes.headD 0 := by
  cases bytes with
  | nil => simp [decode] at h
  | cons opcode tail =>
      cases hop : Opcode.ofByte? opcode with
      | none => simp [decode, hop]
      | some op =>
          rw [decode, hop] at h
          cases hread : readOperands op.formats tail <;> simp [hread] at h

/-- Only a sequence shorter than the longest instruction can end inside one. This is why reading so
many bytes ahead always decides what stands there. -/
theorem length_lt_of_decode_short {bytes : List UInt8} (h : decode bytes = .error .short) :
    bytes.length < maxSize := by
  cases bytes with
  | nil => decide
  | cons opcode tail =>
      rw [decode] at h
      cases hop : Opcode.ofByte? opcode with
      | none => simp [hop] at h
      | some op =>
          cases hread : readOperands op.formats tail with
          | some found => simp [hop, hread] at h
          | none =>
              have hlt := length_lt_of_readOperands_none hread
              have hreach := sum_maxSize_formats_le op
              rw [List.length_cons]
              omega

end Instruction

end RegisterVM
