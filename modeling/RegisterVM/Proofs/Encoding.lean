import RegisterVM.Proofs.Codec

/-!
# Encodable instructions

Encoding chooses the form of an operand: a number that does not fit in seven bits and a list that is
long or has a large entry become wide whether or not that was asked for. So what is decoded again
may differ from what was encoded in the forms of its operands, and in nothing else. `Encodable` says
by the ranges of the formats which instructions can be encoded.
-/

namespace RegisterVM

namespace Operand

/-- The operand in its one-byte form. Two operands with the same one-byte form have the same
values. -/
def narrow : Operand → Operand
  | .number value _ => .number value false
  | .registers list _ => .registers list false
  | o => o

/-- The value of an operand is one that the format can hold. Words and long words can hold any. -/
def InRange (o : Operand) : Format → Prop
  | .uint | .pool => 0 ≤ o.value.toInt ∧ o.value.toInt ≤ Instruction.maxUnsigned
  | .jump => Instruction.minJump ≤ o.value.toInt ∧ o.value.toInt ≤ Instruction.maxJump
  | .registers => o.list.length ≤ 0x7FFF ∧ ∀ r ∈ o.list, 0 ≤ r.toInt ∧ r.toInt ≤ 0xFFFF
  | .int32 | .float32 | .int64 | .float64 => True

/-- What is made for a format has the shape of that format. -/
theorem fits_operandOf (value : Int32) (long : Int64) (list : List Int32) (wide : Bool)
    (f : Format) : (Instruction.operandOf value long list wide f).Fits f := by
  cases f <;> constructor

theorem fitAll_mapIdx (formats : List Format) (make : Nat → Format → Operand)
    (h : ∀ i f, (make i f).Fits f) : FitAll formats (formats.mapIdx make) := by
  induction formats generalizing make with
  | nil => exact .nil
  | cons f formats ih =>
      rw [List.mapIdx_cons]
      exact .cons (h 0 f) (ih _ fun i g => h (i + 1) g)

end Operand

namespace Instruction

/-- The instruction with every operand in its one-byte form. -/
def narrow (inst : Instruction) : Instruction :=
  { inst with operands := inst.operands.map Operand.narrow }

/-- The form of an operand does not show in its values, so whatever is read off the values of an
instruction is the same for its one-byte form. -/
theorem lookup_narrow {α : Type} {view : Operand → α}
    (hview : ∀ o : Operand, view o.narrow = view o) (inst : Instruction) (i : Nat) :
    inst.narrow.operands[i]?.map view = inst.operands[i]?.map view := by
  simp only [narrow, List.getElem?_map, Option.map_map, Function.comp_def, hview]

theorem arg_narrow (inst : Instruction) (i : Nat) : inst.narrow.arg i = inst.arg i := by
  have hvalue : ∀ o : Operand, o.narrow.value = o.value := by
    intro o
    cases o <;> rfl
  rw [arg, arg, lookup_narrow hvalue]

theorem long_narrow (inst : Instruction) (i : Nat) : inst.narrow.long i = inst.long i := by
  have hvalue : ∀ o : Operand, o.narrow.longValue = o.longValue := by
    intro o
    cases o <;> rfl
  rw [long, long, lookup_narrow hvalue]

theorem registers_narrow (inst : Instruction) : inst.narrow.registers = inst.registers := by
  have hlist : ∀ o : Operand, o.narrow.list = o.list := by
    intro o
    cases o <;> rfl
  simp only [registers, narrow, List.flatMap_map, hlist]

/-- The operands of an instruction have the shapes that its opcode calls for. -/
def Fits (inst : Instruction) : Prop := Operand.FitAll (Opcode.formatsOf inst.opcode) inst.operands

/-- The opcode is assigned, and every operand is in the range of its format. Nothing is said about
forms, since encoding widens what has to be wide. -/
def Encodable (inst : Instruction) : Prop :=
  (Opcode.ofByte? inst.opcode).isSome ∧
    List.Forall₂ (fun f (o : Operand) => o.InRange f) (Opcode.formatsOf inst.opcode) inst.operands

theorem fits_ofPositions (opcode : UInt8) (args : Nat → Int32) (longs : Nat → Int64)
    (list : List Int32) (wide : Nat → Bool) : (ofPositions opcode args longs list wide).Fits :=
  Operand.fitAll_mapIdx _ _ fun _ f => Operand.fits_operandOf _ _ _ _ f

/-! ### Single operands -/

/-- A word that is not negative is the word of its value. -/
theorem ofNat_toInt_toNat {v : Int32} (h : 0 ≤ v.toInt) : Int32.ofNat v.toInt.toNat = v := by
  rw [← toUInt32_toNat_of_nonneg h, Int.toNat_natCast, ofNat_toUInt32_toNat]

/-- The unsigned value of a word. -/
theorem toUInt32_toNat (v : Int32) : (v.toUInt32.toNat : Int) = v.toInt % 2 ^ 32 := by
  have hlt := v.toUInt32.toNat_lt
  rw [← Int32.toInt_toBitVec, BitVec.toInt_eq_toNat_cond, ← Int32.toBitVec_toUInt32,
    UInt32.toNat_toBitVec]
  split <;> omega

/-- The signed value of a jump is found again from its field of fifteen bits. -/
theorem signExtendJump_jumpField {v : Int32} (hlow : minJump ≤ v.toInt)
    (hhigh : v.toInt ≤ maxJump) : signExtendJump (jumpField v) = v := by
  have hfield : jumpField v < 0x8000 := Nat.mod_lt _ (by decide)
  have hnat := toUInt32_toNat v
  rw [minJump] at hlow
  rw [maxJump] at hhigh
  apply Int32.toInt_inj.mp
  rw [toInt_signExtendJump hfield]
  unfold jumpField
  split <;> omega

/-- A number in range is written, wide if asked for or if it takes more than seven bits. -/
theorem writeOperand_uint {o : Operand} (h : o.InRange .uint) (opcode : UInt8) (position : Nat) :
    writeOperand opcode position .uint o =
      .ok (writeVariable o.value.toInt.toNat (o.isWide || 0x80 ≤ o.value.toInt)) := by
  obtain ⟨hlow, hhigh⟩ := h
  rw [writeOperand]
  exact if_neg (by simp only [Bool.or_eq_true, decide_eq_true_eq]; omega)

/-- A jump in range is written; one that is negative is always wide. -/
theorem writeOperand_jump {o : Operand} (h : o.InRange .jump) (opcode : UInt8) (position : Nat) :
    writeOperand opcode position .jump o =
      .ok (writeVariable (jumpField o.value)
        (o.isWide || o.value.toInt < 0 || 0x80 ≤ o.value.toInt)) := by
  obtain ⟨hlow, hhigh⟩ := h
  rw [writeOperand]
  exact if_neg (by simp only [Bool.or_eq_true, decide_eq_true_eq]; omega)

/-- `front` is what the operand `o` of format `f` is written as, and reading it finds the same
operand but for its form. The position and the opcode matter for errors only, so they are free
here. -/
structure Writes (f : Format) (o : Operand) (front : List UInt8) (found : Operand) : Prop where
  stands : Stands f found front
  same : found.narrow = o.narrow
  write : ∀ (opcode : UInt8) (position : Nat), writeOperand opcode position f o = .ok front

theorem writes_uint {value : Int32} {wide : Bool} (h : (Operand.number value wide).InRange .uint) :
    ∃ front found, Writes .uint (.number value wide) front found := by
  have hlow : 0 ≤ value.toInt := h.1
  have hhigh : value.toInt ≤ 0x7FFF := h.2
  have hstands : Stands .uint _ _ := @stands_uint value.toInt.toNat (wide || 0x80 ≤ value.toInt)
    (by omega) (by simp only [Bool.or_eq_false_iff, decide_eq_false_iff_not]; omega)
  rw [ofNat_toInt_toNat hlow] at hstands
  exact ⟨_, _, hstands, rfl, writeOperand_uint h⟩

theorem writes_jump {value : Int32} {wide : Bool} (h : (Operand.number value wide).InRange .jump) :
    ∃ front found, Writes .jump (.number value wide) front found := by
  have hlow : minJump ≤ value.toInt := h.1
  have hhigh : value.toInt ≤ maxJump := h.2
  have hfield : jumpField value < 0x8000 := Nat.mod_lt _ (by decide)
  have hstands : Stands .jump _ _ :=
    @stands_jump (jumpField value) (wide || value.toInt < 0 || 0x80 ≤ value.toInt) hfield (by
      -- a jump that stays narrow is not negative, so its field is its value
      intro hnarrow
      simp only [Bool.or_eq_false_iff, decide_eq_false_iff_not] at hnarrow
      have hvalue := toUInt32_toNat_of_nonneg (Int.not_lt.mp hnarrow.1.2)
      have hle : jumpField value ≤ value.toUInt32.toNat := Nat.mod_le _ _
      omega)
  rw [signExtendJump_jumpField hlow hhigh] at hstands
  exact ⟨_, _, hstands, rfl, writeOperand_jump h⟩

theorem writes_list {list : List Int32} {wide : Bool}
    (h : (Operand.registers list wide).InRange .registers) :
    ∃ front found, Writes .registers (.registers list wide) front found := by
  obtain ⟨hlength, hentries⟩ := h
  simp only [Operand.list] at hlength hentries
  -- the form is decided as the writer decides it, not by what was asked for
  by_cases hwide : (wide || list.any (fun r => 0xFF < r.toInt) || 0x80 ≤ list.length) = true
  · refine ⟨_, _, stands_list_wide (Nat.lt_succ_of_le hlength) hentries, rfl, fun _ _ => ?_⟩
    simp only [writeOperand, Operand.list, Operand.isWide, writeList,
      if_neg (Nat.not_lt.mpr hlength), misfit?_eq_none (Int.le_refl _) hentries]
    exact if_pos hwide
  · have hsmall := hwide
    simp only [Bool.or_eq_true, List.any_eq_true, decide_eq_true_eq, not_or, not_exists, not_and]
      at hsmall
    refine ⟨_, _, stands_list_narrow (Nat.not_le.mp hsmall.2)
      fun r hr => ⟨(hentries r hr).1, Int.not_lt.mp (hsmall.1.2 r hr)⟩, rfl, fun _ _ => ?_⟩
    simp only [writeOperand, Operand.list, Operand.isWide, writeList,
      if_neg (Nat.not_lt.mpr hlength), misfit?_eq_none (Int.le_refl _) hentries]
    exact if_neg hwide

theorem writes_int32 (value : Int32) : ∃ front found, Writes .int32 (.word value) front found := by
  have hstands := stands_int32 (length_toBigEndian 4 value.toUInt32.toNat)
  have hlt := value.toUInt32.toNat_lt
  rw [bigEndian_toBigEndian, Nat.mod_eq_of_lt (by omega), ofNat_toUInt32_toNat] at hstands
  exact ⟨_, _, hstands, rfl, fun _ _ => rfl⟩

theorem writes_int64 (value : Int64) : ∃ front found, Writes .int64 (.long value) front found := by
  have hstands := stands_int64 (length_toBigEndian 8 value.toUInt64.toNat)
  have hlt := value.toUInt64.toNat_lt
  have hself : Int64.ofNat value.toUInt64.toNat = value := by
    apply Int64.toBitVec.inj
    rw [← Int64.toBitVec_toUInt64, Int64.toUInt64_ofNat', UInt64.ofNat_toNat,
      Int64.toBitVec_toUInt64]
  rw [bigEndian_toBigEndian, Nat.mod_eq_of_lt (by omega), hself] at hstands
  exact ⟨_, _, hstands, rfl, fun _ _ => rfl⟩

/-- An operand in range is written, whatever its form. There is one lemma above for each kind of
format; here they are put together. -/
theorem writes_of_inRange {f : Format} {o : Operand} (hfits : o.Fits f) (h : o.InRange f) :
    ∃ front found, Writes f o front found := by
  cases hfits with
  | uint => exact writes_uint h
  | pool =>
      obtain ⟨front, found, hwrites⟩ := writes_uint h
      exact ⟨front, found, stands_pool hwrites.stands, hwrites.same, hwrites.write⟩
  | jump => exact writes_jump h
  | registers => exact writes_list h
  | int32 value => exact writes_int32 value
  | float32 value =>
      obtain ⟨front, found, hwrites⟩ := writes_int32 value
      exact ⟨front, found, stands_float32 hwrites.stands, hwrites.same, hwrites.write⟩
  | int64 value => exact writes_int64 value
  | float64 value =>
      obtain ⟨front, found, hwrites⟩ := writes_int64 value
      exact ⟨front, found, stands_float64 hwrites.stands, hwrites.same, hwrites.write⟩

/-- Only an operand in range is written. With `writes_of_inRange` this makes `InRange` the exact
condition. -/
theorem inRange_of_writeOperand {f : Format} {o : Operand} {opcode : UInt8} {position : Nat}
    {front : List UInt8} (h : writeOperand opcode position f o = .ok front) : o.InRange f := by
  cases f with
  | uint | pool | jump =>
      simp only [writeOperand] at h
      split at h
      · cases h
      · rename_i hrange
        simp only [Bool.or_eq_true, decide_eq_true_eq, not_or, Int.not_lt] at hrange
        exact hrange
  | registers =>
      simp only [writeOperand, writeList] at h
      split at h
      · cases h
      · rename_i hlength
        split at h
        · cases h
        · rename_i hentries
          refine ⟨Nat.not_lt.mp hlength, fun r hr => ?_⟩
          have hgood := List.find?_eq_none.mp hentries r hr
          simp only [Bool.or_eq_true, decide_eq_true_eq, not_or, Int.not_lt] at hgood
          exact hgood
  | int32 | float32 | int64 | float64 => trivial

/-! ### Operand sequences -/

/-- Operands in range are written one after the other, and found again in the same order. -/
theorem writes_operands {formats : List Format} {operands : List Operand}
    (hfits : Operand.FitAll formats operands)
    (h : List.Forall₂ (fun f (o : Operand) => o.InRange f) formats operands) :
    ∃ front found, StandAll formats found front ∧
      found.map Operand.narrow = operands.map Operand.narrow ∧
      ∀ (opcode : UInt8) (position : Nat),
        writeOperands opcode position formats operands = .ok front := by
  induction hfits with
  | nil => exact ⟨_, _, standAll_nil, rfl, fun _ _ => rfl⟩
  | cons hone _ ih =>
      obtain ⟨hrange, hranges⟩ := List.forall₂_cons.mp h
      obtain ⟨front, found, hstands, hsame, hwrite⟩ := writes_of_inRange hone hrange
      obtain ⟨back, others, hstandAll, hsames, hwrites⟩ := ih hranges
      refine ⟨_, _, hstands.cons hstandAll, ?_, fun opcode position => ?_⟩
      · rw [List.map_cons, List.map_cons, hsame, hsames]
      · simp only [writeOperands, List.head?_cons, Option.getD_some, List.tail_cons, hwrite,
          hwrites, bind, Except.bind, pure, Except.pure]

theorem inRange_of_writeOperands {formats : List Format} {operands : List Operand}
    (hfits : Operand.FitAll formats operands) {opcode : UInt8} {position : Nat} {front : List UInt8}
    (h : writeOperands opcode position formats operands = .ok front) :
    List.Forall₂ (fun f (o : Operand) => o.InRange f) formats operands := by
  induction hfits generalizing position front with
  | nil => exact .nil
  | cons hone _ ih =>
      rw [writeOperands] at h
      obtain ⟨first, hfirst, h⟩ := bind_eq_ok h
      obtain ⟨back, hback, -⟩ := bind_eq_ok h
      exact .cons (inRange_of_writeOperand hfirst) (ih hback)

/-! ### Whole instructions -/

/-- An encodable instruction is encoded, and what the code is decoded to differs at most in the
forms of its operands. -/
theorem Encodable.encode {inst : Instruction} (h : inst.Encodable) (hfits : inst.Fits) :
    ∃ code found, inst.encode = .ok code ∧ StandsAs found code ∧ found.narrow = inst.narrow := by
  obtain ⟨opcode, operands⟩ := inst
  obtain ⟨hassigned, hranges⟩ := h
  obtain ⟨op, hop⟩ := Option.isSome_iff_exists.mp hassigned
  have hformats := Opcode.formatsOf_eq hop
  rw [Fits, hformats] at hfits
  rw [hformats] at hranges
  obtain ⟨front, found, hstands, hsame, hwrites⟩ := writes_operands hfits hranges
  refine ⟨opcode :: front, ⟨opcode, found⟩, ?_, hstands.standsAs hop, ?_⟩
  · simp only [Instruction.encode, hop, hwrites, bind, Except.bind, pure, Except.pure]
  · simp only [narrow, hsame]

/-- Only an encodable instruction is encoded. -/
theorem encodable_of_encode {inst : Instruction} (hfits : inst.Fits) {code : List UInt8}
    (h : inst.encode = .ok code) : inst.Encodable := by
  rw [Instruction.encode] at h
  cases hop : Opcode.ofByte? inst.opcode with
  | none => simp [hop] at h
  | some op =>
      have hformats := Opcode.formatsOf_eq hop
      simp only [hop] at h
      obtain ⟨front, hwrite, -⟩ := bind_eq_ok h
      rw [Fits, hformats] at hfits
      rw [Encodable, hop, hformats]
      exact ⟨rfl, inRange_of_writeOperands hfits hwrite⟩

end Instruction

end RegisterVM
