import RegisterVM.Proofs.CompletedStep
import RegisterVM.Proofs.Encoding

/-!
# Integer arithmetic over the integers

`MathOp.Yields` says over the mathematical integers what each of the sixteen operations yields, and
`apply` yields just that. Sums, differences, products and negatives are exact and then reduced to
signed 32 bits. Division truncates toward zero; it overflows at a single pair of operands, where the
quotient wraps around like every other result while the remainder is zero. Shifts are by the residue
of their count modulo 32, also of a negative one.

An instruction has its second operand in a register or in itself. Either way the operands are all
that its result depends on.
-/

namespace RegisterVM

namespace MathOp

/-- By how much a count shifts. The residue modulo 32 is never negative, so a negative count shifts,
too. -/
def shiftCount (b : Int) : Nat := (b % 32).toNat

/-- The integer that an operation yields from two integers, with results of 32 bits. No machine word
occurs in it, so it can be read as the specification of the sixteen operations. -/
def Yields (op : MathOp) (a b v : Int) : Prop :=
  match op with
  | .add => v = (a + b).bmod (2 ^ 32)
  | .sub => v = (a - b).bmod (2 ^ 32)
  | .mul => v = (a * b).bmod (2 ^ 32)
  | .neg => v = (-a).bmod (2 ^ 32)
  | .div => v = (a.tdiv b).bmod (2 ^ 32)
  | .rem => v = a - a.tdiv b * b
  | .shl => v = (a * 2 ^ shiftCount b).bmod (2 ^ 32)
  | .shr => v = a.fdiv (2 ^ shiftCount b)
  | .ushr => v = ((a % 2 ^ 32).fdiv (2 ^ shiftCount b)).bmod (2 ^ 32)
  | .and => ∀ i, v.testBit i = (a.testBit i && b.testBit i)
  | .or => ∀ i, v.testBit i = (a.testBit i || b.testBit i)
  | .xor => ∀ i, v.testBit i = (a.testBit i ^^ b.testBit i)
  | .cmpl | .cmpg => v = (a - b).sign
  | .signByte => v = a.bmod (2 ^ 8)
  | .signHalf => v = a.bmod (2 ^ 16)

/-! ### Shifts -/

/-- Masking a count with 31 takes its residue modulo 32, also where the count is negative. -/
theorem toNat_and_thirtyOne (b : Int32) : (b.toUInt32 &&& 31).toNat = shiftCount b.toInt := by
  have hword := Instruction.toUInt32_toNat b
  have hmask : (b.toUInt32 &&& 31).toNat = b.toUInt32.toNat % 2 ^ 5 := by
    rw [UInt32.toNat_and]
    exact Nat.and_two_pow_sub_one_eq_mod _ 5
  rw [hmask, shiftCount]
  omega

/-- The count of a signed shift is taken modulo 32 once more, which changes nothing. -/
theorem toNat_smod_thirtyTwo (b : Int32) :
    ((b &&& 31).toBitVec.smod 32).toNat = shiftCount b.toInt := by
  have hcount : (b &&& 31).toBitVec.toNat = shiftCount b.toInt := toNat_and_thirtyOne b
  have hlt : shiftCount b.toInt < 32 := by
    unfold shiftCount
    omega
  have hmsb : (b &&& 31).toBitVec.msb = false := by
    rw [BitVec.msb_eq_false_iff_two_mul_lt, hcount]
    omega
  have hunsigned : (b &&& 31).toBitVec.smod 32 = (b &&& 31).toBitVec.umod 32 := by
    rw [BitVec.smod_eq, hmsb]
    rfl
  rw [hunsigned]
  show (b &&& 31).toBitVec.toNat % 32 = shiftCount b.toInt
  rw [hcount, Nat.mod_eq_of_lt hlt]

theorem toInt_shl (a b : Int32) :
    (a <<< (b &&& 31)).toInt = (a.toInt * 2 ^ shiftCount b.toInt).bmod (2 ^ 32) := by
  have ha : a.toInt = (a.toBitVec.toNat : Int).bmod (2 ^ 32) :=
    BitVec.toInt_eq_toNat_bmod a.toBitVec
  rw [← Int32.toInt_toBitVec (a <<< _), Int32.toBitVec_shiftLeft, BitVec.shiftLeft_eq',
    toNat_smod_thirtyTwo, BitVec.toInt_shiftLeft, Nat.shiftLeft_eq, Nat.cast_mul, ha,
    Int.bmod_mul_bmod]
  push_cast
  rfl

theorem toInt_shr (a b : Int32) :
    (a >>> (b &&& 31)).toInt = a.toInt.fdiv (2 ^ shiftCount b.toInt) := by
  rw [← Int32.toInt_toBitVec (a >>> _), Int32.toBitVec_shiftRight, BitVec.sshiftRight',
    toNat_smod_thirtyTwo, BitVec.toInt_sshiftRight, Int.shiftRight_eq_div_pow, Int32.toInt_toBitVec,
    Int.fdiv_eq_ediv_of_nonneg _ (by positivity)]
  push_cast
  rfl

theorem toInt_toInt32 (u : UInt32) : u.toInt32.toInt = (u.toNat : Int).bmod (2 ^ 32) :=
  BitVec.toInt_eq_toNat_bmod u.toBitVec

theorem toInt_ushr (a b : Int32) :
    (a.toUInt32 >>> (b.toUInt32 &&& 31)).toInt32.toInt =
      ((a.toInt % 2 ^ 32).fdiv (2 ^ shiftCount b.toInt)).bmod (2 ^ 32) := by
  have hlt : shiftCount b.toInt < 32 := by
    unfold shiftCount
    omega
  rw [toInt_toInt32, UInt32.toNat_shiftRight, toNat_and_thirtyOne, Nat.mod_eq_of_lt hlt,
    Nat.shiftRight_eq_div_pow, ← Instruction.toUInt32_toNat,
    Int.fdiv_eq_ediv_of_nonneg _ (by positivity)]
  push_cast
  rfl

/-! ### Bits -/

/-- The bits of a signed word go on with its sign. -/
theorem testBit_toInt (a : Int32) (i : Nat) :
    a.toInt.testBit i = if i < 32 then a.toBitVec.getLsbD i else a.toBitVec.msb := by
  have hlt := a.toBitVec.isLt
  rw [← Int32.toInt_toBitVec, BitVec.toInt_eq_msb_cond]
  cases hmsb : a.toBitVec.msb with
  | false =>
      show a.toBitVec.toNat.testBit i = _
      split
      · rfl
      · rename_i hi
        exact BitVec.getLsbD_of_ge a.toBitVec i (by omega)
  | true =>
      -- A negative integer has the complements of the bits of a natural number.
      have hneg : (a.toBitVec.toNat : Int) - ((2 ^ 32 : Nat) : Int) =
          Int.negSucc (2 ^ 32 - (a.toBitVec.toNat + 1)) := by
        rw [Int.negSucc_eq]
        omega
      rw [if_pos rfl, hneg]
      show (!(2 ^ 32 - (a.toBitVec.toNat + 1)).testBit i) = _
      rw [Nat.testBit_two_pow_sub_succ hlt]
      by_cases hi : i < 32
      · simp [hi, BitVec.getLsbD]
      · simp [hi]

/-! ### Comparison -/

theorem toInt_compare (a b : Int32) :
    (if a < b then -1 else if a = b then 0 else 1 : Int32).toInt = (a.toInt - b.toInt).sign := by
  rcases Int.lt_trichotomy a.toInt b.toInt with hlt | heq | hgt
  · rw [if_pos (Int32.lt_iff_toInt_lt.mpr hlt), Int.sign_eq_neg_one_of_neg (by omega)]
    rfl
  · obtain rfl := Int32.toInt_inj.mp heq
    rw [if_neg Int32.lt_irrefl, if_pos rfl, Int.sub_self]
    rfl
  · have hnot : ¬ a < b := by
      rw [Int32.lt_iff_toInt_lt]
      omega
    have hne : a ≠ b := by
      rintro rfl
      omega
    rw [if_neg hnot, if_neg hne, Int.sign_eq_one_of_pos (by omega)]
    rfl

/-! ### Every operation -/

/-- Nothing but a division by zero is without a result. Overflow is a result like any other. -/
theorem apply_eq_none_iff {op : MathOp} {a b : Int32} :
    op.apply a b = none ↔ (op = .div ∨ op = .rem) ∧ b = 0 := by
  cases op <;> simp [apply]

/-- A result is what the integers yield. One case for each operation; those that are not a lemma on
machine words are proved above. -/
theorem yields_of_apply {op : MathOp} {a b v : Int32} (h : op.apply a b = some v) :
    op.Yields a.toInt b.toInt v.toInt := by
  cases op with
  | add => exact Option.some.inj h ▸ Int32.toInt_add a b
  | sub => exact Option.some.inj h ▸ Int32.toInt_sub a b
  | mul => exact Option.some.inj h ▸ Int32.toInt_mul a b
  | neg => exact Option.some.inj h ▸ Int32.toInt_neg a
  | div =>
      rw [apply] at h
      split at h
      · cases h
      · exact Option.some.inj h ▸ Int32.toInt_div a b
  | rem =>
      rw [apply] at h
      split at h
      · cases h
      · obtain rfl := Option.some.inj h
        rw [Yields, Int32.toInt_mod, Int.tmod_def, Int.mul_comm]
  | shl => exact Option.some.inj h ▸ toInt_shl a b
  | shr => exact Option.some.inj h ▸ toInt_shr a b
  | ushr => exact Option.some.inj h ▸ toInt_ushr a b
  | and | or | xor =>
      obtain rfl := Option.some.inj h
      intro i
      rw [testBit_toInt, testBit_toInt, testBit_toInt]
      split <;> simp
  | cmpl | cmpg => exact Option.some.inj h ▸ toInt_compare a b
  | signByte =>
      obtain rfl := Option.some.inj h
      rw [Yields, Int8.toInt_toInt32, Int32.toInt_toInt8]
  | signHalf =>
      obtain rfl := Option.some.inj h
      rw [Yields, Int16.toInt_toInt32, Int32.toInt_toInt16]

/-! ### Division -/

/-- What ties the quotient `q` and the remainder `r` of two words together. The first part is a
congruence and not an equation, because the quotient can overflow. -/
structure Division (a b q r : Int32) : Prop where
  restores : q.toInt * b.toInt + r.toInt ≡ a.toInt [ZMOD 2 ^ 32]
  small : |r.toInt| < |b.toInt|
  sign : r.toInt = 0 ∨ r.toInt.sign = a.toInt.sign

/-- A quotient that overflows is off by a multiple of the modulus, and so is its product with the
divisor; the remainder never overflows. Quotient and remainder are those of truncating division on
the integers, so sign and size follow from there. -/
theorem division_of_ne_zero {a b : Int32} (hb : b ≠ 0) : Division a b (a / b) (a % b) where
  restores := by
    have hquotient : (a / b).toInt ≡ a.toInt.tdiv b.toInt [ZMOD 2 ^ 32] := by
      rw [Int32.toInt_div]
      exact Int.bmod_emod
    calc (a / b).toInt * b.toInt + (a % b).toInt
      _ ≡ a.toInt.tdiv b.toInt * b.toInt + (a % b).toInt [ZMOD 2 ^ 32] :=
        (hquotient.mul_right _).add_right _
      _ = a.toInt := by
        rw [Int32.toInt_mod]
        exact Int.tdiv_mul_add_tmod a.toInt b.toInt
  small := by
    have hpos : 0 < b.toInt.natAbs := by
      rw [Int.natAbs_pos, ← Int32.toInt_zero]
      exact fun h => hb (Int32.toInt_inj.mp h)
    rw [Int32.toInt_mod, Int.abs_eq_natAbs, Int.abs_eq_natAbs, Int.natAbs_tmod]
    exact_mod_cast Nat.mod_lt _ hpos
  sign := by
    rw [Int32.toInt_mod, ← Int.sign_eq_zero_iff_zero, Int.sign_tmod]
    by_cases hdvd : b.toInt ∣ a.toInt
    · exact .inl (if_pos hdvd)
    · exact .inr (if_neg hdvd)

/-- A divisor of minus one may be told apart before anything is divided: the quotient is the
negative of the dividend, also where it overflows, and the remainder is zero. -/
theorem apply_neg_one (a : Int32) :
    MathOp.div.apply a (-1) = some (-a) ∧ MathOp.rem.apply a (-1) = some 0 := by
  have hone : (-1 : Int32).toInt = -1 := rfl
  have hquotient : a / -1 = -a := by
    rw [← Int32.toInt_inj, Int32.toInt_div, hone, Int.tdiv_neg, Int.tdiv_one, Int32.toInt_neg]
  have hremainder : a % -1 = 0 := by
    rw [← Int32.toInt_inj, Int32.toInt_mod, hone, Int.tmod_neg, Int.tmod_one, Int32.toInt_zero]
  exact ⟨congrArg some hquotient, congrArg some hremainder⟩

end MathOp

/-! ### Instructions -/

/-- In a frame, an instruction asks for an operation on two values, with the result in a register.
The second value is in a register too, or it is a constant of the instruction. -/
inductive Instruction.AsksFor (f : Frame) (op : MathOp) (a b : Int32) (dest : Register) :
    Instruction → Prop
  | registers {opcode : UInt8} {x y z : Int32} {left right : Register} (wx wy wz : Bool)
      (hop : Opcode.ofByte? opcode = some (.math .integer op)) (hx : namedRegister x = .ok left)
      (hy : namedRegister y = .ok right) (hz : namedRegister z = .ok dest) (ha : f.get left = a)
      (hb : f.get right = b) :
      AsksFor f op a b dest ⟨opcode, [.number x wx, .number y wy, .number z wz]⟩
  | constant {opcode : UInt8} {x z : Int32} {left : Register} (wx wz : Bool)
      (hop : Opcode.ofByte? opcode = some (.mathConst .integer op))
      (hx : namedRegister x = .ok left) (hz : namedRegister z = .ok dest) (ha : f.get left = a) :
      AsksFor f op a b dest ⟨opcode, [.number x wx, .word b, .number z wz]⟩

theorem Instruction.AsksFor.operation {f : Frame} {op : MathOp} {a b : Int32} {dest : Register}
    {inst : Instruction} (h : inst.AsksFor f op a b dest) :
    ∃ left right, Operation.ofInstruction inst = .ok (.math op left right dest) ∧
      f.get left = a ∧ f.source right = b := by
  cases h with
  | @registers _ _ _ _ left right _ _ _ hop hx hy hz ha hb =>
      refine ⟨left, .register right, ?_, ha, hb⟩
      simp only [Operation.ofInstruction, hop, hx, hy, hz, ok_bind, pure, Except.pure]
  | @constant _ _ _ left _ _ hop hx hz ha =>
      refine ⟨left, .constant b, ?_, ha, rfl⟩
      simp only [Operation.ofInstruction, hop, hx, hz, ok_bind, pure, Except.pure]

/-- What executing an instruction does with a result: it goes into a register, and execution goes on
after the instruction. Without a result the instruction faults as a division by zero, and frames and
memory stay as they are. -/
def Processor.Delivers (p : Processor) (m : Memory) (f : Frame) (rest : List Frame)
    (inst : Instruction) (dest : Register) (result : Option Int32) : Prop :=
  result.elim
    ((p.execute m inst).1.frames = f :: rest ∧
      (p.execute m inst).2 = (m, some ⟨.divisionByZero, f.pc, inst.opcode, 0⟩))
    fun v =>
      (p.execute m inst).1.frames =
          { f.set dest v with pc := f.pc + UInt32.ofNat inst.size } :: rest ∧
        (p.execute m inst).2 = (m, none)

/-- An instruction delivers what its operation makes of the values that it asks for. The two forms
of an instruction differ in where the second value comes from, and not after that. -/
theorem Processor.delivers_of_asksFor {p : Processor} {f : Frame} {rest : List Frame}
    (hframes : p.frames = f :: rest) (m : Memory) {op : MathOp} {a b : Int32} {dest : Register}
    {inst : Instruction} (h : inst.AsksFor f op a b dest) :
    p.Delivers m f rest inst dest (op.apply a b) := by
  obtain ⟨left, right, hasked, ha, hb⟩ := h.operation
  cases hresult : op.apply a b with
  | none =>
      have hrefused : (Operation.math op left right dest).effect f m
        (f.pc + UInt32.ofNat inst.size) =
          .error (.divisionByZero, 0) := by
        simp only [Operation.effect, ha, hb, hresult]
      obtain ⟨traps, hnote⟩ := p.noteFault_eq ⟨.divisionByZero, f.pc, inst.opcode, 0⟩
      rw [Delivers, Option.elim, execute_of_refusal hframes hasked hrefused, hnote]
      exact ⟨hframes, rfl⟩
  | some v =>
      have heffect : (Operation.math op left right dest).effect f m
        (f.pc + UInt32.ofNat inst.size) =
          .ok { registers := [(dest, v)], flow := .goto (f.pc + UInt32.ofNat inst.size) } := by
        simp only [Operation.effect, ha, hb, hresult]
      rw [Delivers, Option.elim, execute_of_effect hframes hasked heffect]
      exact ⟨frames_commit_goto hframes rfl, rfl⟩

/-- Integer arithmetic is that of the integers. For any two words each operation has a result,
except that division and remainder have none at zero, and the result is what the integers yield.
Quotient and remainder restore the dividend modulo 2^32, and the remainder is smaller than the
divisor and has the sign of the dividend; by minus one they are the negative and zero. An
instruction delivers the result of its operand values, whichever form it has, and faults as a
division by zero where there is none. -/
theorem integer_arithmetic_exact (a b : Int32) :
    (∀ op : MathOp, op.apply a b = none ↔ (op = .div ∨ op = .rem) ∧ b = 0) ∧
    (∀ (op : MathOp) (v : Int32), op.apply a b = some v → op.Yields a.toInt b.toInt v.toInt) ∧
    (b ≠ 0 → ∃ q r, MathOp.div.apply a b = some q ∧ MathOp.rem.apply a b = some r ∧
      MathOp.Division a b q r) ∧
    (MathOp.div.apply a (-1) = some (-a) ∧ MathOp.rem.apply a (-1) = some 0) ∧
    ∀ (p : Processor) (m : Memory) (f : Frame) (rest : List Frame), p.frames = f :: rest →
      ∀ (op : MathOp) (dest : Register) (inst : Instruction), inst.AsksFor f op a b dest →
        p.Delivers m f rest inst dest (op.apply a b) := by
  refine ⟨?_, ?_, ?_, MathOp.apply_neg_one a, ?_⟩
  · intro op
    exact MathOp.apply_eq_none_iff
  · intro op v h
    exact MathOp.yields_of_apply h
  · intro hb
    exact ⟨a / b, a % b, if_neg hb, if_neg hb, MathOp.division_of_ne_zero hb⟩
  · intro p m f rest hframes op dest inst h
    exact p.delivers_of_asksFor hframes m h

/-- A frame that was given the one pair of operands at which a quotient overflows. -/
def overflowing : Frame := .enter none 0 [Int32.minValue, -1] none

theorem integer_arithmetic_exact_overflowing :
    let p : Processor := { cache := .ofOptions 0 0, frames := [overflowing] }
    let m : Memory := .map []
    let registers : Instruction := ⟨0x03, [.number 12 false, .number 13 false, .number 14 false]⟩
    let constant : Instruction := ⟨0x83, [.number 12 false, .word (-1), .number 14 false]⟩
    registers.AsksFor overflowing .div Int32.minValue (-1) 14 ∧
      constant.AsksFor overflowing .div Int32.minValue (-1) 14 ∧
      MathOp.Yields .div Int32.minValue.toInt (-1) Int32.minValue.toInt ∧
      MathOp.Division Int32.minValue (-1) Int32.minValue 0 ∧
      p.Delivers m overflowing [] registers 14 (some Int32.minValue) ∧
      p.Delivers m overflowing [] constant 14 (some Int32.minValue) := by
  obtain ⟨-, hyields, hdivision, ⟨hnegated, hremainder⟩, hdelivers⟩ :=
    integer_arithmetic_exact Int32.minValue (-1)
  have hquotient : MathOp.div.apply Int32.minValue (-1) = some Int32.minValue := hnegated
  intro p m registers constant
  have hregisters : registers.AsksFor overflowing .div Int32.minValue (-1) 14 :=
    .registers false false false (by decide) rfl rfl rfl (by decide) (by decide)
  have hconstant : constant.AsksFor overflowing .div Int32.minValue (-1) 14 :=
    .constant false false (by decide) rfl rfl (by decide)
  refine ⟨hregisters, hconstant, hyields .div _ hquotient, ?_, ?_, ?_⟩
  · obtain ⟨q, r, hq, hr, h⟩ := hdivision (by decide)
    rw [hquotient] at hq
    rw [hremainder] at hr
    rwa [← Option.some.inj hq, ← Option.some.inj hr] at h
  · rw [← hquotient]
    exact hdelivers p m overflowing [] rfl .div _ _ hregisters
  · rw [← hquotient]
    exact hdelivers p m overflowing [] rfl .div _ _ hconstant

end RegisterVM
