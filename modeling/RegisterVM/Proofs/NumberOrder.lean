import RegisterVM.Number.Order
import Mathlib

/-!
# The numbers that patterns denote

A 64-bit pattern denotes a rational number, one of the infinities, or nothing. Comparing patterns by
their keys is comparing what they denote: the bits below the sign count the numbers of the format
upwards from zero, so they are in the order of the magnitudes (`scaled_lt_scaled`).
-/

namespace RegisterVM.Number

/-- A magnitude as a rational number. All finite patterns denote rational numbers, so no other
numbers are needed. -/
def Magnitude.value (m : Magnitude) : ℚ := m.mantissa * 2 ^ m.exponent

/-- A value with its sign. -/
def signed {α : Type} [Neg α] (negative : Bool) (x : α) : α := if negative then -x else x

/-- The number that a meaning stands for, on the line of the rational numbers with both its ends.
Both zeros stand for one number. -/
def Binary.number? : Binary → Option (WithBot (WithTop ℚ))
  | .nan => none
  | .infinite negative => some (if negative then ⊥ else ⊤)
  | .finite negative m => some ((signed negative m.value : ℚ) : WithTop ℚ)

/-- The number that a 64-bit pattern denotes. -/
def denoted (bits : UInt64) : Option (WithBot (WithTop ℚ)) := (binary64.classify bits.toNat).number?

/-- Two patterns denote numbers, and the first is at most the second. What is not a number is not at
most anything, not even itself. -/
def AtMost (a b : UInt64) : Prop := ∃ x ∈ denoted a, ∃ y ∈ denoted b, x ≤ y

/-! ### Magnitudes by their bits -/

/-- The magnitude that the bits below the sign stand for, in units of the smallest number. With
exponent zero there is no leading bit, which is why there are two cases. -/
def scaled (bits : Nat) : Nat :=
  if bits / 2 ^ 52 = 0 then bits else (2 ^ 52 + bits % 2 ^ 52) * 2 ^ (bits / 2 ^ 52 - 1)

/-- The bits below the sign count the magnitudes upwards. Within one exponent the fraction decides;
the largest fraction of one exponent stays below the smallest of the next. -/
theorem scaled_lt_scaled {a b : Nat} (h : a < b) : scaled a < scaled b := by
  have ha := Nat.mod_lt a (show 2 ^ 52 > 0 by decide)
  have hsplit (n : Nat) := Nat.div_add_mod n (2 ^ 52)
  unfold scaled
  by_cases hb : b / 2 ^ 52 = 0
  · rw [if_pos hb, if_pos (by omega)]
    exact h
  · rw [if_neg hb]
    -- the larger magnitude has at least the lowest of its exponent
    have hfloor : 2 ^ 52 * 2 ^ (b / 2 ^ 52 - 1) ≤ (2 ^ 52 + b % 2 ^ 52) * 2 ^ (b / 2 ^ 52 - 1) :=
      Nat.mul_le_mul_right _ (Nat.le_add_right ..)
    by_cases hazero : a / 2 ^ 52 = 0
    · rw [if_pos hazero]
      have hone : 1 ≤ 2 ^ (b / 2 ^ 52 - 1) := Nat.one_le_two_pow
      omega
    · rw [if_neg hazero]
      by_cases hexp : a / 2 ^ 52 = b / 2 ^ 52
      · rw [hexp]
        refine Nat.mul_lt_mul_of_pos_right ?_ (Nat.two_pow_pos _)
        have hsplita := hsplit a
        have hsplitb := hsplit b
        rw [hexp] at hsplita
        omega
      · calc (2 ^ 52 + a % 2 ^ 52) * 2 ^ (a / 2 ^ 52 - 1)
          _ < 2 ^ 53 * 2 ^ (a / 2 ^ 52 - 1) :=
            Nat.mul_lt_mul_of_pos_right (by omega) (Nat.two_pow_pos _)
          _ = 2 ^ 52 * 2 ^ (a / 2 ^ 52 - 1 + 1) := by rw [Nat.pow_succ 2 (a / 2 ^ 52 - 1)]; omega
          _ ≤ 2 ^ 52 * 2 ^ (b / 2 ^ 52 - 1) :=
            Nat.mul_le_mul_left _ (Nat.pow_le_pow_right (by decide) (by omega))
          _ ≤ (2 ^ 52 + b % 2 ^ 52) * 2 ^ (b / 2 ^ 52 - 1) := hfloor

/-! ### Patterns by their keys -/

/-- The key of the infinity above all numbers. -/
def keyLimit : Int := 0x7FF0000000000000

/-- The number that a key stands for, in units of the smallest number. -/
def scaledKey (key : Int) : Int := signed (key < 0) (scaled key.natAbs : Int)

/-- Keys are in the order of their numbers, on both sides of zero. -/
theorem strictMono_scaledKey : StrictMono scaledKey := by
  intro a b h
  have hmono (hab : a.natAbs < b.natAbs) := scaled_lt_scaled hab
  have hanti (hba : b.natAbs < a.natAbs) := scaled_lt_scaled hba
  have hpos (ha : 0 < a.natAbs) := scaled_lt_scaled ha
  unfold scaledKey signed
  simp only [decide_eq_true_eq]
  split <;> split <;> omega

/-- The place of a key on the line of numbers. The two keys at the ends are those of the
infinities. -/
def place (key : Int) : WithBot (WithTop ℚ) :=
  if key = keyLimit then ⊤
  else if key = -keyLimit then ⊥
  else (((scaledKey key * 2 ^ (-1074 : Int) : ℚ) : WithTop ℚ) : WithBot (WithTop ℚ))

/-- Between the infinities, keys are in the order of their places. -/
theorem strictMonoOn_place : StrictMonoOn place (Set.Icc (-keyLimit) keyLimit) := by
  rintro a ⟨halow, -⟩ b ⟨-, hbhigh⟩ h
  have ha : a ≠ keyLimit := by omega
  have hb : b ≠ -keyLimit := by omega
  unfold place
  rw [if_neg ha, if_neg hb]
  by_cases hab : a = -keyLimit
  · rw [if_pos hab]
    split
    · exact bot_lt_top
    · exact WithBot.bot_lt_coe _
  · rw [if_neg hab]
    split
    · exact WithBot.coe_lt_coe.mpr (WithTop.coe_lt_top _)
    · rw [WithBot.coe_lt_coe, WithTop.coe_lt_coe]
      exact mul_lt_mul_of_pos_right (Int.cast_lt.mpr (strictMono_scaledKey h)) (by positivity)

/-- The key of a pattern that is a number lies between those of the infinities. -/
theorem orderKey_mem {bits : UInt64} (h : isNan bits = false) :
    orderKey bits ∈ Set.Icc (-keyLimit) keyLimit := by
  simp only [isNan, decide_eq_false_iff_not, Nat.not_lt] at h
  simp only [orderKey, keyLimit, Set.mem_Icc]
  split <;> omega

/-- The meaning of a pattern by its sign and the bits below it. It is the only place that opens the
format. -/
theorem classify_cases {n : Nat} (hn : n < 2 ^ 64) :
    (2047 * 2 ^ 52 < n % 2 ^ 63 ∧ binary64.classify n = .nan) ∨
    (n % 2 ^ 63 = 2047 * 2 ^ 52 ∧ binary64.classify n = .infinite (2 ^ 63 ≤ n)) ∨
    (n % 2 ^ 63 < 2047 * 2 ^ 52 ∧ ∃ m, binary64.classify n = .finite (2 ^ 63 ≤ n) m ∧
      m.value = scaled (n % 2 ^ 63) * 2 ^ (-1074 : Int)) := by
  have hfraction : n % Nat.pow 2 52 = n % 2 ^ 63 % 2 ^ 52 := by
    show n % 2 ^ 52 = _
    omega
  have hbiased : n / Nat.pow 2 52 % Nat.pow 2 11 = n % 2 ^ 63 / 2 ^ 52 := by
    show n / 2 ^ 52 % 2 ^ 11 = _
    omega
  have hnegative : decide (n / Nat.pow 2 63 % 2 = 1) = decide (2 ^ 63 ≤ n) := by
    refine decide_eq_decide.mpr ?_
    show n / 2 ^ 63 % 2 = 1 ↔ _
    omega
  have hleast : binary64.leastExponent = -1074 := rfl
  have hclassify : binary64.classify n = if n % 2 ^ 63 / 2 ^ 52 = 2047 then
      if n % 2 ^ 63 % 2 ^ 52 = 0 then .infinite (2 ^ 63 ≤ n) else .nan
    else if n % 2 ^ 63 / 2 ^ 52 = 0 then .finite (2 ^ 63 ≤ n) ⟨n % 2 ^ 63 % 2 ^ 52, -1074, false⟩
    else .finite (2 ^ 63 ≤ n)
      ⟨2 ^ 52 + n % 2 ^ 63 % 2 ^ 52, -1074 + (n % 2 ^ 63 / 2 ^ 52 - 1 : Nat),
      n % 2 ^ 63 % 2 ^ 52 = 0 && 1 < n % 2 ^ 63 / 2 ^ 52⟩ := by
    rw [← hfraction, ← hbiased, ← hnegative, ← hleast]
    rfl
  have hlow : n % 2 ^ 63 < 2 ^ 63 := Nat.mod_lt _ (by decide)
  generalize n % 2 ^ 63 = low at hclassify hlow ⊢
  rw [hclassify]
  by_cases hall : low / 2 ^ 52 = 2047
  · rw [if_pos hall]
    by_cases hzero : low % 2 ^ 52 = 0
    · exact .inr (.inl ⟨by omega, if_pos hzero⟩)
    · exact .inl ⟨by omega, if_neg hzero⟩
  · rw [if_neg hall]
    refine .inr (.inr ⟨by omega, ?_⟩)
    by_cases hsmall : low / 2 ^ 52 = 0
    · refine ⟨_, if_pos hsmall, ?_⟩
      rw [Magnitude.value, scaled, if_pos hsmall, Nat.mod_eq_of_lt (by omega)]
    · refine ⟨_, if_neg hsmall, ?_⟩
      rw [Magnitude.value, scaled, if_neg hsmall, zpow_add₀ two_ne_zero, zpow_natCast, Nat.cast_mul,
        Nat.cast_pow, Nat.cast_two, mul_assoc, mul_comm (2 ^ (-1074 : Int) : ℚ)]

/-- The key of a pattern is its bits below the sign, with that sign. Both zeros have key zero. -/
theorem orderKey_eq (bits : UInt64) :
    orderKey bits = signed (2 ^ 63 ≤ bits.toNat) ((bits.toNat % 2 ^ 63 : Nat) : Int) := by
  simp only [orderKey, signed, decide_eq_true_eq]
  split <;> split <;> omega

theorem scaledKey_signed (negative : Bool) (n : Nat) :
    scaledKey (signed negative (n : Int)) = signed negative (scaled n : Int) := by
  have hzero : scaled 0 = 0 := rfl
  rcases Nat.eq_zero_or_pos n with rfl | hn
  · cases negative <;> simp [scaledKey, signed, hzero]
  · cases negative <;> simp [scaledKey, signed, hn]

/-- A pattern that is a number denotes the number of its key. -/
theorem denoted_eq (bits : UInt64) :
    denoted bits = if isNan bits then none else some (place (orderKey bits)) := by
  have hnan : isNan bits = decide (2047 * 2 ^ 52 < bits.toNat % 2 ^ 63) := rfl
  rw [denoted, hnan, orderKey_eq]
  obtain ⟨hlow, hclass⟩ | ⟨hlow, hclass⟩ | ⟨hlow, m, hclass, hvalue⟩ := classify_cases bits.toNat_lt
  · rw [hclass, decide_eq_true hlow]
    rfl
  · rw [hclass, hlow, Binary.number?, place]
    cases decide (2 ^ 63 ≤ bits.toNat) <;> rfl
  · have hfinite : signed (2 ^ 63 ≤ bits.toNat) ((bits.toNat % 2 ^ 63 : Nat) : Int) ≠ keyLimit ∧
        signed (2 ^ 63 ≤ bits.toNat) ((bits.toNat % 2 ^ 63 : Nat) : Int) ≠ -keyLimit := by
      simp only [signed, keyLimit]
      split <;> omega
    have hnumber : ¬ 2047 * 2 ^ 52 < bits.toNat % 2 ^ 63 := Nat.lt_asymm hlow
    rw [hclass, decide_eq_false hnumber, if_neg Bool.false_ne_true, Binary.number?, place,
      if_neg hfinite.1, if_neg hfinite.2, scaledKey_signed, hvalue]
    cases decide (2 ^ 63 ≤ bits.toNat) <;> simp [signed]

/-- Patterns compare as the numbers that they denote. -/
theorem le_iff_atMost {a b : UInt64} : le a b = true ↔ AtMost a b := by
  simp only [le, AtMost, denoted_eq, Bool.and_eq_true, Bool.not_eq_true', decide_eq_true_eq]
  cases ha : isNan a with
  | true => simp
  | false =>
      cases hb : isNan b with
      | true => simp
      | false =>
          simpa using (strictMonoOn_place.le_iff_le (orderKey_mem ha) (orderKey_mem hb)).symm

instance : DecidableRel AtMost := fun _ _ => decidable_of_iff _ le_iff_atMost

end RegisterVM.Number
