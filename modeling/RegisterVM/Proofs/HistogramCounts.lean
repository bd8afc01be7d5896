import RegisterVM.Proofs.Lookup
import RegisterVM.Proofs.NumberOrder
import RegisterVM.Telemetry.Instrument

/-!
# Counts of a histogram

An observation is counted in the first bucket whose bound it does not exceed and in every one above
it. The first bucket is found by bisection, which is right because the bounds are sorted: what does
not exceed a bound does not exceed a later one, also where bounds repeat, are infinite or are not
numbers (`Number.le_of_sortsBefore`). So one observation adds one to just those buckets whose bounds
it does not exceed (`buckets_observe`), and after a run of observations a bucket has counted the
observations at or below its bound (`buckets_observed`).

Counts are 64-bit words. They are the numbers counted as long as there are fewer than `2 ^ 64`
observations, and those numbers modulo `2 ^ 64` beyond.
-/

namespace RegisterVM

namespace Number

/-- The order of bounds is transitive although comparison of numbers alone is not total: what is not
a number comes before all others. -/
theorem sortsBefore_trans {a b c : UInt64} (hab : sortsBefore a b = true)
    (hbc : sortsBefore b c = true) : sortsBefore a c = true := by
  simp only [sortsBefore, Bool.or_eq_true, Bool.and_eq_true, Bool.not_eq_true',
    decide_eq_true_eq] at *
  grind

theorem sortsBefore_total (a b : UInt64) : (sortsBefore a b || sortsBefore b a) = true := by
  simp only [sortsBefore, Bool.or_eq_true, Bool.and_eq_true, Bool.not_eq_true', decide_eq_true_eq]
  grind

/-- What does not exceed a bound does not exceed one that is sorted after it. A bound that is not a
number holds nothing, so it may come first. -/
theorem le_of_sortsBefore {v a b : UInt64} (hab : sortsBefore a b = true) (hv : le v a = true) :
    le v b = true := by
  simp only [sortsBefore, le, Bool.or_eq_true, Bool.and_eq_true, Bool.not_eq_true',
    decide_eq_true_eq] at *
  grind

/-- What is sorted before another denotes no number, or one that is at most the other. -/
theorem denoted_of_sortsBefore {a b : UInt64} (h : sortsBefore a b = true) :
    denoted a = none ∨ AtMost a b := by
  rw [denoted_eq, ← le_iff_atMost]
  cases ha : isNan a with
  | true => exact .inl rfl
  | false =>
      refine .inr ?_
      simpa [sortsBefore, le, ha] using h

end Number

namespace Telemetry.Histogram

/-! ### The first bucket that holds a value -/

/-- The bounds of some buckets ascend. Equal bounds are allowed. -/
def Ascending (buckets : List Bucket) : Prop :=
  buckets.Pairwise fun b c => Number.sortsBefore b.bound c.bound = true

/-- Bisection finds the first bucket that holds a value: the buckets from there on are those whose
bounds it does not exceed. -/
theorem firstHolding_le_iff {buckets : List Bucket} (h : Ascending buckets) (value : UInt64)
    {i : Nat} (hi : i < buckets.length) :
    firstHolding buckets value ≤ i ↔ Number.le value buckets[i].bound = true := by
  rw [firstHolding, firstWhere_le_iff ?_ (Nat.zero_le i) hi, List.getElem?_eq_getElem hi]
  · rfl
  · intro i j hij hj hheld
    rw [List.getElem?_eq_getElem (by omega), Option.any_some] at hheld
    rw [List.getElem?_eq_getElem hj, Option.any_some]
    rcases Nat.lt_or_eq_of_le hij with hlt | rfl
    · exact Number.le_of_sortsBefore (List.pairwise_iff_getElem.mp h i j (by omega) hj hlt) hheld
    · exact hheld

/-! ### Observations -/

/-- A bucket after an observation. -/
def tally (value : UInt64) (b : Bucket) : Bucket :=
  if Number.le value b.bound then { b with count := b.count + 1 } else b

/-- One observation adds one to the buckets whose bounds it does not exceed. The buckets before the
one found are left alone, and none of them holds the value. -/
theorem buckets_observe {h : Histogram} (hsorted : Ascending h.buckets) (value : UInt64) :
    (h.observe value).buckets = h.buckets.map (tally value) := by
  have hbelow : ∀ b ∈ h.buckets.take (firstHolding h.buckets value), tally value b = b := by
    intro b hb
    obtain ⟨i, hi, rfl⟩ := List.mem_take_iff_getElem.mp hb
    have hheld := (firstHolding_le_iff hsorted value (show i < h.buckets.length by omega)).not
    exact if_neg (hheld.mp (by omega))
  have habove : ∀ b ∈ h.buckets.drop (firstHolding h.buckets value),
      tally value b = { b with count := b.count + 1 } := by
    intro b hb
    obtain ⟨i, hi, rfl⟩ := List.mem_drop_iff_getElem.mp hb
    exact if_pos ((firstHolding_le_iff hsorted value (by omega)).mp (by omega))
  calc (h.observe value).buckets
    _ = h.buckets.take (firstHolding h.buckets value) ++
          (h.buckets.drop (firstHolding h.buckets value)).map
            fun b => { b with count := b.count + 1 } := rfl
    _ = (h.buckets.take (firstHolding h.buckets value)).map (tally value) ++
          (h.buckets.drop (firstHolding h.buckets value)).map (tally value) := by
        rw [List.map_congr_left habove, List.map_congr_left hbelow, List.map_id']
    _ = h.buckets.map (tally value) := by rw [← List.map_append, List.take_append_drop]

/-! ### Runs of observations -/

/-- The bounds that are asked for; the default ones if none are. -/
def boundsFor (bounds : List UInt64) : List UInt64 :=
  if bounds.isEmpty then defaultBounds else bounds

/-- A histogram after some observations. -/
def observed (bounds values : List UInt64) : Histogram := values.foldl observe (ofBounds bounds)

theorem observed_append (bounds values : List UInt64) (value : UInt64) :
    observed bounds (values ++ [value]) = (observed bounds values).observe value := by
  rw [observed, List.foldl_append]
  rfl

/-- The bounds in the order of the buckets. None is dropped, not even a repeated one. -/
def sortedBounds (bounds : List UInt64) : List UInt64 :=
  (boundsFor bounds).mergeSort Number.sortsBefore

theorem pairwise_sortedBounds (bounds : List UInt64) :
    (sortedBounds bounds).Pairwise fun a b => Number.sortsBefore a b = true := by
  apply List.pairwise_mergeSort
  · intro a b c hab hbc
    exact Number.sortsBefore_trans hab hbc
  · intro a b
    exact Number.sortsBefore_total a b

/-- A bucket that has counted the observations at or below its bound. -/
def countedBelow (values : List UInt64) (bound : UInt64) : Bucket :=
  ⟨bound, UInt64.ofNat (values.countP fun v => Number.le v bound)⟩

/-- Whatever was counted, the bounds are in order. -/
theorem ascending_counted (bounds values : List UInt64) :
    Ascending ((sortedBounds bounds).map (countedBelow values)) := by
  rw [Ascending, List.pairwise_map]
  exact pairwise_sortedBounds bounds

/-- One more observation makes the count that of one more value. -/
theorem tally_countedBelow (values : List UInt64) (value bound : UInt64) :
    tally value (countedBelow values bound) = countedBelow (values ++ [value]) bound := by
  rw [countedBelow, countedBelow, List.countP_append, List.countP_singleton]
  by_cases hheld : Number.le value bound = true
  · rw [if_pos hheld, UInt64.ofNat_add]
    exact if_pos hheld
  · rw [if_neg hheld, Nat.add_zero]
    exact if_neg hheld

/-- After some observations every bucket has counted those at or below its bound. The induction is
on the observations, from the last one. -/
theorem buckets_observed (bounds values : List UInt64) :
    (observed bounds values).buckets = (sortedBounds bounds).map (countedBelow values) := by
  -- the observations are taken off from the last, so that the histogram before it is known
  induction values using List.reverseRecOn with
  | nil => rfl
  | append_singleton values value ih =>
      rw [observed_append, buckets_observe, ih, List.map_map]
      · apply List.map_congr_left
        intro bound _
        exact tally_countedBelow values value bound
      · rw [ih]
        exact ascending_counted bounds values

theorem count_observed (bounds values : List UInt64) :
    (observed bounds values).count = UInt64.ofNat values.length := by
  induction values using List.reverseRecOn with
  | nil => rfl
  | append_singleton values value ih =>
      rw [observed_append, observe, ih, List.length_append, List.length_singleton, UInt64.ofNat_add]
      rfl

/-! ### Counts as numbers -/

/-- What is counted is at most what there is, so a count is a number as long as the observations can
be counted. -/
theorem toNat_countedBelow {values : List UInt64} (hvalues : values.length < 2 ^ 64)
    (bound : UInt64) :
    (countedBelow values bound).count.toNat = values.countP fun v => Number.le v bound := by
  have hle : values.countP (fun v => Number.le v bound) ≤ values.length := List.countP_le_length
  rw [countedBelow, UInt64.toNat_ofNat']
  exact Nat.mod_eq_of_lt (Nat.lt_of_le_of_lt hle hvalues)

/-- A bucket that comes later has counted at least as much. -/
theorem count_le_of_sortsBefore {values : List UInt64} (hvalues : values.length < 2 ^ 64)
    {a b : UInt64} (hab : Number.sortsBefore a b = true) :
    (countedBelow values a).count ≤ (countedBelow values b).count := by
  rw [UInt64.le_iff_toNat_le, toNat_countedBelow hvalues, toNat_countedBelow hvalues]
  apply List.countP_mono_left
  intro v _ hv
  exact Number.le_of_sortsBefore hab hv

/-- The buckets of a histogram are cumulative, for all bounds (in any order, repeated, infinite or
not numbers; the default ones if none are given) and all observations. The bounds stand in sorted
order, what is not a number first. Each bucket has counted the observations that denote numbers at
or below the one that its bound denotes, and the whole count is that of all observations. As long as
these are fewer than a word can count, the counts are those numbers, none is greater than one after
it, and none is greater than the whole count.

All parts are read off `buckets_observed`, which gives the buckets after any observations; comparing
words is comparing what they denote (`Number.le_iff_atMost`). -/
theorem observations_cumulative (bounds values : List UInt64) :
    ((observed bounds values).buckets.map Bucket.bound).Perm (boundsFor bounds) ∧
    ((observed bounds values).buckets.map Bucket.bound).Pairwise
      (fun a b => Number.denoted a = none ∨ Number.AtMost a b) ∧
    (∀ b ∈ (observed bounds values).buckets,
      b.count = UInt64.ofNat (values.countP fun v => Number.AtMost v b.bound)) ∧
    (observed bounds values).count = UInt64.ofNat values.length ∧
    (values.length < 2 ^ 64 →
      (∀ b ∈ (observed bounds values).buckets,
        b.count.toNat = values.countP fun v => Number.AtMost v b.bound) ∧
      (observed bounds values).count.toNat = values.length ∧
      (observed bounds values).buckets.Pairwise (fun b c => b.count ≤ c.count) ∧
      ∀ b ∈ (observed bounds values).buckets, b.count ≤ (observed bounds values).count) := by
  have hbuckets := buckets_observed bounds values
  have hcount := count_observed bounds values
  generalize observed bounds values = h at *
  have hbounds : h.buckets.map Bucket.bound = sortedBounds bounds := by
    rw [hbuckets, List.map_map]
    exact List.map_id _
  have hspec (bound : UInt64) : (values.countP fun v => Number.AtMost v bound) =
      values.countP fun v => Number.le v bound := by
    simp only [← Number.le_iff_atMost, Bool.decide_eq_true]
  refine ⟨?_, ?_, ?_, hcount, fun hvalues => ?_⟩
  · rw [hbounds]
    exact List.mergeSort_perm ..
  · rw [hbounds]
    exact (pairwise_sortedBounds bounds).imp Number.denoted_of_sortsBefore
  · rw [hbuckets, List.forall_mem_map]
    intro bound _
    rw [hspec]
    rfl
  · have hwhole : h.count.toNat = values.length := by
      rw [hcount, UInt64.toNat_ofNat']
      exact Nat.mod_eq_of_lt hvalues
    refine ⟨?_, hwhole, ?_, ?_⟩
    · rw [hbuckets, List.forall_mem_map]
      intro bound _
      rw [hspec]
      exact toNat_countedBelow hvalues bound
    · rw [hbuckets, List.pairwise_map]
      exact (pairwise_sortedBounds bounds).imp (count_le_of_sortsBefore hvalues)
    · rw [hbuckets, List.forall_mem_map]
      intro bound _
      rw [UInt64.le_iff_toNat_le, hwhole, toNat_countedBelow hvalues]
      exact List.countP_le_length

/-- Bounds that are repeated, infinite, and not numbers, out of order; and the observations 1, -2,
one that is not a number, and 10 to the 21st. -/
theorem observations_cumulative_mixed :
    let bounds : List UInt64 := [0x7FF0000000000000, 0x3FF0000000000000, 0x7FF8000000000000,
      0x3FF0000000000000, 0xFFF0000000000000]
    let values : List UInt64 := [0x3FF0000000000000, 0xC000000000000000, 0x7FF8000000000000,
      0x444B1AE4D6E2EF50]
    let h := observed bounds values
    values.length < 2 ^ 64 ∧ h.count.toNat = 4 ∧
      ∀ b ∈ h.buckets,
        (b.bound = 0x7FF0000000000000 → b.count.toNat = 3) ∧
        (b.bound = 0x3FF0000000000000 → b.count.toNat = 2) ∧
        (b.bound = 0x7FF8000000000000 → b.count.toNat = 0) ∧
        (b.bound = 0xFFF0000000000000 → b.count.toNat = 0) := by
  intro bounds values h
  have hvalues : values.length < 2 ^ 64 := by decide
  obtain ⟨-, -, -, -, hexact⟩ := observations_cumulative bounds values
  obtain ⟨hcounts, hwhole, -, -⟩ := hexact hvalues
  refine ⟨hvalues, hwhole, fun b hb => ?_⟩
  rw [hcounts b hb]
  refine ⟨?_, ?_, ?_, ?_⟩ <;> intro hbound <;> rw [hbound] <;> decide

end Telemetry.Histogram

end RegisterVM
