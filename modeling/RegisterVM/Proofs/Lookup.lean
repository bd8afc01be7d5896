import Mathlib
import RegisterVM.Bisection

/-!
# Finding and replacing entries

Several parts of the library keep a finite map as a list of keys with their values: labels, the
chunks of a window, kept headers, the records of a store. A look-up takes the first entry of a key,
so where no key comes twice it finds the only one. Others keep entries in order and bisect, or
replace the entry at one place of an array.
-/

/-! ### Arrays -/

section

variable {α : Type} {xs : Array α} {i : Nat} {x : α}

theorem Array.setIfInBounds_eq_self (h : xs[i]? = some x) : xs.setIfInBounds i x = xs := by
  apply Array.ext_getElem?
  intro j
  rw [Array.getElem?_setIfInBounds]
  split
  · rename_i hij
    subst hij
    rw [if_pos (Array.getElem?_eq_some_iff.mp h).1, h]
  · rfl

theorem Array.modify_eq_setIfInBounds (h : xs[i]? = some x) (f : α → α) :
    xs.modify i f = xs.setIfInBounds i (f x) := by
  obtain ⟨hi, rfl⟩ := Array.getElem?_eq_some_iff.mp h
  apply Array.ext_getElem?
  intro j
  rw [Array.getElem?_modify, Array.getElem?_setIfInBounds]
  by_cases hj : i = j
  · subst hj
    simp [hi]
  · simp [hj]

end

namespace RegisterVM

/-! ### Bisection -/

/-- Bisection stays within the range it is given, whether or not its test is monotone. -/
theorem firstWhere_bounds (test : Nat → Bool) {low high : Nat} (h : low ≤ high) :
    low ≤ firstWhere test low high ∧ firstWhere test low high ≤ high := by
  fun_induction firstWhere test low high with
  | case1 low high hlt middle htest ih =>
      have := ih (by omega)
      omega
  | case2 low high hlt middle htest ih =>
      have := ih (by omega)
      omega
  | case3 low high hge => omega

/-- Bisection finds where a test that goes on holding starts to hold. Monotony is asked for below
`high` only: a half that is given up is given up because the test at its middle decides for all of
it. -/
theorem firstWhere_le_iff {test : Nat → Bool} {low high : Nat}
    (hmono : ∀ i j, i ≤ j → j < high → test i = true → test j = true) {i : Nat} (hlow : low ≤ i)
    (hhigh : i < high) : firstWhere test low high ≤ i ↔ test i = true := by
  fun_induction firstWhere test low high with
  | case1 low high hlt middle htest ih =>
      by_cases hi : i < middle
      · exact ih (fun i j hij hj => hmono i j hij (by omega)) hlow hi
      · have hfound := (firstWhere_bounds test (show low ≤ middle by omega)).2
        exact iff_of_true (by omega) (hmono middle i (by omega) hhigh htest)
  | case2 low high hlt middle htest ih =>
      by_cases hi : middle < i
      · exact ih hmono hi hhigh
      · have hfound := (firstWhere_bounds test (show middle + 1 ≤ high by omega)).1
        refine iff_of_false (by omega) fun hi' => htest ?_
        exact hmono i middle (by omega) (by omega) hi'
  | case3 low high hge => omega

/-- Bisection cuts a list in two, before the first entry that passes a test. Stated with the two
halves, it can be used without a word about indices. -/
theorem firstWhere_cut {α : Type} {list : List α} {test : α → Bool}
    (h : list.Pairwise fun a b => test a = true → test b = true) :
    ∃ front back, list = front ++ back ∧
      firstWhere (fun j => list[j]?.any test) 0 list.length = front.length ∧
      (∀ a ∈ front, test a = false) ∧ ∀ a ∈ back, test a = true := by
  have hmono : ∀ i j, i ≤ j → j < list.length →
      list[i]?.any test = true → list[j]?.any test = true := by
    intro i j hij hj htest
    rw [List.getElem?_eq_getElem (by omega), Option.any_some] at htest
    rw [List.getElem?_eq_getElem hj, Option.any_some]
    rcases Nat.lt_or_eq_of_le hij with hlt | rfl
    · exact List.pairwise_iff_getElem.mp h i j (by omega) hj hlt htest
    · exact htest
  have hle := (firstWhere_bounds (fun j => list[j]?.any test) (Nat.zero_le list.length)).2
  have hiff {i : Nat} (hi : i < list.length) := firstWhere_le_iff hmono (Nat.zero_le i) hi
  generalize firstWhere (fun j => list[j]?.any test) 0 list.length = n at hle hiff ⊢
  refine ⟨list.take n, list.drop n, (List.take_append_drop n list).symm,
    (List.length_take_of_le hle).symm, ?_, ?_⟩
  · intro a ha
    obtain ⟨j, hj, rfl⟩ := List.mem_take_iff_getElem.mp ha
    have hj' : j < list.length := by omega
    have hfalse : ¬ list[j]?.any test = true := fun htrue => by
      have := (hiff hj').mpr htrue
      omega
    rwa [List.getElem?_eq_getElem hj', Option.any_some, Bool.not_eq_true] at hfalse
  · intro a ha
    obtain ⟨j, hj, rfl⟩ := List.mem_drop_iff_getElem.mp ha
    have htrue := (hiff (show n + j < list.length by omega)).mp (Nat.le_add_right n j)
    rwa [List.getElem?_eq_getElem (by omega), Option.any_some] at htrue

/-! ### Association lists -/

section

variable {α β : Type} [BEq α] [LawfulBEq α] {list : List (α × β)} {key : α}

/-- A look-up succeeds for the keys of the list and for no others. -/
theorem isSome_lookup : (list.lookup key).isSome = true ↔ key ∈ list.map Prod.fst := by
  simp only [List.lookup_isSome_iff, beq_iff_eq, List.mem_map]
  exact exists_congr fun entry => and_congr_right fun _ => eq_comm

/-- Where no key comes twice, looking a key up finds its only entry. So a look-up and a membership
say the same, and facts about entries become facts about what is found. -/
theorem lookup_eq_some_iff_mem (h : (list.map Prod.fst).Nodup) {value : β} :
    list.lookup key = some value ↔ (key, value) ∈ list := by
  induction list with
  | nil => simp
  | cons entry rest ih =>
      obtain ⟨first, kept⟩ := entry
      obtain ⟨hnew, hrest⟩ := List.nodup_cons.mp h
      rw [List.lookup_cons, List.mem_cons, Prod.mk.injEq]
      by_cases heq : key = first
      · subst heq
        have habsent : (key, value) ∉ rest := fun hmem =>
          hnew (List.mem_map.mpr ⟨_, hmem, rfl⟩)
        simp [habsent, eq_comm]
      · have hbeq : (key == first) = false := beq_eq_false_iff_ne.mpr heq
        simp [hbeq, heq, ih hrest]

section

variable [DecidableEq α]

theorem lookup_cons_eq (first : α) (value : β) (rest : List (α × β)) (key : α) :
    ((first, value) :: rest).lookup key = if key = first then some value else rest.lookup key := by
  rw [List.lookup_cons]
  by_cases hkey : key = first
  · simp [hkey]
  · have hbeq : (key == first) = false := beq_eq_false_iff_ne.mpr hkey
    rw [hbeq, if_neg hkey]

/-- Looking up where the entries of one key are left out. Removing and replacing are both done by
such a filter, so this one lemma serves for both. -/
theorem lookup_filter_ne (list : List (α × β)) (left key : α) :
    (list.filter fun entry => entry.1 != left).lookup key =
      if key = left then none else list.lookup key := by
  induction list with
  | nil => simp
  | cons entry rest ih =>
      obtain ⟨first, kept⟩ := entry
      rw [List.filter_cons, lookup_cons_eq]
      by_cases hfirst : first = left
      · -- The entry goes, and a look-up that would have found it is one for the key left out.
        subst hfirst
        rw [if_neg (by simp), ih]
        by_cases hkey : key = first
        · rw [if_pos hkey, if_pos hkey]
        · rw [if_neg hkey, if_neg hkey, if_neg hkey]
      · rw [if_pos (by simpa using hfirst), lookup_cons_eq, ih]
        by_cases hkey : key = first
        · subst hkey
          simp [hfirst]
        · rw [if_neg hkey, if_neg hkey]

end

end

end RegisterVM
