import RegisterVM.Proofs.Lookup
import RegisterVM.Library.Records

/-!
# Records as an ordered map

A write changes what is found under one key only. The keys that start with a mark come in the order
of the records, which their type keeps strict.
-/

namespace RegisterVM.Library.Records

/-- Inserting in order changes what is found under its key and nothing else. The induction is on the
list; where the key belongs depends on the order, what is found does not. -/
theorem lookup_insertInOrder (key : Key) (value : List UInt8) (list : List (Key × List UInt8))
    (other : Key) :
    (insertInOrder key value list).lookup other =
      if other = key then some value else list.lookup other := by
  induction list with
  | nil => rw [insertInOrder, lookup_cons_eq]
  | cons first rest ih =>
      obtain ⟨next, kept⟩ := first
      rw [insertInOrder]
      split
      next => rw [lookup_cons_eq]
      next =>
        split
        next hsame =>
          subst hsame
          rw [lookup_cons_eq, lookup_cons_eq]
          by_cases hkey : other = key
          · rw [if_pos hkey, if_pos hkey]
          · rw [if_neg hkey, if_neg hkey, if_neg hkey]
        next hdiffers =>
          rw [lookup_cons_eq, lookup_cons_eq, ih]
          by_cases hnext : other = next
          · subst hnext
            simp [Ne.symm hdiffers]
          · rw [if_neg hnext, if_neg hnext]

/-- A write puts its value under its key. -/
theorem get?_insert (records : Records) (key : Key) (value : List UInt8) :
    (records.insert key value).get? = Function.update records.get? key (some value) := by
  funext other
  rw [Function.update_apply]
  exact lookup_insertInOrder key value records.toList other

/-- Erasing leaves nothing under a key, whether there was something or not. -/
theorem get?_erase (records : Records) (key : Key) :
    (records.erase key).get? = Function.update records.get? key none := by
  funext other
  rw [Function.update_apply]
  exact lookup_filter_ne records.toList key other

/-- The keys from a mark on are those that start with it and have a record. -/
theorem mem_keysFrom {records : Records} {mark : List UInt8} {key : Key} :
    key ∈ records.keysFrom mark ↔ mark <+: key ∧ (records.get? key).isSome = true := by
  rw [keysFrom, List.mem_filter, List.isPrefixOf_iff_prefix, get?, isSome_lookup, and_comm]

/-- They come in strict order, since the records do. -/
theorem pairwise_keysFrom (records : Records) (mark : List UInt8) :
    (records.keysFrom mark).Pairwise (· < ·) :=
  records.ordered.sublist List.filter_sublist

end RegisterVM.Library.Records
