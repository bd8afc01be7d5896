import RegisterVM.Text.Utf8
/-!
# Records

Records are values under keys, in the strict order of the keys as bytes. The order is part of the
type: a write puts its record where it belongs.
-/

namespace RegisterVM.Library

/-- A key of a record. -/
abbrev Key := List UInt8

/-- Puts a value under a key: in place of the earlier one, or where the key belongs. -/
def insertInOrder (key : Key) (value : List UInt8) :
    List (Key × List UInt8) → List (Key × List UInt8)
  | [] => [(key, value)]
  | (other, kept) :: rest =>
      if key < other then (key, value) :: (other, kept) :: rest
      else if key = other then (key, value) :: rest
      else (other, kept) :: insertInOrder key value rest

theorem mem_keys_insertInOrder {key other : Key} {value : List UInt8}
    {list : List (Key × List UInt8)} (h : other ∈ (insertInOrder key value list).map Prod.fst) :
    other = key ∨ other ∈ list.map Prod.fst := by
  induction list with
  | nil => exact .inl (List.mem_singleton.mp h)
  | cons first rest ih =>
      rw [insertInOrder] at h
      split at h
      next => exact List.mem_cons.mp h
      next =>
        split at h
        next => exact (List.mem_cons.mp h).imp_right (List.mem_cons_of_mem _)
        next =>
          rcases List.mem_cons.mp h with heq | hmem
          · exact .inr (heq ▸ List.mem_cons_self)
          · exact (ih hmem).imp_right (List.mem_cons_of_mem _)

theorem ordered_insertInOrder {list : List (Key × List UInt8)}
    (h : (list.map Prod.fst).Pairwise (· < ·)) (key : Key) (value : List UInt8) :
    ((insertInOrder key value list).map Prod.fst).Pairwise (· < ·) := by
  induction list with
  | nil => exact List.pairwise_singleton _ _
  | cons first rest ih =>
      obtain ⟨hfirst, hrest⟩ := List.pairwise_cons.mp h
      rw [insertInOrder]
      split
      next hbefore =>
        refine List.pairwise_cons.mpr ⟨?_, h⟩
        intro other hother
        rcases List.mem_cons.mp hother with rfl | hlater
        · exact hbefore
        · exact List.lt_trans hbefore (hfirst other hlater)
      next hnotBefore =>
        split
        next hsame =>
          subst hsame
          exact h
        next hdiffers =>
          -- A key that is neither before nor equal to the first one comes after it.
          have hafter : first.1 < key := by
            rcases List.le_iff_lt_or_eq.mp (List.not_lt.mp hnotBefore) with hlt | heq
            · exact hlt
            · exact absurd heq.symm hdiffers
          refine List.pairwise_cons.mpr ⟨?_, ih hrest⟩
          intro other hother
          rcases mem_keys_insertInOrder hother with rfl | hlater
          · exact hafter
          · exact hfirst other hlater

/-- Records in the strict order of their keys. -/
structure Records where
  toList : List (Key × List UInt8)
  ordered : (toList.map Prod.fst).Pairwise (· < ·)

namespace Records

/-- No records. -/
def empty : Records := ⟨[], .nil⟩

instance : EmptyCollection Records := ⟨empty⟩

instance : Inhabited Records := ⟨empty⟩

/-- The value under a key. -/
def get? (records : Records) (key : Key) : Option (List UInt8) := records.toList.lookup key

/-- Puts a record in place of one of the same key. -/
def insert (key : Key) (value : List UInt8) (records : Records) : Records :=
  ⟨insertInOrder key value records.toList, ordered_insertInOrder records.ordered key value⟩

/-- Removes a record. -/
def erase (key : Key) (records : Records) : Records :=
  ⟨records.toList.filter fun r => r.1 != key,
    records.ordered.sublist (List.filter_sublist.map Prod.fst)⟩

/-- The keys that start with a mark, in order. -/
def keysFrom (mark : List UInt8) (records : Records) : List Key :=
  (records.toList.map Prod.fst).filter mark.isPrefixOf

end Records

/-- One write of a transaction. -/
inductive Write where
  | set (key : Key) (value : List UInt8)
  | delete (key : Key)

namespace Write

/-- The key that is written. -/
def key : Write → Key
  | set key _ | delete key => key

/-- What a write makes of records. -/
def apply (records : Records) : Write → Records
  | set key value => records.insert key value
  | delete key => records.erase key

end Write

end RegisterVM.Library
