import RegisterVM.Proofs.Lookup
import RegisterVM.Debug.HeaderCache

/-!
# Kept headers

A cache is coherent over a memory when its two structures speak of the same addresses and what it
keeps is what the memory holds. Every operation keeps a cache coherent, and a cache also stays in
order of age: its order is the history of the addresses that came in, each where it came in last,
without those that have left since.

Dropping the oldest header to make room is the same as dropping the header of its address, so one
argument covers both.
-/

namespace RegisterVM.Debug.HeaderCache

/-! ### Entries -/

theorem lookup_without (entries : List (UInt32 × Header)) (w v : UInt32) :
    (without entries w).lookup v = if v = w then none else entries.lookup v := by
  rw [without, lookup_filter_ne]

theorem keys_without (entries : List (UInt32 × Header)) (w : UInt32) :
    (without entries w).map Prod.fst = (entries.map Prod.fst).filter fun v => v != w := by
  rw [without, List.filter_map]
  rfl

section

variable (c : HeaderCache) (w : UInt32)

/-- Dropping an address drops its header and no other. -/
theorem find?_erase (v : UInt32) : (c.erase w).find? v = if v = w then none else c.find? v := by
  rw [erase]
  split
  next => exact lookup_without c.entries w v
  next habsent =>
    -- Nothing is kept for `w`, so there is nothing to drop.
    by_cases hv : v = w
    · rw [if_pos hv, hv, Option.not_isSome_iff_eq_none.mp habsent]
    · rw [if_neg hv]

@[simp] theorem capacity_erase : (c.erase w).capacity = c.capacity := by
  rw [erase]
  split <;> rfl

@[simp] theorem capacity_makeRoom : c.makeRoom.capacity = c.capacity := by
  rw [makeRoom]
  split
  · split <;> rfl
  · rfl

@[simp] theorem capacity_insert (h : Header) : (c.insert w h).capacity = c.capacity := by
  rw [insert]
  split
  · rfl
  · exact capacity_makeRoom c

/-- Looking up after keeping a header whose address had one: the new header is found in place of the
old. -/
theorem find?_replace {h : Header} (hkept : (c.find? w).isSome = true) (v : UInt32) :
    (c.insert w h).find? v = if v = w then some h else c.find? v := by
  rw [insert, if_pos hkept, find?, lookup_cons_eq, lookup_without]
  by_cases hv : v = w
  · rw [if_pos hv, if_pos hv]
  · rw [if_neg hv, if_neg hv, if_neg hv]
    rfl

/-- Looking up after keeping a header at a new address. Room was made first, so another one may be
gone. -/
theorem find?_insert_new {h : Header} (hnew : c.find? w = none) (v : UInt32) :
    (c.insert w h).find? v = if v = w then some h else c.makeRoom.find? v := by
  rw [insert, if_neg (by simp [hnew]), find?, lookup_cons_eq, lookup_without]
  by_cases hv : v = w
  · rw [if_pos hv, if_pos hv]
  · rw [if_neg hv, if_neg hv, if_neg hv]
    rfl

theorem order_insert_new {h : Header} (hnew : c.find? w = none) :
    (c.insert w h).order = c.makeRoom.order ++ [w] := by
  rw [insert, if_neg (by simp [hnew])]

theorem order_replace {h : Header} (hkept : (c.find? w).isSome = true) :
    (c.insert w h).order = c.order := by
  rw [insert, if_pos hkept]

theorem makeRoom_of_lt {c : HeaderCache} (h : c.order.length < c.capacity) : c.makeRoom = c := by
  rw [makeRoom, if_neg (by omega)]

end

/-! ### Coherence -/

/-- The two structures of a cache speak of the same addresses, there is room for all of them, and
every kept header is what reading it from memory gives. A header that was read only in part is never
among them. -/
structure Coherent (m : Memory) (c : HeaderCache) : Prop where
  order_nodup : c.order.Nodup
  order_perm_keys : c.order.Perm (c.entries.map Prod.fst)
  bounded : c.order.length ≤ c.capacity
  complete : ∀ w h, c.find? w = some h → readHeader m w = (h, none)

namespace Coherent

variable {m : Memory} {c : HeaderCache}

theorem mem_order (hc : c.Coherent m) {w : UInt32} : w ∈ c.order ↔ (c.find? w).isSome = true := by
  rw [hc.order_perm_keys.mem_iff, find?, isSome_lookup]

protected theorem empty (m : Memory) (capacity : Int) :
    (HeaderCache.empty capacity).Coherent m where
  order_nodup := List.nodup_nil
  order_perm_keys := List.Perm.nil
  bounded := Nat.zero_le _
  complete := by
    intro w h hkept
    cases hkept

protected theorem clear (m : Memory) (c : HeaderCache) : c.clear.Coherent m where
  order_nodup := List.nodup_nil
  order_perm_keys := List.Perm.nil
  bounded := Nat.zero_le _
  complete := by
    intro w h hkept
    cases hkept

/-- Dropping an address takes it out of the order, and leaves the others where they were. -/
theorem order_erase (hc : c.Coherent m) (w : UInt32) :
    (c.erase w).order = c.order.filter fun v => v != w := by
  rw [erase]
  split
  next => exact hc.order_nodup.erase_eq_filter w
  next habsent =>
    have hout : ∀ v ∈ c.order, v != w := by
      intro v hv
      rw [bne_iff_ne]
      rintro rfl
      exact habsent (hc.mem_order.mp hv)
    exact (List.filter_eq_self.mpr hout).symm

protected theorem erase (hc : c.Coherent m) (w : UInt32) : (c.erase w).Coherent m where
  order_nodup := by
    rw [hc.order_erase]
    exact hc.order_nodup.filter _
  order_perm_keys := by
    rw [erase]
    split
    next =>
      rw [keys_without, hc.order_nodup.erase_eq_filter]
      exact hc.order_perm_keys.filter _
    next => exact hc.order_perm_keys
  bounded := by
    rw [hc.order_erase, capacity_erase]
    exact (List.length_filter_le _ _).trans hc.bounded
  complete := by
    intro v h hkept
    rw [find?_erase] at hkept
    split at hkept
    · cases hkept
    · exact hc.complete v h hkept

/-- A full cache makes room by dropping its oldest address. -/
theorem makeRoom_eq_erase (hc : c.Coherent m) {oldest : UInt32} {rest : List UInt32}
    (horder : c.order = oldest :: rest) (hfull : c.capacity ≤ c.order.length) :
    c.makeRoom = c.erase oldest := by
  have hkept : (c.find? oldest).isSome = true := hc.mem_order.mp (by simp [horder])
  rw [makeRoom, if_pos hfull, erase, if_pos hkept]
  simp [horder]

theorem order_makeRoom_sublist (hc : c.Coherent m) : c.makeRoom.order.Sublist c.order := by
  by_cases hfull : c.capacity ≤ c.order.length
  · cases horder : c.order with
    | nil =>
        have hsame : c.makeRoom = c := by rw [HeaderCache.makeRoom, if_pos hfull, horder]
        rw [hsame, horder]
    | cons oldest rest =>
        rw [hc.makeRoom_eq_erase horder hfull, hc.order_erase, horder]
        exact List.filter_sublist
  · rw [makeRoom_of_lt (by omega)]

/-- Making room leaves a cache coherent and, unless it has no room at all, not full. -/
theorem makeRoom (hc : c.Coherent m) (hpos : 0 < c.capacity) :
    c.makeRoom.Coherent m ∧ c.makeRoom.order.length < c.capacity := by
  by_cases hfull : c.capacity ≤ c.order.length
  · cases horder : c.order with
    | nil => simp [horder] at hfull; omega
    | cons oldest rest =>
        rw [hc.makeRoom_eq_erase horder hfull]
        refine ⟨hc.erase oldest, ?_⟩
        have hlength := hc.bounded
        have hnodup := hc.order_nodup
        rw [horder] at hlength hnodup
        have hrest : (oldest :: rest).erase oldest = rest := List.erase_cons_head ..
        rw [hc.order_erase, horder, ← hnodup.erase_eq_filter, hrest]
        rw [List.length_cons] at hlength
        omega
  · rw [makeRoom_of_lt (by omega)]
    exact ⟨hc, by omega⟩

/-- Keeping a header that was read completely leaves a cache coherent. What matters is that it was
read from this memory. -/
protected theorem insert (hc : c.Coherent m) (hpos : 0 < c.capacity) {w : UInt32} {h : Header}
    (hread : readHeader m w = (h, none)) : (c.insert w h).Coherent m := by
  by_cases hkept : (c.find? w).isSome = true
  · have hmem : w ∈ c.order := hc.mem_order.mpr hkept
    refine ⟨?_, ?_, ?_, ?_⟩
    · rw [order_replace c w hkept]
      exact hc.order_nodup
    · rw [order_replace c w hkept, HeaderCache.insert, if_pos hkept, List.map_cons, keys_without]
      refine (List.perm_cons_erase hmem).trans (List.Perm.cons w ?_)
      rw [hc.order_nodup.erase_eq_filter]
      exact hc.order_perm_keys.filter _
    · rw [order_replace c w hkept, capacity_insert]
      exact hc.bounded
    · intro v g hg
      rw [find?_replace c w hkept] at hg
      split at hg
      next hv => rw [hv, hread, Option.some.inj hg]
      next => exact hc.complete v g hg
  · have hnew : c.find? w = none := Option.not_isSome_iff_eq_none.mp hkept
    obtain ⟨hroom, hspace⟩ := hc.makeRoom hpos
    have habsent : w ∉ c.makeRoom.order := by
      intro hmem
      exact hkept (hc.mem_order.mp (hc.order_makeRoom_sublist.subset hmem))
    have hkeys : w ∉ c.makeRoom.entries.map Prod.fst := by
      rwa [← hroom.order_perm_keys.mem_iff]
    refine ⟨?_, ?_, ?_, ?_⟩
    · rw [order_insert_new c w hnew]
      exact hroom.order_nodup.append (List.nodup_singleton w) (by simpa using habsent)
    · rw [order_insert_new c w hnew, HeaderCache.insert, if_neg hkept, List.map_cons, keys_without,
        List.filter_eq_self.mpr (by rintro v hv; rw [bne_iff_ne]; rintro rfl; exact hkeys hv)]
      exact (List.perm_append_singleton w _).trans (hroom.order_perm_keys.cons w)
    · rw [order_insert_new c w hnew, capacity_insert, List.length_append, List.length_singleton]
      omega
    · intro v g hg
      rw [find?_insert_new c w hnew] at hg
      split at hg
      next hv => rw [hv, hread, Option.some.inj hg]
      next => exact hroom.complete v g hg

/-- Keeping what was read leaves a cache coherent, whether that was all of the header or not. -/
protected theorem keep (hc : c.Coherent m) (hpos : 0 < c.capacity) (w : UInt32) :
    (c.keep w (readHeader m w)).Coherent m := by
  rcases hread : readHeader m w with ⟨h, _ | reason⟩
  · exact hc.insert hpos hread
  · exact hc

/-- A header that cannot be read completely is not kept, so it is read again every time. -/
theorem find?_of_failure (hc : c.Coherent m) {w : UInt32} (h : (readHeader m w).2.isSome = true) :
    c.find? w = none := by
  rcases hkept : c.find? w with _ | kept
  · rfl
  · rw [hc.complete w kept hkept] at h
    cases h

end Coherent

/-! ### Eviction -/

/-- Keeping a header at a new address drops the oldest entry of a full cache and no other entry, and
otherwise keeping a header drops none. An address that is kept already does not become newer by
it. -/
structure DropsOldest (c : HeaderCache) (w : UInt32) (h : Header) : Prop where
  of_full : c.find? w = none → c.capacity ≤ c.order.length →
    ∃ oldest rest, c.order = oldest :: rest ∧ (c.insert w h).order = rest ++ [w] ∧
      ∀ v, (c.insert w h).find? v = if v = w then some h else if v = oldest then none else c.find? v
  of_room : c.find? w = none → c.order.length < c.capacity →
    (c.insert w h).order = c.order ++ [w] ∧
      ∀ v, (c.insert w h).find? v = if v = w then some h else c.find? v
  of_kept : (c.find? w).isSome = true →
    (c.insert w h).order = c.order ∧
      ∀ v, (c.insert w h).find? v = if v = w then some h else c.find? v

theorem Coherent.dropsOldest {m : Memory} {c : HeaderCache} (hc : c.Coherent m)
    (hpos : 0 < c.capacity) (w : UInt32) (h : Header) : c.DropsOldest w h where
  of_full := by
    intro hnew hfull
    rcases horder : c.order with _ | ⟨oldest, rest⟩
    · rw [horder, List.length_nil] at hfull
      omega
    · have hroom : c.makeRoom = c.erase oldest := hc.makeRoom_eq_erase horder hfull
      have hnodup : (oldest :: rest).Nodup := horder ▸ hc.order_nodup
      refine ⟨oldest, rest, rfl, ?_, ?_⟩
      · rw [order_insert_new c w hnew, hroom, hc.order_erase, horder, ← hnodup.erase_eq_filter,
          List.erase_cons_head]
      · intro v
        rw [find?_insert_new c w hnew, hroom, find?_erase]
  of_room := by
    intro hnew hroom
    refine ⟨?_, ?_⟩
    · rw [order_insert_new c w hnew, makeRoom_of_lt hroom]
    · intro v
      rw [find?_insert_new c w hnew, makeRoom_of_lt hroom]
  of_kept := fun hkept => ⟨order_replace c w hkept, find?_replace c w hkept⟩

/-! ### Age -/

/-- The addresses that come into a cache as it changes to another. -/
def newcomers (before after : HeaderCache) : List UInt32 :=
  after.order.filter fun w => (before.find? w).isNone

/-- The order of a cache is the history of the addresses that came in, each where it came in last,
without those that are no longer kept. It says what age means without mentioning how the cache keeps
track of it. -/
def ByAge (entered : List UInt32) (c : HeaderCache) : Prop :=
  c.order = entered.dedup.filter fun w => (c.find? w).isSome

/-- Where no address comes in, there is no newcomer. -/
theorem Coherent.newcomers_eq_nil {m : Memory} {c c' : HeaderCache} (hc : c.Coherent m)
    (h : c'.order ⊆ c.order) : newcomers c c' = [] := by
  rw [newcomers, List.filter_eq_nil_iff]
  intro v hv
  have hkept : (c.find? v).isSome = true := hc.mem_order.mp (h hv)
  simp [Option.isNone_eq_false_iff.mpr hkept]

namespace ByAge

variable {m : Memory} {entered : List UInt32} {c : HeaderCache}

/-- Where addresses only leave, those that stay keep their places. Dropping, clearing and making
room are of this kind. -/
theorem of_filter (hage : c.ByAge entered) {c' : HeaderCache} {stays : UInt32 → Bool}
    (horder : c'.order = c.order.filter stays)
    (hfind : ∀ v, (c'.find? v).isSome = ((c.find? v).isSome && stays v)) : c'.ByAge entered := by
  rw [ByAge, horder, hage, List.filter_filter]
  refine List.filter_congr ?_
  intro v _
  rw [hfind, Bool.and_comm]

protected theorem erase (hc : c.Coherent m) (hage : c.ByAge entered) (w : UInt32) :
    (c.erase w).ByAge entered := by
  refine hage.of_filter (hc.order_erase w) ?_
  intro v
  rw [find?_erase]
  by_cases hv : v = w
  · simp [hv]
  · simp [hv]

protected theorem clear : c.clear.ByAge entered := by
  show [] = entered.dedup.filter fun _ => false
  rw [List.filter_false]

protected theorem makeRoom (hc : c.Coherent m) (hpos : 0 < c.capacity) (hage : c.ByAge entered) :
    c.makeRoom.ByAge entered := by
  by_cases hfull : c.capacity ≤ c.order.length
  · rcases horder : c.order with _ | ⟨oldest, rest⟩
    · rw [horder, List.length_nil] at hfull
      omega
    · rw [hc.makeRoom_eq_erase horder hfull]
      exact hage.erase hc oldest
  · rwa [makeRoom_of_lt (by omega)]

/-- A new address comes last, wherever it may have stood in the history before. -/
theorem filter_dedup_concat {entered : List UInt32} {w : UInt32} {kept : UInt32 → Bool}
    (hnew : kept w = false) :
    ((entered ++ [w]).dedup.filter fun v => v == w || kept v) =
        entered.dedup.filter kept ++ [w] := by
  induction entered with
  | nil => simp
  | cons first rest ih =>
      rw [List.cons_append]
      by_cases hrest : first ∈ rest
      · rw [List.dedup_cons_of_mem (by simp [hrest]), List.dedup_cons_of_mem hrest, ih]
      · rw [List.dedup_cons_of_notMem hrest]
        by_cases hfirst : first = w
        · -- The later entrance of `w` counts, and before it `w` was not kept.
          subst hfirst
          rw [List.dedup_cons_of_mem (by simp), ih, List.filter_cons_of_neg (by simp [hnew])]
        · rw [List.dedup_cons_of_notMem (by simp [hrest, hfirst]), List.filter_cons,
            List.filter_cons, ih]
          by_cases hkept : kept first = true
          · simp [hkept]
          · simp [hkept, hfirst]

/-- Keeping a header adds its address to the history if it was not kept before. -/
protected theorem insert (hc : c.Coherent m) (hpos : 0 < c.capacity) (hage : c.ByAge entered)
    (w : UInt32) (h : Header) : (c.insert w h).ByAge (entered ++ newcomers c (c.insert w h)) := by
  by_cases hkept : (c.find? w).isSome = true
  · have horder := order_replace c w (h := h) hkept
    rw [hc.newcomers_eq_nil (by rw [horder]; exact List.Subset.refl _), List.append_nil]
    have hsame : (c.insert w h).order = c.order.filter fun _ => true := by
      rw [horder, List.filter_true]
    refine hage.of_filter hsame ?_
    intro v
    rw [find?_replace c w hkept]
    by_cases hv : v = w
    · simp [hv, hkept]
    · simp [hv]
  · have hnew : c.find? w = none := Option.not_isSome_iff_eq_none.mp hkept
    have habsent : (c.makeRoom.find? w).isSome = false := by
      rw [Bool.eq_false_iff]
      intro hmem
      have hroom := (hc.makeRoom hpos).1.mem_order.mpr hmem
      exact hkept (hc.mem_order.mp (hc.order_makeRoom_sublist.subset hroom))
    have hnewcomers : newcomers c (c.insert w h) = [w] := by
      have hold : c.makeRoom.order.filter (fun v => (c.find? v).isNone) = [] :=
        hc.newcomers_eq_nil hc.order_makeRoom_sublist.subset
      rw [newcomers, order_insert_new c w hnew, List.filter_append, hold]
      simp [hnew]
    have hpresent : (fun v => ((c.insert w h).find? v).isSome) =
        fun v => v == w || (c.makeRoom.find? v).isSome := by
      funext v
      rw [find?_insert_new c w hnew]
      by_cases hv : v = w
      · simp [hv]
      · simp [hv]
    rw [hnewcomers, ByAge, order_insert_new c w hnew, hpresent, filter_dedup_concat habsent,
      hage.makeRoom hc hpos]

end ByAge

end RegisterVM.Debug.HeaderCache
