import RegisterVM.Memory.Basic

/-!
# Memory layout

Maps keep their parts in address order with disjoint windows, so the region that an access goes to
is the same for all addresses of that region. `Built` says how memory comes about and `Ordered` what
that guarantees; dispatch is reasoned about from `Ordered` alone.

A write changes the bytes of one region and no window. Every fact about the layout therefore
outlives it, and so does every region that does not permit writing.

Dispatch recurses through maps and lists of parts at once, so most results come in mutual pairs: one
about a memory and one about the parts of a map. The second carries the lower bound `low` that the
windows seen so far have set.
-/

namespace RegisterVM.Memory

/-! ### Order -/

/-- Memory composed of regions and of maps to which parts were added one by one. There is no other
way to make a memory, so what every addition keeps holds of all of them. -/
inductive Built : Memory → Prop
  | region (r : Region) : Built (.region r)
  | empty : Built (.map [])
  | add {parts extended : List Memory} {part : Memory} :
      Built (.map parts) → Built part → addPart parts part = .ok extended → Built (.map extended)

mutual

/-- Every map lists its parts in address order, each window ending before the next one starts.
Windows are compared as natural numbers, because the last one may end at `2 ^ 32`. -/
def Ordered : Memory → Prop
  | .region _ => True
  | .map parts => OrderedFrom 0 parts

/-- Parts in address order whose windows lie at or above `low`. -/
def OrderedFrom : Nat → List Memory → Prop
  | _, [] => True
  | low, part :: rest => low ≤ part.base.toNat ∧ part.Ordered ∧ OrderedFrom part.limit rest

end

mutual

/-- The window of an ordered memory does not end before it starts. With an empty map both are zero;
with parts the chain of windows leads from the first base to the last limit. -/
theorem base_le_limit : ∀ {m : Memory}, m.Ordered → m.base.toNat ≤ m.limit
  | .region r, _ => by
      rw [base, limit]
      omega
  | .map parts, h => by
      rw [base, limit]
      rw [Ordered] at h
      exact firstBase_le_lastLimit h

theorem firstBase_le_lastLimit : ∀ {parts : List Memory} {low : Nat}, OrderedFrom low parts →
    (firstBase parts).toNat ≤ lastLimit parts
  | [], _, _ => by simp [firstBase, lastLimit]
  | [part], _, h => by
      rw [OrderedFrom] at h
      simpa [firstBase, lastLimit] using base_le_limit h.2.1
  | part :: next :: rest, _, h => by
      rw [OrderedFrom] at h
      obtain ⟨-, hpart, hrest⟩ := h
      have hnext : part.limit ≤ next.base.toNat := by
        rw [OrderedFrom] at hrest
        exact hrest.1
      have hself := base_le_limit hpart
      have hlast := firstBase_le_lastLimit hrest
      simp only [firstBase, lastLimit, List.isEmpty_cons, Bool.false_eq_true, if_false] at hlast ⊢
      omega

end

/-- The window of an ordered memory ends where its base and span say. Without order the difference
could be cut off at zero. -/
theorem base_add_span {m : Memory} (h : m.Ordered) : m.base.toNat + m.span = m.limit := by
  have hle := base_le_limit h
  rw [span]
  omega

/-- A part is inserted only where it keeps the order. The two comparisons with the neighbours are
all that is checked, and by order they are enough. -/
theorem orderedFrom_insertPart {part : Memory} (hpart : part.Ordered) {parts extended : List Memory}
    {previous : Nat} (hparts : OrderedFrom previous parts)
    (h : insertPart part previous parts = some extended) : OrderedFrom previous extended := by
  induction parts generalizing previous extended with
  | nil =>
      rw [insertPart] at h
      split at h
      · simp at h
      · obtain rfl := Option.some.inj h
        simp only [OrderedFrom, and_true]
        exact ⟨by omega, hpart⟩
  | cons next rest ih =>
      rw [OrderedFrom] at hparts
      obtain ⟨hprevious, hnext, hrest⟩ := hparts
      rw [insertPart] at h
      split at h
      · split at h
        · simp at h
        · rename_i hfree
          obtain rfl := Option.some.inj h
          rw [base_add_span hpart, Bool.or_eq_true, decide_eq_true_eq, decide_eq_true_eq] at hfree
          simp only [OrderedFrom]
          exact ⟨by omega, hpart, by omega, hnext, hrest⟩
      · rw [base_add_span hnext] at h
        obtain ⟨inserted, hinserted, rfl⟩ := Option.map_eq_some_iff.mp h
        rw [OrderedFrom]
        exact ⟨hprevious, hnext, ih hrest hinserted⟩

/-- What can be built is in order. By induction over the additions; a refused addition leaves no
trace and needs no case. -/
theorem Built.ordered {m : Memory} (h : m.Built) : m.Ordered := by
  induction h with
  | region r => trivial
  | empty => trivial
  | @add parts extended part _ _ hadd ihparts ihpart =>
      rw [addPart] at hadd
      cases hinsert : insertPart part 0 parts with
      | none => simp [hinsert] at hadd
      | some inserted =>
          simp only [hinsert, Except.ok.injEq] at hadd
          subst hadd
          rw [Ordered] at ihparts ⊢
          exact orderedFrom_insertPart ihpart ihparts hinsert

/-! ### Dispatch -/

/-- What it is to lie in a window, in natural numbers. Every argument about dispatch is arithmetic
from here on. -/
theorem contains_iff {m : Memory} {address : UInt32} :
    m.contains address = true ↔ m.base.toNat ≤ address.toNat ∧ address.toNat < m.limit := by
  rw [contains, Bool.and_eq_true, decide_eq_true_eq, decide_eq_true_eq, UInt32.le_iff_toNat_le]

/-- Whether an access goes past the first of some parts. -/
theorem goesOn_iff {address : UInt32} {rest : List Memory} :
    (decide (firstBase rest ≤ address) && !rest.isEmpty) = true ↔
      (firstBase rest).toNat ≤ address.toNat ∧ rest ≠ [] := by
  rw [Bool.and_eq_true, decide_eq_true_eq, UInt32.le_iff_toNat_le, Bool.not_eq_true',
    List.isEmpty_eq_false_iff]

/-- In order, the part after another starts at or above the other's end. So an address at or above
that start is outside the part before. -/
theorem limit_le_firstBase {part : Memory} {rest : List Memory}
    (h : OrderedFrom part.limit rest) (hne : rest ≠ []) : part.limit ≤ (firstBase rest).toNat := by
  cases rest with
  | nil => exact absurd rfl hne
  | cons next rest =>
      rw [OrderedFrom] at h
      rw [firstBase]
      exact h.1

mutual

/-- The region that an access goes to ends inside the window of the memory. The induction is over
the two mutual definitions of dispatch, a map and its list of parts. -/
theorem leaf_limit_le {address : UInt32} {r : Region} : ∀ {m : Memory}, m.Ordered →
    m.leaf? address = some r → r.base.toNat + r.size ≤ m.limit
  | .region s, _, h => by
      rw [leaf?, Option.some.injEq] at h
      exact Nat.le_of_eq (by rw [limit, h])
  | .map parts, hm, h => by
      rw [Ordered] at hm
      rw [leaf?] at h
      rw [limit]
      exact leafAmong_limit_le hm h

theorem leafAmong_limit_le {address : UInt32} {r : Region} : ∀ {parts : List Memory} {low : Nat},
    OrderedFrom low parts → leafAmong? address parts = some r →
      r.base.toNat + r.size ≤ lastLimit parts
  | [], _, _, h => by simp [leafAmong?] at h
  | part :: rest, _, hm, h => by
      rw [OrderedFrom] at hm
      obtain ⟨-, hpart, hrest⟩ := hm
      rw [leafAmong?] at h
      rw [lastLimit]
      split at h
      · rename_i hon
        have hne := (goesOn_iff.mp hon).2
        rw [if_neg (by simpa using hne)]
        exact leafAmong_limit_le hrest h
      · split at h
        · have hle := leaf_limit_le hpart h
          split
          · exact hle
          · rename_i hne
            have hnext := limit_le_firstBase hrest (by simpa using hne)
            have hlast := firstBase_le_lastLimit hrest
            omega
        · simp at h

end

mutual

/-- The addresses of a region that follow one of its addresses dispatch to the same region. An
access of many bytes is checked at its first address only, and this is why that is enough. -/
theorem leaf_eq_of_le {a b : UInt32} {r : Region} (hle : a ≤ b)
    (hlt : b.toNat < r.base.toNat + r.size) : ∀ {m : Memory}, m.Ordered →
    m.leaf? a = some r → m.leaf? b = some r
  | .region s, _, h => by
      rw [leaf?] at h ⊢
      exact h
  | .map parts, hm, h => by
      rw [Ordered] at hm
      rw [leaf?] at h ⊢
      exact leafAmong_eq_of_le hle hlt hm h

theorem leafAmong_eq_of_le {a b : UInt32} {r : Region} (hle : a ≤ b)
    (hlt : b.toNat < r.base.toNat + r.size) : ∀ {parts : List Memory} {low : Nat},
    OrderedFrom low parts → leafAmong? a parts = some r → leafAmong? b parts = some r
  | [], _, _, h => by simp [leafAmong?] at h
  | part :: rest, _, hm, h => by
      rw [OrderedFrom] at hm
      obtain ⟨-, hpart, hrest⟩ := hm
      rw [UInt32.le_iff_toNat_le] at hle
      rw [leafAmong?] at h ⊢
      split at h
      · rename_i hon
        obtain ⟨hfirst, hne⟩ := goesOn_iff.mp hon
        rw [if_pos (goesOn_iff.mpr ⟨by omega, hne⟩)]
        exact leafAmong_eq_of_le (UInt32.le_iff_toNat_le.mpr hle) hlt hrest h
      · split at h
        · rename_i hcontains
          have hlimit := leaf_limit_le hpart h
          have hstop : ¬ (decide (firstBase rest ≤ b) && !rest.isEmpty) = true := fun hon => by
            obtain ⟨hfirst, hne⟩ := goesOn_iff.mp hon
            have hnext := limit_le_firstBase hrest hne
            omega
          rw [contains_iff] at hcontains
          rw [if_neg hstop, if_pos (contains_iff.mpr ⟨by omega, by omega⟩)]
          exact leaf_eq_of_le (UInt32.le_iff_toNat_le.mpr hle) hlt hpart h
        · simp at h

end

mutual

/-- An access goes to one of the regions. What holds of all regions therefore holds wherever an
access can go. -/
theorem leaf_mem_regions {address : UInt32} {r : Region} : ∀ {m : Memory},
    m.leaf? address = some r → r ∈ m.regions
  | .region s, h => by
      rw [leaf?, Option.some.injEq] at h
      rw [regions, h]
      exact List.mem_singleton_self r
  | .map parts, h => by
      rw [leaf?] at h
      rw [regions]
      exact leafAmong_mem_regionsOf h

theorem leafAmong_mem_regionsOf {address : UInt32} {r : Region} : ∀ {parts : List Memory},
    leafAmong? address parts = some r → r ∈ regionsOf parts
  | [], h => by simp [leafAmong?] at h
  | part :: rest, h => by
      rw [leafAmong?] at h
      rw [regionsOf]
      split at h
      · exact List.mem_append_right _ (leafAmong_mem_regionsOf h)
      · split at h
        · exact List.mem_append_left _ (leaf_mem_regions h)
        · simp at h

end

/-! ### Changes of one region

`f` stands for a change that keeps the window of every region. -/

/-- A change of regions that leaves their windows where they are. A write is one, and so is any
other change of contents, so the lemmas on layout are proved once for all of them. -/
structure KeepsWindows (f : Region → Region) : Prop where
  base : ∀ r, (f r).base = r.base
  size : ∀ r, (f r).size = r.size

section

variable {f : Region → Region} {address : UInt32}

theorem isEmpty_updateAmong (parts : List Memory) :
    (updateAmong address f parts).isEmpty = parts.isEmpty := by
  cases parts with
  | nil => rw [updateAmong]
  | cons part rest =>
      rw [updateAmong]
      split
      · rfl
      · split <;> rfl

mutual

theorem base_updateLeaf (hf : KeepsWindows f) : ∀ m : Memory, (m.updateLeaf address f).base = m.base
  | .region r => by
      rw [updateLeaf, base, base]
      exact hf.base r
  | .map parts => by
      rw [updateLeaf, base, base]
      exact firstBase_updateAmong hf parts

theorem firstBase_updateAmong (hf : KeepsWindows f) : ∀ parts : List Memory,
    firstBase (updateAmong address f parts) = firstBase parts
  | [] => by rw [updateAmong]
  | part :: rest => by
      rw [updateAmong]
      split
      · rw [firstBase, firstBase]
      · split
        · rw [firstBase, firstBase]
          exact base_updateLeaf hf part
        · rfl

end

mutual

theorem limit_updateLeaf (hf : KeepsWindows f) :
    ∀ m : Memory, (m.updateLeaf address f).limit = m.limit
  | .region r => by
      rw [updateLeaf, limit, limit, hf.base, hf.size]
  | .map parts => by
      rw [updateLeaf, limit, limit]
      exact lastLimit_updateAmong hf parts

theorem lastLimit_updateAmong (hf : KeepsWindows f) : ∀ parts : List Memory,
    lastLimit (updateAmong address f parts) = lastLimit parts
  | [] => by rw [updateAmong]
  | part :: rest => by
      rw [updateAmong]
      split
      · rw [lastLimit, lastLimit, isEmpty_updateAmong, lastLimit_updateAmong hf rest]
      · split
        · rw [lastLimit, lastLimit, limit_updateLeaf hf part]
        · rfl

end

theorem contains_updateLeaf (hf : KeepsWindows f) (m : Memory) (b : UInt32) :
    (m.updateLeaf address f).contains b = m.contains b := by
  rw [contains, contains, base_updateLeaf hf, limit_updateLeaf hf]

mutual

theorem ordered_updateLeaf (hf : KeepsWindows f) : ∀ {m : Memory}, m.Ordered →
    (m.updateLeaf address f).Ordered
  | .region _, _ => by
      rw [updateLeaf, Ordered]
      trivial
  | .map parts, h => by
      rw [Ordered] at h
      rw [updateLeaf, Ordered]
      exact orderedFrom_updateAmong hf h

theorem orderedFrom_updateAmong (hf : KeepsWindows f) : ∀ {parts : List Memory} {low : Nat},
    OrderedFrom low parts → OrderedFrom low (updateAmong address f parts)
  | [], _, _ => by rw [updateAmong, OrderedFrom]; trivial
  | part :: rest, _, h => by
      rw [OrderedFrom] at h
      obtain ⟨hlow, hpart, hrest⟩ := h
      rw [updateAmong]
      split
      · rw [OrderedFrom]
        exact ⟨hlow, hpart, orderedFrom_updateAmong hf hrest⟩
      · split
        · rw [OrderedFrom, base_updateLeaf hf, limit_updateLeaf hf]
          exact ⟨hlow, ordered_updateLeaf hf hpart, hrest⟩
        · rw [OrderedFrom]
          exact ⟨hlow, hpart, hrest⟩

end

mutual

/-- An access finds its region as it was, or it goes where the change went and finds it changed.
Dispatch looks at windows only, so both paths through the map are the same before and after. -/
theorem leaf_updateLeaf (hf : KeepsWindows f) (b : UInt32) : ∀ m : Memory,
    (m.updateLeaf address f).leaf? b = m.leaf? b ∨
      (m.leaf? address = m.leaf? b ∧ (m.updateLeaf address f).leaf? b = (m.leaf? b).map f)
  | .region r => by
      rw [updateLeaf, leaf?, leaf?, leaf?]
      exact Or.inr ⟨rfl, rfl⟩
  | .map parts => by
      rw [updateLeaf, leaf?, leaf?, leaf?]
      exact leafAmong_updateAmong hf b parts

theorem leafAmong_updateAmong (hf : KeepsWindows f) (b : UInt32) : ∀ parts : List Memory,
    leafAmong? b (updateAmong address f parts) = leafAmong? b parts ∨
      (leafAmong? address parts = leafAmong? b parts ∧
        leafAmong? b (updateAmong address f parts) = (leafAmong? b parts).map f)
  | [] => by
      rw [updateAmong]
      exact Or.inl rfl
  | part :: rest => by
      simp only [updateAmong, leafAmong?]
      by_cases hon : (decide (firstBase rest ≤ address) && !rest.isEmpty) = true
      · simp only [if_pos hon, leafAmong?, firstBase_updateAmong hf, isEmpty_updateAmong]
        by_cases honb : (decide (firstBase rest ≤ b) && !rest.isEmpty) = true
        · simp only [if_pos honb]
          exact leafAmong_updateAmong hf b rest
        · exact Or.inl (by simp only [if_neg honb])
      · simp only [if_neg hon]
        by_cases hin : part.contains address = true
        · simp only [if_pos hin, leafAmong?, contains_updateLeaf hf]
          by_cases honb : (decide (firstBase rest ≤ b) && !rest.isEmpty) = true
          · exact Or.inl (by simp only [if_pos honb])
          · simp only [if_neg honb]
            by_cases hinb : part.contains b = true
            · simp only [if_pos hinb]
              exact leaf_updateLeaf hf b part
            · exact Or.inl (by simp only [if_neg hinb])
        · exact Or.inl (by simp only [if_neg hin, leafAmong?])

end

end

mutual

/-- A change of one region leaves every other region in place: each region afterwards is one from
before, changed or not. -/
theorem mem_regions_updateLeaf {f : Region → Region} {address : UInt32} {r : Region} :
    ∀ {m : Memory}, r ∈ (m.updateLeaf address f).regions → ∃ s ∈ m.regions, r = s ∨ r = f s
  | .region s, h => by
      rw [updateLeaf, regions, List.mem_singleton] at h
      exact ⟨s, by rw [regions]; exact List.mem_singleton_self s, Or.inr h⟩
  | .map parts, h => by
      rw [updateLeaf, regions] at h
      rw [regions]
      exact mem_regionsOf_updateAmong h

theorem mem_regionsOf_updateAmong {f : Region → Region} {address : UInt32} {r : Region} :
    ∀ {parts : List Memory}, r ∈ regionsOf (updateAmong address f parts) →
      ∃ s ∈ regionsOf parts, r = s ∨ r = f s
  | [], h => by simp [updateAmong, regionsOf] at h
  | part :: rest, h => by
      have hsame {s : Region} (hs : s ∈ part.regions ++ regionsOf rest) :
          ∃ t ∈ regionsOf (part :: rest), s = t ∨ s = f t :=
        ⟨s, by rw [regionsOf]; exact hs, Or.inl rfl⟩
      rw [updateAmong] at h
      split at h
      · rw [regionsOf, List.mem_append] at h
        rcases h with h | h
        · exact hsame (List.mem_append_left _ h)
        · obtain ⟨s, hs, hrs⟩ := mem_regionsOf_updateAmong h
          exact ⟨s, by rw [regionsOf]; exact List.mem_append_right _ hs, hrs⟩
      · split at h
        · rw [regionsOf, List.mem_append] at h
          rcases h with h | h
          · obtain ⟨s, hs, hrs⟩ := mem_regions_updateLeaf h
            exact ⟨s, by rw [regionsOf]; exact List.mem_append_left _ hs, hrs⟩
          · exact hsame (List.mem_append_right _ h)
        · rw [regionsOf] at h
          exact hsame h

end

/-! ### Writes -/

theorem size_overwrite (bytes : ByteArray) (index : Nat) (data : List UInt8) :
    (Region.overwrite bytes index data).size = bytes.size := by
  induction data generalizing bytes index with
  | nil => rfl
  | cons b rest ih =>
      rw [Region.overwrite]
      split
      · rw [ih]
        exact Array.size_set ..
      · rfl

theorem keepsWindows_poke (address : UInt32) (data : List UInt8) :
    KeepsWindows fun r => r.poke address data where
  base _ := rfl
  size r := size_overwrite r.bytes _ data

/-- A write keeps the layout, whatever is written and whether or not it was permitted. -/
theorem ordered_poke {m : Memory} (h : m.Ordered) (address : UInt32) (data : List UInt8) :
    (m.poke address data).Ordered :=
  ordered_updateLeaf (keepsWindows_poke address data) h

/-- Every region of a memory permits reading. Under it the cache may read ahead without meeting a
region that refuses. -/
def AllReadable (m : Memory) : Prop := ∀ r ∈ m.regions, r.permission.readable = true

theorem allReadable_poke {m : Memory} (h : m.AllReadable) (address : UInt32) (data : List UInt8) :
    (m.poke address data).AllReadable := by
  intro r hr
  obtain ⟨s, hs, rfl | rfl⟩ := mem_regions_updateLeaf hr
  · exact h r hs
  · exact h s hs

/-- Whether the region that an access at `address` goes to refuses writes. Where there is no region
there is nothing to write to. -/
def writeProtected (m : Memory) (address : UInt32) : Bool :=
  match m.leaf? address with
  | none => true
  | some r => !r.permission.writable

/-- A permitted write leaves the regions that refuse writes as they are. If the write went to the
same region, the check would have refused it. -/
theorem leaf_poke_of_writeProtected {m : Memory} {a b : UInt32} {count : Nat} {data : List UInt8}
    (hcheck : m.check .write a count = .ok ()) (hprotected : m.writeProtected b = true) :
    (m.poke a data).leaf? b = m.leaf? b := by
  rcases leaf_updateLeaf (keepsWindows_poke a data) b m with h | ⟨hsame, h⟩
  · exact h
  · cases hleaf : m.leaf? b with
    | none =>
        rw [hleaf] at h
        exact h
    | some r =>
        rw [check, hsame, hleaf] at hcheck
        rw [writeProtected, hleaf, Bool.not_eq_true'] at hprotected
        simp only [Region.check, Permission.allows, hprotected, Bool.not_false, if_true] at hcheck
        split at hcheck <;> simp at hcheck

end RegisterVM.Memory
