import RegisterVM.Proofs.Lookup
import RegisterVM.Proofs.MemoryBytes

/-!
# Maps of windows

A map takes sub-memories one by one and refuses those that would overlap. Looking at the two
neighbours of the new window is enough for that, and looking at the last window that starts at or
below an address is enough to find the one that contains it, because the windows are in order and
disjoint; the maps inside a map are reached in the same way. So an access to a map is an access to
the one region that contains its address.

The order is also what bisection needs. `placeByBisection` and `findByBisection` look for the
neighbours that way, and do the same as `addPart` and `find?`, which walk along the list.
-/

namespace RegisterVM

/-- A region contains the addresses from its base up to its end; an empty one contains none. -/
theorem Region.contains_iff {r : Region} {address : UInt32} :
    r.contains address = true ↔
      r.base.toNat ≤ address.toNat ∧ address.toNat < r.base.toNat + r.size :=
  Region.covers_iff

namespace Memory

/-! ### Windows and maps -/

/-- The window of a memory has the address. Windows may end above the last address that an access
can name. -/
def InWindow (m : Memory) (a : Nat) : Prop := m.base.toNat ≤ a ∧ a < m.base.toNat + m.span

instance (m : Memory) (a : Nat) : Decidable (m.InWindow a) :=
  inferInstanceAs (Decidable (_ ∧ _))

/-- Two windows have an address in common. An empty window meets no other, wherever it is. -/
def Intersects (m n : Memory) : Prop := ∃ a, m.InWindow a ∧ n.InWindow a

/-- The parts of a map after an attempt to add one more, and the refusal if it was refused. The
parts are given in both cases, so that a run of attempts can go on after a refusal. -/
def attempt (parts : List Memory) (part : Memory) : List Memory × Option OverlapError :=
  match addPart parts part with
  | .ok extended => (extended, none)
  | .error e => (parts, some e)

/-- The parts of a map after several attempts, refused or not. -/
def attempts (parts added : List Memory) : List Memory :=
  added.foldl (fun parts part => (attempt parts part).1) parts

/-- Regions, and maps made of regions and of such maps by any attempts to add them. These are the
memories that a host can make before anything is written. -/
inductive Composed : Memory → Prop
  | region (r : Region) : Composed (.region r)
  | map {added : List Memory} : (∀ part ∈ added, Composed part) →
      Composed (.map (attempts [] added))

theorem addPart_eq_ok_iff {parts extended : List Memory} {part : Memory} :
    addPart parts part = .ok extended ↔ insertPart part 0 parts = some extended := by
  unfold addPart
  cases insertPart part 0 parts <;> simp

/-- All that an attempt can do: take the part in, or refuse it and change nothing. -/
theorem attempt_cases (parts : List Memory) (part : Memory) :
    (∃ extended, insertPart part 0 parts = some extended ∧ attempt parts part = (extended, none)) ∨
      (insertPart part 0 parts = none ∧ attempt parts part = (parts, some ⟨part.base⟩)) := by
  unfold attempt addPart
  cases insertPart part 0 parts with
  | none => exact .inr ⟨rfl, rfl⟩
  | some extended => exact .inl ⟨extended, rfl, rfl⟩

/-- Attempts keep a map well built, whether they succeed or not. It is the step from one addition to
a whole history of them. -/
theorem built_attempts {added parts : List Memory} (hparts : (Memory.map parts).Built)
    (hadded : ∀ part ∈ added, part.Built) : (Memory.map (attempts parts added)).Built := by
  induction added generalizing parts with
  | nil => exact hparts
  | cons part added ih =>
      have hothers : ∀ p ∈ added, p.Built := fun p hp => hadded p (List.mem_cons_of_mem part hp)
      change (Memory.map (attempts (attempt parts part).1 added)).Built
      obtain ⟨extended, hinsert, heq⟩ | ⟨-, heq⟩ := attempt_cases parts part
      · rw [heq]
        exact ih (hparts.add (hadded part List.mem_cons_self) (addPart_eq_ok_iff.mpr hinsert))
          hothers
      · rw [heq]
        exact ih hparts hothers

theorem Composed.built {m : Memory} (h : m.Composed) : m.Built := by
  induction h with
  | region r => exact .region r
  | map _ ih => exact built_attempts .empty ih

/-! ### Order -/

theorem mem_orderedFrom {parts : List Memory} {low : Nat} (h : OrderedFrom low parts)
    {part : Memory} (hpart : part ∈ parts) : low ≤ part.base.toNat ∧ part.Ordered := by
  induction parts generalizing low with
  | nil => cases hpart
  | cons first rest ih =>
      rw [OrderedFrom] at h
      obtain ⟨hlow, hfirst, hrest⟩ := h
      rcases List.mem_cons.mp hpart with rfl | hpart
      · exact ⟨hlow, hfirst⟩
      · have hself := base_le_limit hfirst
        obtain ⟨hle, hordered⟩ := ih hrest hpart
        exact ⟨by omega, hordered⟩

/-- Sub-memories in order of their addresses, each window ending at or before the next one's start.
Between neighbours this is what `OrderedFrom` says; windows that end before the next one starts end
before all later ones. -/
theorem pairwise_of_orderedFrom {parts : List Memory} {low : Nat} (h : OrderedFrom low parts) :
    parts.Pairwise fun a b => a.base ≤ b.base ∧ a.base.toNat + a.span ≤ b.base.toNat := by
  induction parts generalizing low with
  | nil => exact .nil
  | cons first rest ih =>
      rw [OrderedFrom] at h
      obtain ⟨-, hfirst, hrest⟩ := h
      refine .cons (fun part hpart => ?_) (ih hrest)
      have hself := base_le_limit hfirst
      have hlimit := (mem_orderedFrom hrest hpart).1
      rw [base_add_span hfirst, UInt32.le_iff_toNat_le]
      exact ⟨by omega, hlimit⟩

/-- The test that an access makes is membership in the window. -/
theorem contains_iff_inWindow {m : Memory} (h : m.Ordered) (address : UInt32) :
    m.contains address = true ↔ m.InWindow address.toNat := by
  rw [contains_iff, InWindow, base_add_span h]

/-! ### Adding -/

/-- A part is inserted exactly where it meets no other, if no window is empty. An empty window
inside another meets nothing and is refused all the same, which is why the condition is there. -/
theorem isSome_insertPart {part : Memory} (hspan : 0 < part.span)
    {parts : List Memory} {previous : Nat} (hparts : OrderedFrom previous parts)
    (hspans : ∀ p ∈ parts, 0 < p.span) :
    (insertPart part previous parts).isSome = true ↔
      previous ≤ part.base.toNat ∧ ∀ p ∈ parts, ¬ part.Intersects p := by
  induction parts generalizing previous with
  | nil =>
      rw [insertPart]
      split <;> simp <;> omega
  | cons next rest ih =>
      rw [OrderedFrom] at hparts
      obtain ⟨hprevious, hnext, hrest⟩ := hparts
      have hnextSpan := hspans next List.mem_cons_self
      have hnextEnd := base_add_span hnext
      rw [insertPart]
      by_cases hle : part.base ≤ next.base
      · -- the new window comes first: it meets the next one or none
        rw [if_pos hle]
        rw [UInt32.le_iff_toNat_le] at hle
        constructor
        · intro hsome
          have hfree : ¬ (decide (part.base.toNat < previous) ||
              decide (next.base.toNat < part.base.toNat + part.span)) = true := by
            intro hclash
            rw [if_pos hclash] at hsome
            cases hsome
          rw [Bool.or_eq_true, decide_eq_true_eq, decide_eq_true_eq, not_or] at hfree
          refine ⟨by omega, ?_⟩
          rintro p hp ⟨a, hin, hinp⟩
          have hpbase : next.base.toNat ≤ p.base.toNat := by
            rcases List.mem_cons.mp hp with rfl | hp
            · exact Nat.le_refl _
            · have := (mem_orderedFrom hrest hp).1
              omega
          unfold InWindow at hin hinp
          omega
        · rintro ⟨hlow, hfree⟩
          have hmeets : ¬ next.base.toNat < part.base.toNat + part.span := by
            intro hlt
            exact hfree next List.mem_cons_self
              ⟨next.base.toNat, ⟨hle, hlt⟩, ⟨Nat.le_refl _, by omega⟩⟩
          rw [if_neg (by simp only [Bool.or_eq_true, decide_eq_true_eq]; omega)]
          rfl
      · -- it comes later: it meets the next one exactly if it starts before that ends
        rw [if_neg hle, Option.isSome_map, hnextEnd,
          ih hrest fun p hp => hspans p (List.mem_cons_of_mem next hp)]
        rw [UInt32.le_iff_toNat_le] at hle
        constructor
        · rintro ⟨hlimit, hfree⟩
          refine ⟨by omega, ?_⟩
          intro p hp
          rcases List.mem_cons.mp hp with rfl | hp
          · rintro ⟨a, hin, hinp⟩
            unfold InWindow at hin hinp
            omega
          · exact hfree p hp
        · rintro ⟨-, hfree⟩
          refine ⟨?_, fun p hp => hfree p (List.mem_cons_of_mem next hp)⟩
          by_contra hlt
          exact hfree next List.mem_cons_self
            ⟨part.base.toNat, ⟨Nat.le_refl _, by omega⟩, ⟨by omega, by omega⟩⟩

/-- Inserting keeps all the parts and adds the one. -/
theorem perm_insertPart {part : Memory} {previous : Nat} {parts extended : List Memory}
    (h : insertPart part previous parts = some extended) : extended.Perm (part :: parts) := by
  induction parts generalizing previous extended with
  | nil =>
      rw [insertPart] at h
      split at h
      · cases h
      · cases h
        exact .refl _
  | cons next rest ih =>
      rw [insertPart] at h
      split at h
      · split at h
        · cases h
        · cases h
          exact .refl _
      · obtain ⟨inserted, hinserted, rfl⟩ := Option.map_eq_some_iff.mp h
        exact ((ih hinserted).cons next).trans (.swap part next rest)

/-! ### Finding -/

/-- The last part that starts at or below an address is the one that a scan for its window finds. A
part before it has ended by then, and a part after it starts too late. -/
theorem find?_eq_scan {parts : List Memory} {low : Nat} (h : OrderedFrom low parts)
    (address : UInt32) :
    find? address parts = parts.find? fun part => decide (part.InWindow address.toNat) := by
  induction parts generalizing low with
  | nil => rfl
  | cons part rest ih =>
      rw [OrderedFrom] at h
      obtain ⟨-, hpart, hrest⟩ := h
      have hend := base_add_span hpart
      rw [find?]
      by_cases hon : (decide (firstBase rest ≤ address) && !rest.isEmpty) = true
      · obtain ⟨hfirst, hne⟩ := goesOn_iff.mp hon
        have hnext := limit_le_firstBase hrest hne
        have hout : ¬ part.InWindow address.toNat := by
          unfold InWindow
          omega
        rw [if_pos hon, ih hrest, List.find?_cons_of_neg (by simpa using hout)]
      · rw [if_neg hon]
        by_cases hin : part.contains address = true
        · rw [if_pos hin,
            List.find?_cons_of_pos (by simpa using (contains_iff_inWindow hpart address).mp hin)]
        · -- every later part starts above the address
          have hlater : ∀ p ∈ rest, ¬ p.InWindow address.toNat := by
            intro p hp hwindow
            cases rest with
            | nil => cases hp
            | cons next others =>
                have hstart : address.toNat < next.base.toNat := by
                  by_contra hle
                  exact hon (goesOn_iff.mpr ⟨by rw [firstBase]; omega, by simp⟩)
                have hbase : next.base.toNat ≤ p.base.toNat := by
                  rw [OrderedFrom] at hrest
                  have hself := base_le_limit hrest.2.1
                  rcases List.mem_cons.mp hp with rfl | hp
                  · exact Nat.le_refl _
                  · have := (mem_orderedFrom hrest.2.2 hp).1
                    omega
                unfold InWindow at hwindow
                omega
          have hout : ¬ part.InWindow address.toNat :=
            fun hwindow => hin ((contains_iff_inWindow hpart address).mpr hwindow)
          rw [if_neg hin, List.find?_cons_of_neg (by simpa using hout), eq_comm,
            List.find?_eq_none]
          simpa using hlater

/-! ### Bisection -/

/-- Adds a sub-memory to the parts of a map: finds the place by bisection, looks at the windows
before and after it, and makes room. Only these two windows are compared with the new one. -/
def placeByBisection (parts : List Memory) (part : Memory) : List Memory × Option OverlapError :=
  let i := firstWhere (fun j => parts[j]?.any fun p => part.base ≤ p.base) 0 parts.length
  let before := if i = 0 then none else parts[i - 1]?
  if before.any fun p => part.base.toNat < p.base.toNat + p.span then (parts, some ⟨part.base⟩)
  else if parts[i]?.any fun p => p.base.toNat < part.base.toNat + part.span then
    (parts, some ⟨part.base⟩)
  else (parts.take i ++ part :: parts.drop i, none)

/-- Finds the part whose window contains an address by bisection: the one before the first that
starts above the address, if its window reaches that far. -/
def findByBisection (address : UInt32) (parts : List Memory) : Option Memory :=
  let i := firstWhere (fun j => parts[j]?.any fun p => address < p.base) 0 parts.length
  let before := if i = 0 then none else parts[i - 1]?
  before.filter fun p => decide (p.InWindow address.toNat)

/-- A part that starts after some parts and before the others meets its two neighbours, or is
inserted between them. The walk along the parts is cut where bisection would cut it. -/
theorem insertPart_append {part : Memory} {front back : List Memory} (previous : Nat)
    (hfront : ∀ p ∈ front, (decide (part.base ≤ p.base)) = false)
    (hback : ∀ p ∈ back, (decide (part.base ≤ p.base)) = true) :
    insertPart part previous (front ++ back) =
      if part.base.toNat < front.getLast?.elim previous (fun p => p.base.toNat + p.span) ∨
        (back.head?.any fun p => p.base.toNat < part.base.toNat + part.span) = true then none
      else some (front ++ part :: back) := by
  induction front generalizing previous with
  | nil =>
      cases back with
      | nil => simp [insertPart]
      | cons next rest =>
          have hnext : part.base ≤ next.base := by simpa using hback next List.mem_cons_self
          simp [insertPart, hnext]
  | cons first front ih =>
      have hfirst : ¬ part.base ≤ first.base := by simpa using hfront first List.mem_cons_self
      have hrest := ih (first.base.toNat + first.span)
        fun p hp => hfront p (List.mem_cons_of_mem first hp)
      have hlast : (first :: front).getLast?.elim previous (fun p => p.base.toNat + p.span) =
          front.getLast?.elim (first.base.toNat + first.span) (fun p => p.base.toNat + p.span) := by
        rw [List.getLast?_cons]
        cases front.getLast? <;> rfl
      rw [List.cons_append, insertPart, if_neg hfirst, hrest, hlast]
      split <;> rfl

/-- The search gives the last part of the front, if its window contains the address. -/
theorem find?_append {address : UInt32} {front back : List Memory}
    (hfront : ∀ p ∈ front, (decide (address < p.base)) = false)
    (hback : ∀ p ∈ back, (decide (address < p.base)) = true) :
    find? address (front ++ back) = front.getLast?.filter fun p => p.contains address := by
  have hstop : ∀ rest : List Memory, (∀ p ∈ rest, (decide (address < p.base)) = true) →
      ¬ (decide (firstBase rest ≤ address) && !rest.isEmpty) = true := by
    intro rest hrest hon
    obtain ⟨hfirst, hne⟩ := goesOn_iff.mp hon
    obtain ⟨next, others, rfl⟩ := List.exists_cons_of_ne_nil hne
    have hlt := of_decide_eq_true (hrest next List.mem_cons_self)
    rw [UInt32.lt_iff_toNat_lt] at hlt
    rw [firstBase] at hfirst
    omega
  induction front with
  | nil =>
      cases back with
      | nil => rfl
      | cons next rest =>
          have hlt := of_decide_eq_true (hback next List.mem_cons_self)
          have hout : ¬ next.contains address = true := by
            rw [contains_iff]
            rw [UInt32.lt_iff_toNat_lt] at hlt
            omega
          have hrest := hstop rest fun p hp => hback p (List.mem_cons_of_mem next hp)
          rw [List.nil_append, find?, if_neg hrest, if_neg hout]
          rfl
  | cons first front ih =>
      rw [List.cons_append, find?, List.getLast?_cons]
      cases front with
      | nil =>
          rw [List.nil_append, if_neg (hstop back hback)]
          rfl
      | cons second front =>
          have hsecond : ¬ address < second.base := by
            simpa using hfront second (List.mem_cons_of_mem _ List.mem_cons_self)
          have hon : (decide (firstBase (second :: front ++ back) ≤ address) &&
              !(second :: front ++ back).isEmpty) = true := by
            rw [UInt32.lt_iff_toNat_lt] at hsecond
            refine goesOn_iff.mpr ⟨?_, by simp⟩
            rw [List.cons_append, firstBase]
            omega
          rw [if_pos hon, ih fun p hp => hfront p (List.mem_cons_of_mem first hp),
            List.getLast?_cons]
          rfl

/-- The neighbour before a cut is the last of the front. A cut at the very start has none. -/
theorem getElem?_before_cut {front back : List Memory} :
    (if front.length = 0 then none else (front ++ back)[front.length - 1]?) = front.getLast? := by
  cases front with
  | nil => rfl
  | cons first front =>
      rw [if_neg (by simp), List.getElem?_append_left (by simp), List.getLast?_eq_getElem?]

/-- Bisection puts a part where walking along the parts puts it. The bases are in order, so there is
one cut, and both look at its two sides. -/
theorem placeByBisection_eq {parts : List Memory} {low : Nat} (h : OrderedFrom low parts)
    (part : Memory) : placeByBisection parts part = attempt parts part := by
  have hsorted : parts.Pairwise fun a b =>
      decide (part.base ≤ a.base) = true → decide (part.base ≤ b.base) = true := by
    refine (pairwise_of_orderedFrom h).imp fun {a b} hab ha => ?_
    exact decide_eq_true (UInt32.le_trans (of_decide_eq_true ha) hab.1)
  obtain ⟨front, back, rfl, hindex, hfront, hback⟩ := firstWhere_cut hsorted
  have hinsert := insertPart_append 0 hfront hback
  have hhead : (front ++ back)[front.length]? = back.head? := by
    rw [List.getElem?_append_right (Nat.le_refl _), Nat.sub_self, List.head?_eq_getElem?]
  have hbefore : (front.getLast?.any fun p => part.base.toNat < p.base.toNat + p.span) = true ↔
      part.base.toNat < front.getLast?.elim 0 fun p => p.base.toNat + p.span := by
    cases front.getLast? <;> simp
  unfold placeByBisection attempt addPart
  simp only [hindex, getElem?_before_cut, hhead, hinsert, List.take_left, List.drop_left]
  by_cases hlast : part.base.toNat < front.getLast?.elim 0 fun p => p.base.toNat + p.span
  · rw [if_pos (hbefore.mpr hlast), if_pos (.inl hlast)]
  · rw [if_neg (hbefore.not.mpr hlast)]
    by_cases hnext : (back.head?.any fun p => p.base.toNat < part.base.toNat + part.span) = true
    · rw [if_pos hnext, if_pos (.inr hnext)]
    · rw [if_neg hnext, if_neg (not_or.mpr ⟨hlast, hnext⟩)]

/-- Bisection finds the part that walking along the parts finds, for the same reason. -/
theorem findByBisection_eq {parts : List Memory} {low : Nat} (h : OrderedFrom low parts)
    (address : UInt32) : findByBisection address parts = find? address parts := by
  have hsorted : parts.Pairwise fun a b =>
      decide (address < a.base) = true → decide (address < b.base) = true := by
    refine (pairwise_of_orderedFrom h).imp fun {a b} hab ha => ?_
    exact decide_eq_true (UInt32.lt_of_lt_of_le (of_decide_eq_true ha) hab.1)
  obtain ⟨front, back, rfl, hindex, hfront, hback⟩ := firstWhere_cut hsorted
  unfold findByBisection
  rw [find?_append hfront hback]
  simp only [hindex, getElem?_before_cut]
  cases hlast : front.getLast? with
  | none => rfl
  | some last =>
      have hmem : last ∈ front ++ back := List.mem_append_left back (List.mem_of_getLast? hlast)
      have hwindow := contains_iff_inWindow (mem_orderedFrom h hmem).2 address
      simp only [Option.filter_some, decide_eq_true_eq, hwindow]

/-- An access to a map is one to the part that is found for its address. The search for a region has
the search for a part built in; here the two are taken apart. -/
theorem leafAmong?_eq (address : UInt32) (parts : List Memory) :
    leafAmong? address parts = (find? address parts).bind (leaf? address) := by
  induction parts with
  | nil => rfl
  | cons part rest ih =>
      rw [leafAmong?, find?, ih]
      split
      · rfl
      · split <;> rfl

/-- Bisection at each level leads to the region that an access goes to. -/
theorem leaf?_map_eq {parts : List Memory} {low : Nat} (h : OrderedFrom low parts)
    (address : UInt32) :
    (Memory.map parts).leaf? address = (findByBisection address parts).bind (leaf? address) := by
  rw [leaf?, leafAmong?_eq, findByBisection_eq h]

/-! ### Regions -/

mutual

/-- The regions of a memory lie inside its window, however deep they are. -/
theorem regions_within {r : Region} : ∀ {m : Memory}, m.Ordered → r ∈ m.regions →
    m.base.toNat ≤ r.base.toNat ∧ r.base.toNat + r.size ≤ m.limit
  | .region s, _, hr => by
      rw [regions, List.mem_singleton] at hr
      subst hr
      exact ⟨Nat.le_refl _, Nat.le_refl _⟩
  | .map parts, h, hr => by
      rw [Ordered] at h
      rw [regions] at hr
      rw [base, limit]
      exact (regionsOf_within h hr).2

theorem regionsOf_within {r : Region} : ∀ {parts : List Memory} {low : Nat}, OrderedFrom low parts →
    r ∈ regionsOf parts → low ≤ r.base.toNat ∧ (firstBase parts).toNat ≤ r.base.toNat ∧
      r.base.toNat + r.size ≤ lastLimit parts
  | [], _, _, hr => by
      rw [regionsOf] at hr
      cases hr
  | part :: rest, _, h, hr => by
      rw [OrderedFrom] at h
      obtain ⟨hlow, hpart, hrest⟩ := h
      have hself := base_le_limit hpart
      rw [regionsOf, List.mem_append] at hr
      rw [firstBase, lastLimit]
      rcases hr with hr | hr
      · obtain ⟨hbase, hlimit⟩ := regions_within hpart hr
        refine ⟨by omega, hbase, ?_⟩
        split
        · exact hlimit
        · rename_i hne
          have hnext := limit_le_firstBase hrest (by simpa using hne)
          have hlast := firstBase_le_lastLimit hrest
          omega
      · obtain ⟨hbase, -, hlimit⟩ := regionsOf_within hrest hr
        refine ⟨by omega, by omega, ?_⟩
        rw [if_neg]
        · exact hlimit
        · intro hempty
          rw [List.isEmpty_iff.mp hempty, regionsOf] at hr
          cases hr

end

/-- A memory whose window does not contain an address has no region that does. -/
theorem not_contains_of_mem_regions {m : Memory} (h : m.Ordered) {address : UInt32}
    (hout : ¬ m.contains address = true) {r : Region} (hr : r ∈ m.regions) :
    ¬ r.contains address = true := by
  rw [Region.contains_iff]
  rw [contains_iff] at hout
  have hwithin := regions_within h hr
  omega

/-- Where a walk along the parts goes past one, no region of that one contains the address. -/
theorem not_contains_before {part : Memory} {rest : List Memory} (hpart : part.Ordered)
    (hrest : OrderedFrom part.limit rest) {address : UInt32}
    (hon : (decide (firstBase rest ≤ address) && !rest.isEmpty) = true) :
    ∀ r ∈ part.regions, ¬ r.contains address = true := by
  obtain ⟨hfirst, hne⟩ := goesOn_iff.mp hon
  have hnext := limit_le_firstBase hrest hne
  intro r hr
  refine not_contains_of_mem_regions hpart ?_ hr
  rw [contains_iff]
  omega

/-- Where a walk along the parts stops, no region of a later part contains the address. -/
theorem not_contains_after {low : Nat} {rest : List Memory} (hrest : OrderedFrom low rest)
    {address : UInt32} (hstop : ¬ (decide (firstBase rest ≤ address) && !rest.isEmpty) = true) :
    ∀ r ∈ regionsOf rest, ¬ r.contains address = true := by
  intro r hr hin
  rw [Region.contains_iff] at hin
  have hwithin := regionsOf_within hrest hr
  refine hstop (goesOn_iff.mpr ⟨by omega, ?_⟩)
  rintro rfl
  rw [regionsOf] at hr
  cases hr

mutual

/-- The regions that contain an address: the one that an access goes to, or none. In a memory that
is a single region the access goes there even if the address is outside, so both sides are
filtered. -/
theorem filter_regions {address : UInt32} : ∀ {m : Memory}, m.Ordered →
    m.regions.filter (fun r => r.contains address) =
      (m.leaf? address).toList.filter fun r => r.contains address
  | .region r, _ => by
      rw [regions, leaf?, Option.toList_some]
  | .map parts, h => by
      rw [Ordered] at h
      rw [regions, leaf?]
      exact filter_regionsOf h

theorem filter_regionsOf {address : UInt32} : ∀ {parts : List Memory} {low : Nat},
    OrderedFrom low parts → (regionsOf parts).filter (fun r => r.contains address) =
      (leafAmong? address parts).toList.filter fun r => r.contains address
  | [], _, _ => by
      rw [regionsOf, leafAmong?]
      rfl
  | part :: rest, _, h => by
      rw [OrderedFrom] at h
      obtain ⟨-, hpart, hrest⟩ := h
      rw [regionsOf, leafAmong?, List.filter_append]
      split
      · rename_i hon
        rw [List.filter_eq_nil_iff.mpr (not_contains_before hpart hrest hon), List.nil_append,
          filter_regionsOf hrest]
      · rename_i hstop
        rw [List.filter_eq_nil_iff.mpr (not_contains_after hrest hstop), List.append_nil]
        split
        · exact filter_regions hpart
        · rename_i hout
          exact List.filter_eq_nil_iff.mpr fun r hr => not_contains_of_mem_regions hpart hout hr

end

mutual

/-- Inside the window of a memory, an access goes only to a region that contains its address. In a
map this holds without the condition, since the window of each part is asked on the way down. -/
theorem contains_of_leaf {address : UInt32} {r : Region} : ∀ {m : Memory},
    m.contains address = true → m.leaf? address = some r → r.contains address = true
  | .region s, hin, h => by
      rw [leaf?, Option.some.injEq] at h
      subst h
      exact Region.contains_iff.mpr (contains_iff.mp hin)
  | .map parts, _, h => by
      rw [leaf?] at h
      exact contains_of_leafAmong h

theorem contains_of_leafAmong {address : UInt32} {r : Region} : ∀ {parts : List Memory},
    leafAmong? address parts = some r → r.contains address = true
  | [], h => by
      rw [leafAmong?] at h
      cases h
  | part :: rest, h => by
      rw [leafAmong?] at h
      split at h
      · exact contains_of_leafAmong h
      · split at h
        · rename_i hin
          exact contains_of_leaf hin h
        · cases h

end

/-! ### Changes -/

mutual

/-- Where no region passes the test, nothing changes. -/
theorem updateWhere_eq_self {test : Region → Bool} {f : Region → Region} : ∀ {m : Memory},
    (∀ r ∈ m.regions, ¬ test r = true) → m.updateWhere test f = m
  | .region r, h => by
      rw [updateWhere, if_neg (h r (by rw [regions]; exact List.mem_singleton_self r))]
  | .map parts, h => by
      rw [regions] at h
      rw [updateWhere, updatePartsWhere_eq_self h]

theorem updatePartsWhere_eq_self {test : Region → Bool} {f : Region → Region} :
    ∀ {parts : List Memory}, (∀ r ∈ regionsOf parts, ¬ test r = true) →
      updatePartsWhere test f parts = parts
  | [], _ => by rw [updatePartsWhere]
  | part :: rest, h => by
      rw [regionsOf] at h
      rw [updatePartsWhere, updateWhere_eq_self fun r hr => h r (List.mem_append_left _ hr),
        updatePartsWhere_eq_self fun r hr => h r (List.mem_append_right _ hr)]

end

mutual

/-- Inside the window of a memory, changing the region that an access goes to changes the regions
that contain its address. The first walks down to one region, the second goes through all of
them. -/
theorem updateLeaf_eq_updateWhere {address : UInt32} {f : Region → Region} : ∀ {m : Memory},
    m.Ordered → m.contains address = true →
      m.updateLeaf address f = m.updateWhere (fun r => r.contains address) f
  | .region r, _, hin => by
      rw [updateLeaf, updateWhere, if_pos (Region.contains_iff.mpr (contains_iff.mp hin))]
  | .map parts, h, _ => by
      rw [Ordered] at h
      rw [updateLeaf, updateWhere, updateAmong_eq_updatePartsWhere h]

theorem updateAmong_eq_updatePartsWhere {address : UInt32} {f : Region → Region} :
    ∀ {parts : List Memory} {low : Nat}, OrderedFrom low parts →
      updateAmong address f parts = updatePartsWhere (fun r => r.contains address) f parts
  | [], _, _ => by rw [updateAmong, updatePartsWhere]
  | part :: rest, _, h => by
      rw [OrderedFrom] at h
      obtain ⟨-, hpart, hrest⟩ := h
      rw [updateAmong, updatePartsWhere]
      split
      · rename_i hon
        rw [updateWhere_eq_self (not_contains_before hpart hrest hon),
          updateAmong_eq_updatePartsWhere hrest]
      · rename_i hstop
        rw [updatePartsWhere_eq_self (not_contains_after hrest hstop)]
        split
        · rename_i hin
          rw [updateLeaf_eq_updateWhere hpart hin]
        · rename_i hout
          rw [updateWhere_eq_self fun r hr => not_contains_of_mem_regions hpart hout hr]

end

mutual

/-- Only the change of the regions that pass the test matters; two functions that agree on those do
the same. -/
theorem updateWhere_congr {test : Region → Bool} {f g : Region → Region} : ∀ {m : Memory},
    (∀ r ∈ m.regions, test r = true → f r = g r) → m.updateWhere test f = m.updateWhere test g
  | .region r, h => by
      rw [updateWhere, updateWhere]
      split
      · rename_i htest
        rw [h r (by rw [regions]; exact List.mem_singleton_self r) htest]
      · rfl
  | .map parts, h => by
      rw [regions] at h
      rw [updateWhere, updateWhere, updatePartsWhere_congr h]

theorem updatePartsWhere_congr {test : Region → Bool} {f g : Region → Region} :
    ∀ {parts : List Memory}, (∀ r ∈ regionsOf parts, test r = true → f r = g r) →
      updatePartsWhere test f parts = updatePartsWhere test g parts
  | [], _ => by rw [updatePartsWhere, updatePartsWhere]
  | part :: rest, h => by
      rw [regionsOf] at h
      rw [updatePartsWhere, updatePartsWhere,
        updateWhere_congr fun r hr => h r (List.mem_append_left _ hr),
        updatePartsWhere_congr fun r hr => h r (List.mem_append_right _ hr)]

end

/-! ### Accesses -/

/-- A memory with a region in the place of those that contain an address. It does not search, so it
says what a write changes without saying how that is found. -/
def putAt (m : Memory) (address : UInt32) (r : Region) : Memory :=
  m.updateWhere (fun s => s.contains address) fun _ => r

/-- One region alone contains an address, and every access there is that access to this region: it
is permitted or refused as the region says, with the region's error, and a write replaces this
region and nothing else. -/
structure GoesTo (m : Memory) (address : UInt32) (r : Region) : Prop where
  unique : m.regions.filter (fun s => s.contains address) = [r]
  check : ∀ kind count, m.check kind address count = r.check kind address count
  read : ∀ count, m.read address count = r.read address count
  readNat : ∀ width, m.readNat address width = (Memory.region r).readNat address width
  readByte : m.readByte address = (Memory.region r).readByte address
  write : ∀ data, m.write address data = (r.write address data).map (m.putAt address)
  writeNat : ∀ width value, m.writeNat address width value =
    (r.write address (toBigEndian width value)).map (m.putAt address)

/-- No region contains an address, and every access there is refused as out of bounds, also one of
no bytes. -/
structure GoesNowhere (m : Memory) (address : UInt32) : Prop where
  absent : ∀ r ∈ m.regions, ¬ r.contains address = true
  check : ∀ kind count, m.check kind address count = .error .outOfBounds
  read : ∀ count, m.read address count = .error .outOfBounds
  readNat : ∀ width, m.readNat address width = .error .outOfBounds
  readByte : m.readByte address = .error .outOfBounds
  write : ∀ data, m.write address data = .error .outOfBounds
  writeNat : ∀ width value, m.writeNat address width value = .error .outOfBounds

/-- Where the search finds a region, every access goes to it. -/
theorem goesTo_of_leaf {parts : List Memory} {low : Nat} (h : OrderedFrom low parts)
    {address : UInt32} {r : Region} (hleaf : leafAmong? address parts = some r) :
    GoesTo (.map parts) address r := by
  have hin : r.contains address = true := contains_of_leafAmong hleaf
  have hunique : (Memory.map parts).regions.filter (fun s => s.contains address) = [r] := by
    rw [regions, filter_regionsOf h, hleaf]
    simp [hin]
  have hleaf : (Memory.map parts).leaf? address = some r := by rwa [leaf?]
  have hcheck (kind : AccessKind) (count : Nat) :
      (Memory.map parts).check kind address count = r.check kind address count := by
    rw [Memory.check, hleaf]
  have hread (count : Nat) : (Memory.map parts).read address count = r.read address count := by
    rw [Memory.read, hleaf]
  have hpoke (data : List UInt8) : (Memory.map parts).poke address data =
      (Memory.map parts).putAt address (r.poke address data) := by
    have hplaces : (Memory.map parts).updateLeaf address (fun s => s.poke address data) =
        (Memory.map parts).updateWhere (fun s => s.contains address) fun s =>
          s.poke address data := by
      rw [updateLeaf, updateWhere, updateAmong_eq_updatePartsWhere h]
    rw [poke, hplaces, putAt]
    refine updateWhere_congr fun s hs hcontains => ?_
    have hmem : s ∈ [r] := hunique ▸ List.mem_filter.mpr ⟨hs, hcontains⟩
    rw [List.mem_singleton.mp hmem]
  have hreadNat (width : Nat) :
      (Memory.map parts).readNat address width = (Memory.region r).readNat address width := by
    rw [Memory.readNat, hread]
    rfl
  have hwrite (data : List UInt8) : (Memory.map parts).write address data =
      (r.write address data).map ((Memory.map parts).putAt address) := by
    rw [Memory.write, hcheck, hpoke, Region.write]
    cases r.check .write address data.length <;> rfl
  exact ⟨hunique, hcheck, hread, hreadNat, by rw [Memory.readByte, hreadNat]; rfl, hwrite,
    fun width value => hwrite (toBigEndian width value)⟩

/-- Where the search finds none, no region contains the address. -/
theorem goesNowhere_of_leaf {parts : List Memory} {low : Nat} (h : OrderedFrom low parts)
    {address : UInt32} (hleaf : leafAmong? address parts = none) :
    GoesNowhere (.map parts) address := by
  have habsent : (regionsOf parts).filter (fun s => s.contains address) = [] := by
    rw [filter_regionsOf h, hleaf]
    rfl
  have hleaf : (Memory.map parts).leaf? address = none := by rwa [leaf?]
  have hcheck (kind : AccessKind) (count : Nat) :
      (Memory.map parts).check kind address count = .error .outOfBounds := by
    rw [Memory.check, hleaf]
  have hread (count : Nat) : (Memory.map parts).read address count = .error .outOfBounds := by
    rw [Memory.read, hleaf]
  have hreadNat (width : Nat) : (Memory.map parts).readNat address width = .error .outOfBounds := by
    rw [Memory.readNat, hread]
    rfl
  have hwrite (data : List UInt8) :
      (Memory.map parts).write address data = .error .outOfBounds := by
    rw [Memory.write, hcheck]
    rfl
  refine ⟨?_, hcheck, hread, hreadNat, by rw [Memory.readByte, hreadNat]; rfl, hwrite,
    fun width value => hwrite (toBigEndian width value)⟩
  rw [regions]
  exact List.filter_eq_nil_iff.mp habsent

/-- What adding a sub-memory to the parts of a map does. A refusal names the base of the window that
was refused, and leaves the parts alone; it happens, where no window is empty, only for windows that
meet. -/
structure Adds (parts : List Memory) (part : Memory) : Prop where
  bisection : placeByBisection parts part = attempt parts part
  refused : ∀ e, addPart parts part = .error e →
    e = ⟨part.base⟩ ∧ attempt parts part = (parts, some e)
  accepted : ∀ extended, addPart parts part = .ok extended → extended.Perm (part :: parts)
  accepts_iff : (∀ p ∈ part :: parts, 0 < p.span) →
    ((∃ extended, addPart parts part = .ok extended) ↔ ∀ p ∈ parts, ¬ part.Intersects p)

/-- Parts in order are all that an addition needs. The sub-memory itself can be anything. -/
theorem adds_of_orderedFrom {parts : List Memory} (h : OrderedFrom 0 parts) (part : Memory) :
    Adds parts part := by
  refine ⟨placeByBisection_eq h part, ?_, ?_, ?_⟩
  · intro e he
    unfold attempt
    rw [he]
    rw [addPart] at he
    split at he
    · cases he
    · cases he
      exact ⟨rfl, rfl⟩
  · intro extended hextended
    exact perm_insertPart (addPart_eq_ok_iff.mp hextended)
  · intro hspans
    have hsome := isSome_insertPart (hspans part List.mem_cons_self) h
      fun p hp => hspans p (List.mem_cons_of_mem part hp)
    simp only [addPart_eq_ok_iff, ← Option.isSome_iff_exists, hsome, Nat.zero_le, true_and]

/-- Maps hold what was added to them in order and apart. A refused addition changes nothing and
happens, where no window is empty, only for windows that meet. A walk along the parts and bisection
both find the part that a scan finds, an access to the map is one to that part, and every access
goes to the one region that contains its address. All of it rests on the order of the parts
(`OrderedFrom`), which every attempt to add one keeps. -/
theorem composed_map_dispatches {parts : List Memory} (h : (Memory.map parts).Composed) :
    (parts.Pairwise fun a b => a.base ≤ b.base ∧ a.base.toNat + a.span ≤ b.base.toNat) ∧
      (∀ part : Memory, part.Composed → Adds parts part) ∧
      (∀ address, findByBisection address parts = find? address parts ∧
        find? address parts = (parts.find? fun part => decide (part.InWindow address.toNat)) ∧
        (Memory.map parts).leaf? address = (findByBisection address parts).bind (leaf? address)) ∧
      ∀ address, (∃ r, GoesTo (.map parts) address r) ∨ GoesNowhere (.map parts) address := by
  have hordered : OrderedFrom 0 parts := by
    have hmap := h.built.ordered
    rwa [Ordered] at hmap
  refine ⟨pairwise_of_orderedFrom hordered, fun part _ => adds_of_orderedFrom hordered part,
    fun address => ⟨findByBisection_eq hordered address, find?_eq_scan hordered address,
      leaf?_map_eq hordered address⟩, ?_⟩
  intro address
  cases hleaf : leafAmong? address parts with
  | none => exact .inr (goesNowhere_of_leaf hordered hleaf)
  | some r => exact .inl ⟨r, goesTo_of_leaf hordered hleaf⟩

/-- A map with a map inside that has a gap, an empty window at the end of another one, and a region
refused because it meets the first. -/
def terraced : List Memory :=
  attempts []
    [.map (attempts []
      [.region (.ofBytes "high" 0x30 [5, 6] ⟨true, true⟩),
        .region (.ofBytes "low" 0x20 [3, 4] ⟨true, false⟩)]),
      .region (.ofBytes "first" 0x10 [1, 2] ⟨true, true⟩),
      .region (.ofBytes "refused" 0x11 [9] ⟨true, true⟩),
      .region (.ofBytes "empty" 0x12 [] ⟨true, true⟩)]

theorem composed_map_dispatches_terraced :
    (Memory.map terraced).Composed ∧ terraced.length = 3 ∧
      (∃ r, r.name = "high" ∧ GoesTo (.map terraced) 0x31 r) ∧
      GoesNowhere (.map terraced) 0x28 := by
  have hcomposed : (Memory.map terraced).Composed := by
    refine .map fun part hpart => ?_
    simp only [List.mem_cons, List.not_mem_nil, or_false] at hpart
    rcases hpart with rfl | rfl | rfl | rfl
    · refine .map fun part hpart => ?_
      simp only [List.mem_cons, List.not_mem_nil, or_false] at hpart
      rcases hpart with rfl | rfl <;> exact .region _
    all_goals exact .region _
  obtain ⟨-, -, -, hgoes⟩ := composed_map_dispatches hcomposed
  refine ⟨hcomposed, by decide, ?_, ?_⟩
  · obtain ⟨r, hto⟩ | hnowhere := hgoes 0x31
    · have hname : ((Memory.map terraced).regions.filter fun s => s.contains 0x31).map Region.name =
          ["high"] := by decide
      rw [hto.unique] at hname
      exact ⟨r, List.singleton_inj.mp hname, hto⟩
    · exact absurd (hnowhere.read 1) (by decide)
  · refine (hgoes 0x28).resolve_left ?_
    rintro ⟨r, hto⟩
    have hnone : ((Memory.map terraced).regions.filter fun s => s.contains 0x28).length = 0 := by
      decide
    rw [hto.unique] at hnone
    cases hnone

end Memory

end RegisterVM
