import RegisterVM.Proofs.ByteAccess

/-!
# Memory that is written and extended

Writes change contents and never the layout, and they do not reach a region that refuses them:
`Written` relates a memory to all that it can become. A map is extended by adding a part; one that
starts where all others have ended comes last, and accesses below it do not notice.
-/

namespace RegisterVM

/-! ### Zeros -/

theorem toList_zeroBytes (count : Nat) :
    (zeroBytes count).data.toList = List.replicate count 0 := by
  fun_induction zeroBytes count with
  | case1 => rfl
  | case2 count hpos half heven ih =>
      have hcount : count / 2 + count / 2 = count := by omega
      rw [ByteArray.data_append, Array.toList_append, ih, ← List.replicate_add, hcount]
  | case3 count hpos half hodd ih =>
      have hcount : count / 2 + count / 2 + 1 = count := by omega
      rw [ByteArray.data_push, Array.toList_push, ByteArray.data_append, Array.toList_append, ih,
        ← List.replicate_add, ← List.replicate_succ', hcount]

theorem Region.size_zeros (name : String) (base : UInt32) (size : Nat) (permission : Permission) :
    (Region.zeros name base size permission).size = size := by
  rw [← Region.length_bytes, zeros, toList_zeroBytes, List.length_replicate]

theorem Region.size_ofBytes (name : String) (base : UInt32) (bytes : List UInt8)
    (permission : Permission) : (Region.ofBytes name base bytes permission).size = bytes.length :=
  List.size_toArray

/-! ### States of a memory -/

namespace Memory

/-- Memories that writes lead to, any number of them at any addresses. A write that is refused gives
no memory and is not a step. -/
inductive Written (m : Memory) : Memory → Prop
  | refl : Written m m
  | write {m₁ m₂ : Memory} {address : UInt32} {data : List UInt8} : Written m m₁ →
      m₁.write address data = .ok m₂ → Written m m₂

/-- Writing keeps the layout. -/
theorem Written.blank {m m' : Memory} (h : m.Written m') : m'.blank = m.blank := by
  induction h with
  | refl => rfl
  | write _ hwrite ih =>
      obtain ⟨-, rfl⟩ := write_eq_ok_iff.mp hwrite
      rw [blank_poke, ih]

/-- What refuses writes stays as it is: the region at a protected address is the same one, contents
included. -/
theorem Written.leaf_of_protected {m m' : Memory} (h : m.Written m') {a : UInt32}
    (hprotected : m.writeProtected a = true) : m'.leaf? a = m.leaf? a := by
  induction h with
  | refl => rfl
  | @write m₁ m₂ address data _ hwrite ih =>
      obtain ⟨hcheck, rfl⟩ := write_eq_ok_iff.mp hwrite
      have hstill : m₁.writeProtected a = true := by
        rw [writeProtected, ih]
        exact hprotected
      rw [leaf_poke_of_writeProtected hcheck hstill, ih]

/-- A region that contains an address is the one that accesses there go to, since no other does. -/
theorem leaf_of_contains {m : Memory} (hm : m.Ordered) {r : Region} {a : UInt32}
    (hr : r ∈ m.regions) (hin : r.contains a = true) : m.leaf? a = some r := by
  have hmem : r ∈ m.regions.filter fun s => s.contains a := List.mem_filter.mpr ⟨hr, hin⟩
  rw [filter_regions hm, List.mem_filter, Option.mem_toList] at hmem
  exact hmem.1

theorem mem_regionsOf {parts : List Memory} {r : Region} :
    r ∈ regionsOf parts ↔ ∃ part ∈ parts, r ∈ part.regions := by
  induction parts with
  | nil => simp [regionsOf]
  | cons first rest ih => rw [regionsOf, List.mem_append, ih, List.exists_mem_cons_iff]

/-- Memories of one layout have parts with the same windows. So what may be added to one of them may
be added to the other. -/
theorem window_of_blank {parts parts' : List Memory} (h : blankParts parts = blankParts parts')
    {p : Memory} (hp : p ∈ parts) : ∃ q ∈ parts', q.base = p.base ∧ q.span = p.span := by
  have hmap (list : List Memory) : blankParts list = list.map blank := by
    induction list with
    | nil => rfl
    | cons first rest ih => rw [blankParts, ih, List.map_cons]
  rw [hmap, hmap] at h
  have hblank : p.blank ∈ parts'.map blank := h ▸ List.mem_map_of_mem hp
  obtain ⟨q, hq, hqp⟩ := List.mem_map.mp hblank
  have hbase : q.base = p.base := by rw [← base_blank q, hqp, base_blank]
  refine ⟨q, hq, hbase, ?_⟩
  rw [span, span, hbase, ← limit_blank q, hqp, limit_blank]

/-! ### Adding at the end -/

/-- A part that starts where all others have ended is added after them. It is the only kind of
addition that an importer makes. -/
theorem addPart_last {parts : List Memory} {part : Memory}
    (h : ∀ p ∈ parts, p.base < part.base ∧ p.base.toNat + p.span ≤ part.base.toNat) :
    addPart parts part = .ok (parts ++ [part]) := by
  have hfront : ∀ p ∈ parts, (decide (part.base ≤ p.base)) = false := by
    intro p hp
    rw [decide_eq_false_iff_not, UInt32.not_le]
    exact (h p hp).1
  have hback : ∀ p ∈ ([] : List Memory), (decide (part.base ≤ p.base)) = true := by simp
  have hinsert := insertPart_append 0 hfront hback
  rw [List.append_nil, if_neg] at hinsert
  · exact addPart_eq_ok_iff.mpr hinsert
  · cases hlast : parts.getLast? with
    | none => simp
    | some last =>
        have hend := (h last (List.mem_of_getLast? hlast)).2
        simp
        omega

/-- A part above an address is not looked at for it: the test whether to go on is the same with and
without it. -/
theorem goesOn_append_last {rest : List Memory} {part : Memory} {a : UInt32} (h : a < part.base) :
    (decide (firstBase (rest ++ [part]) ≤ a) && !(rest ++ [part]).isEmpty) =
      (decide (firstBase rest ≤ a) && !rest.isEmpty) := by
  cases rest with
  | nil => simpa [firstBase, UInt32.not_le] using h
  | cons next others => rfl

/-- Accesses below a part that was added at the end go where they went before. -/
theorem leafAmong_append_last {parts : List Memory} {part : Memory} {a : UInt32}
    (h : a < part.base) : leafAmong? a (parts ++ [part]) = leafAmong? a parts := by
  induction parts with
  | nil =>
      have hout : ¬ part.contains a = true := by
        rw [contains_iff]
        rw [UInt32.lt_iff_toNat_lt] at h
        omega
      simp [leafAmong?, hout]
  | cons first rest ih =>
      rw [List.cons_append, leafAmong?, leafAmong?, goesOn_append_last h, ih]

/-- Changes below a part that was added at the end leave that part alone. -/
theorem updateAmong_append_last {parts : List Memory} {part : Memory} {a : UInt32}
    {f : Region → Region} (h : a < part.base) :
    updateAmong a f (parts ++ [part]) = updateAmong a f parts ++ [part] := by
  induction parts with
  | nil =>
      have hout : ¬ part.contains a = true := by
        rw [contains_iff]
        rw [UInt32.lt_iff_toNat_lt] at h
        omega
      simp [updateAmong, hout]
  | cons first rest ih =>
      rw [List.cons_append, updateAmong, updateAmong, goesOn_append_last h, ih]
      split
      · rfl
      · split <;> rfl

end Memory

end RegisterVM
