import RegisterVM.Processor.Fetch
import RegisterVM.Proofs.MemoryLayout

/-!
# Reading ahead

`readableFrom` is all that can be read from an address on: the rest of the region that the address
dispatches to, and nothing if that region refuses. Reads that ask for at least one byte are reads of
its prefixes, and the bisection of `readablePart` finds how long the prefix can be.

Nothing in the later modules looks at how a memory is composed. They see a list of bytes for each
address, and a read as a prefix of that list.
-/

namespace RegisterVM

/-- The bytes of a region that can be read from `address` on. A region that refuses reading counts
as empty, since a reader can tell it apart only by the error. -/
def Region.readableFrom (r : Region) (address : UInt32) : List UInt8 :=
  if r.permission.readable && r.base ≤ address then r.bytes.data.toList.drop (r.offset address)
  else []

/-- The bytes that can be read from `address` on, to the end of its region. The next region starts a
new read even where it follows without a gap, because an access never spans two regions. -/
def Memory.readableFrom (m : Memory) (address : UInt32) : List UInt8 :=
  match m.leaf? address with
  | none => []
  | some r => r.readableFrom address

/-! ### Single reads -/

theorem Region.slice_eq (r : Region) (address : UInt32) (count : Nat) :
    r.slice address count = (r.bytes.data.toList.drop (r.offset address)).take count := by
  rw [slice, ByteArray.data_extract, Array.toList_extract, List.extract_eq_take_drop,
    Nat.add_sub_cancel_left]

/-- Some bytes can be read exactly when that many are readable. A read of no bytes is a case apart:
it is allowed at the end of a region, too, and is left out here. -/
theorem Region.check_read_iff {r : Region} {address : UInt32} {count : Nat} (hcount : 0 < count) :
    r.check .read address count = .ok () ↔ count ≤ (r.readableFrom address).length := by
  rw [check, covers, Permission.allows, readableFrom]
  cases hread : r.permission.readable with
  | false =>
      simp only [Bool.not_false, if_true, Bool.false_and, Bool.false_eq_true, if_false,
        List.length_nil]
      refine ⟨fun h => ?_, fun h => absurd hcount (Nat.not_lt.mpr h)⟩
      split at h <;> simp at h
  | true =>
      by_cases hbase : r.base ≤ address
      · have hsize : r.size = r.bytes.data.toList.length := by
          rw [Array.length_toList]
          rfl
        simp only [hbase, decide_true, Bool.true_and, if_true, List.length_drop, ← hsize]
        by_cases hfit : r.offset address + count ≤ r.size
        · simp only [hfit, decide_true, Bool.not_true, Bool.false_eq_true, if_false, true_iff]
          omega
        · simp only [hfit, decide_false, Bool.not_false, if_true, reduceCtorEq, false_iff]
          omega
      · simp [hbase]
        omega

namespace Memory

theorem check_read_iff {m : Memory} {address : UInt32} {count : Nat} (hcount : 0 < count) :
    m.check .read address count = .ok () ↔ count ≤ (m.readableFrom address).length := by
  rw [check, readableFrom]
  cases m.leaf? address with
  | none =>
      simp only [reduceCtorEq, List.length_nil, false_iff]
      omega
  | some r => exact Region.check_read_iff hcount

/-- A read is a check followed by the prefix of what is readable. It is the one lemma through which
the cache and the checked buffer see memory. -/
theorem read_eq {m : Memory} {address : UInt32} {count : Nat} (hcount : 0 < count) :
    m.read address count =
      (m.check .read address count).map fun _ => (m.readableFrom address).take count := by
  rw [read, check]
  cases hleaf : m.leaf? address with
  | none => rfl
  | some r =>
      simp only [Region.read, readableFrom, hleaf]
      cases hcheck : r.check .read address count with
      | error e => rfl
      | ok _ =>
          have hlength := (Region.check_read_iff hcount).mp hcheck
          have hopen : (r.permission.readable && decide (r.base ≤ address)) = true := by
            cases hclosed : (r.permission.readable && decide (r.base ≤ address)) with
            | true => rfl
            | false =>
                rw [Region.readableFrom, hclosed] at hlength
                simp only [Bool.false_eq_true, if_false, List.length_nil] at hlength
                omega
          simp only [Region.readableFrom, hopen, if_true, Region.slice_eq, bind, Except.bind, pure,
            Except.pure, Except.map]

theorem read_eq_ok {m : Memory} {address : UInt32} {count : Nat} (hcount : 0 < count)
    (hle : count ≤ (m.readableFrom address).length) :
    m.read address count = .ok ((m.readableFrom address).take count) := by
  rw [read_eq hcount, (check_read_iff hcount).mpr hle]
  rfl

theorem read_eq_error {m : Memory} {address : UInt32} {count : Nat} (hcount : 0 < count)
    (hlt : (m.readableFrom address).length < count) :
    ∃ e, m.check .read address count = .error e ∧ m.read address count = .error e := by
  rw [read_eq hcount]
  cases hcheck : m.check .read address count with
  | error e => exact ⟨e, rfl, rfl⟩
  | ok _ =>
      have hle := (check_read_iff hcount).mp hcheck
      omega

/-- A byte can be read exactly when it is the first of what is readable. -/
theorem readByte_eq_ok_iff {m : Memory} {address : UInt32} {b : UInt8} :
    m.readByte address = .ok b ↔ (m.readableFrom address).head? = some b := by
  rw [readByte, readNat]
  cases hcode : m.readableFrom address with
  | nil =>
      obtain ⟨e, -, hread⟩ := read_eq_error (Nat.one_pos) (by rw [hcode]; exact Nat.one_pos)
      simp [hread, Functor.map, Except.map]
  | cons first rest =>
      rw [read_eq_ok Nat.one_pos (by rw [hcode]; simp), hcode]
      simp [Functor.map, Except.map, bigEndian]

/-- Where every region permits reading, a refused read is out of bounds. The two errors of an access
are told apart by the permission alone. -/
theorem check_read_error {m : Memory} (hm : m.AllReadable) {address : UInt32} {count : Nat}
    {e : AccessError} (h : m.check .read address count = .error e) : e = .outOfBounds := by
  rw [check] at h
  cases hleaf : m.leaf? address with
  | none =>
      rw [hleaf] at h
      exact (Except.error.inj h).symm
  | some r =>
      rw [hleaf] at h
      simp only [Region.check, Permission.allows, hm r (leaf_mem_regions hleaf), Bool.not_true,
        Bool.false_eq_true, if_false] at h
      split at h
      · exact (Except.error.inj h).symm
      · simp at h

end Memory

/-! ### Bisection -/

/-- The bisection finds the length of what is readable, if it starts with that between its bounds.
Each probe asks for a prefix, and a prefix of a readable prefix is readable, so the half that is
kept always has the length in it. -/
theorem bisectReadable_eq {m : Memory} {pc : UInt32} {low high : Nat}
    (hlow : low ≤ (m.readableFrom pc).length) (hhigh : (m.readableFrom pc).length < high) :
    bisectReadable m pc low high = (m.readableFrom pc).length := by
  fun_induction bisectReadable m pc low high with
  | case1 low high hgap mid _ hcheck ih =>
      exact ih ((Memory.check_read_iff (by omega)).mp hcheck) hhigh
  | case2 low high hgap mid e hcheck ih =>
      refine ih hlow (Nat.lt_of_not_le fun hle => ?_)
      rw [(Memory.check_read_iff (by omega)).mpr hle] at hcheck
      simp at hcheck
  | case3 low high hgap => omega

/-- Reading ahead gives the prefix asked for, cut where reading has to stop. The first read is tried
whole, and only where it fails does the bisection look for the cut. -/
theorem readablePart_eq_ok {m : Memory} {pc : UInt32} {count : Nat} (hcount : 0 < count)
    (hcode : m.readableFrom pc ≠ []) :
    readablePart m pc count = .ok ((m.readableFrom pc).take count) := by
  have hpos : 0 < (m.readableFrom pc).length := List.length_pos_iff.mpr hcode
  by_cases hle : count ≤ (m.readableFrom pc).length
  · rw [readablePart, Memory.read_eq_ok hcount hle]
  · obtain ⟨e, -, hread⟩ := Memory.read_eq_error hcount (Nat.lt_of_not_le hle)
    have hfound := bisectReadable_eq (Nat.zero_le _) (Nat.lt_of_not_le hle)
    obtain ⟨n, hn⟩ := Nat.exists_eq_succ_of_ne_zero (Nat.ne_of_gt hpos)
    rw [readablePart, hread]
    simp only [hfound, hn]
    rw [← Nat.succ_eq_add_one, ← hn, Memory.read_eq_ok hpos (Nat.le_refl _), List.take_length,
      List.take_of_length_le (by omega)]

/-- Reading ahead fails only where not even one byte can be read, with the error of the whole read
and not with that of the one byte. -/
theorem readablePart_eq_error {m : Memory} {pc : UInt32} {count : Nat} (hcount : 0 < count)
    (hcode : m.readableFrom pc = []) :
    ∃ e, m.check .read pc count = .error e ∧ readablePart m pc count = .error e := by
  have hlength : (m.readableFrom pc).length = 0 := by rw [hcode]; rfl
  have hlt : (m.readableFrom pc).length < count := by omega
  obtain ⟨e, hcheck, hread⟩ := Memory.read_eq_error hcount hlt
  have hfound := bisectReadable_eq (Nat.zero_le _) hlt
  refine ⟨e, hcheck, ?_⟩
  rw [readablePart, hread]
  simp only [hfound, hlength]

/-- What is readable from a later address of a region is the rest of what is readable. This is how a
window that was read at one address answers for a later one. -/
theorem Memory.readableFrom_add {m : Memory} (hm : m.Ordered) {a b : UInt32} (hle : a ≤ b)
    (hlt : b.toNat - a.toNat < (m.readableFrom a).length) :
    m.readableFrom b = (m.readableFrom a).drop (b.toNat - a.toNat) := by
  rw [UInt32.le_iff_toNat_le] at hle
  rw [readableFrom] at hlt ⊢
  cases hleaf : m.leaf? a with
  | none => simp [hleaf] at hlt
  | some r =>
      rw [readableFrom, hleaf]
      simp only [hleaf, Region.readableFrom] at hlt ⊢
      by_cases hopen : (r.permission.readable && decide (r.base ≤ a)) = true
      · rw [if_pos hopen] at hlt ⊢
        have hbase : r.base.toNat ≤ a.toNat := by
          rw [Bool.and_eq_true, decide_eq_true_eq, UInt32.le_iff_toNat_le] at hopen
          exact hopen.2
        have hopen' : (r.permission.readable && decide (r.base ≤ b)) = true := by
          rw [Bool.and_eq_true, decide_eq_true_eq, UInt32.le_iff_toNat_le] at hopen ⊢
          exact ⟨hopen.1, by omega⟩
        rw [List.length_drop, Array.length_toList, Region.offset] at hlt
        have hsize : r.size = r.bytes.data.size := rfl
        rw [leaf_eq_of_le (UInt32.le_iff_toNat_le.mpr hle) (by omega) hm hleaf]
        simp only [hopen', if_true, List.drop_drop, Region.offset]
        congr 1
        omega
      · rw [if_neg hopen] at hlt
        simp at hlt

end RegisterVM
