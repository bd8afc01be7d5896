import RegisterVM.Proofs.Bytes
import RegisterVM.Proofs.ReadAhead

/-!
# Memory as bytes

Two views together say all about a memory. `byte?` gives the byte at an address, whatever the
permissions; the addresses are plain numbers, since a region may end above the last address that an
access can name. `blank` gives the layout, which is the memory with its contents wiped. A permission
check depends on the layout alone, a read on the bytes of its range besides, and a permitted write
changes just the bytes of its range. Memories that agree in both views are equal.

Both views need the regions to be in order and apart (`Ordered`), which is what adding to a map
ensures. The lemmas come in pairs, one for a memory and one for a sequence of sub-memories, and are
proved by recursion on the tree of maps.
-/

namespace RegisterVM

/-! ### Bytes of a region -/

/-- The byte of a region at an address. -/
def Region.byte? (r : Region) (a : Nat) : Option UInt8 :=
  if r.base.toNat ≤ a then r.bytes.data.toList[a - r.base.toNat]? else none

/-- A region with its contents wiped: what is left is its name, its window and its permissions. -/
def Region.blank (r : Region) : Region := { r with bytes := ⟨Array.replicate r.size 0⟩ }

namespace Region

theorem length_bytes (r : Region) : r.bytes.data.toList.length = r.size := Array.length_toList

/-- Bytes are only where the region is. -/
theorem byte?_bounds {r : Region} {a : Nat} {b : UInt8} (h : r.byte? a = some b) :
    r.base.toNat ≤ a ∧ a < r.base.toNat + r.size := by
  unfold byte? at h
  split at h
  · obtain ⟨hlt, -⟩ := List.getElem?_eq_some_iff.mp h
    rw [r.length_bytes] at hlt
    omega
  · cases h

theorem byte?_isSome {r : Region} {a : Nat} (hbase : r.base.toNat ≤ a)
    (hlt : a < r.base.toNat + r.size) : ∃ b, r.byte? a = some b := by
  have hindex : a - r.base.toNat < r.bytes.data.toList.length := by
    rw [r.length_bytes]
    omega
  exact ⟨_, by rw [byte?, if_pos hbase, List.getElem?_eq_getElem hindex]⟩

theorem size_blank (r : Region) : r.blank.size = r.size := Array.size_replicate

/-- An access is covered if it lies between the two ends of the region. The offsets that the test
compares do not wrap around, since the range starts at or above the base. -/
theorem covers_iff {r : Region} {address : UInt32} {count : Nat} :
    r.covers address count = true ↔
      r.base.toNat ≤ address.toNat ∧ address.toNat + count ≤ r.base.toNat + r.size := by
  rw [covers, offset, Bool.and_eq_true, decide_eq_true_eq, decide_eq_true_eq,
    UInt32.le_iff_toNat_le]
  omega

theorem check_blank (r : Region) (kind : AccessKind) (address : UInt32) (count : Nat) :
    r.blank.check kind address count = r.check kind address count := by
  unfold check covers
  rw [size_blank]
  rfl

/-- Overwriting puts the data in place and keeps the rest. The bound matters: past the end of the
array an overwrite would have no effect. -/
theorem getElem?_overwrite {bytes : ByteArray} {index : Nat} {data : List UInt8}
    (hfit : index + data.length ≤ bytes.size) (i : Nat) :
    (overwrite bytes index data).data.toList[i]? =
      if index ≤ i ∧ i < index + data.length then data[i - index]? else bytes.data.toList[i]? := by
  induction data generalizing bytes index with
  | nil => rw [overwrite, if_neg (by rw [List.length_nil]; omega)]
  | cons b rest ih =>
      rw [List.length_cons] at hfit
      have hindex : index < bytes.size := by omega
      have hsize : (bytes.set index b hindex).size = bytes.size := Array.size_set ..
      have hset : (bytes.set index b hindex).data.toList = bytes.data.toList.set index b :=
        Array.toList_set bytes.data index b hindex
      have hlength : index < bytes.data.toList.length := hindex
      rw [overwrite, dif_pos hindex, ih (by omega), hset, List.length_cons, List.getElem?_set]
      by_cases hhere : index = i
      · subst hhere
        rw [if_neg (by omega), if_pos rfl, if_pos hlength, if_pos (by omega), Nat.sub_self]
        rfl
      · rw [if_neg hhere]
        by_cases hin : index + 1 ≤ i ∧ i < index + 1 + rest.length
        · rw [if_pos hin, if_pos (by omega), show i - index = i - (index + 1) + 1 by omega,
            List.getElem?_cons_succ]
        · rw [if_neg hin, if_neg (by omega)]

/-- A covered write to a region puts its data in place and changes no other byte. -/
theorem byte?_poke {r : Region} {address : UInt32} {data : List UInt8}
    (h : r.covers address data.length = true) (a : Nat) :
    (r.poke address data).byte? a =
      if address.toNat ≤ a ∧ a < address.toNat + data.length then data[a - address.toNat]?
      else r.byte? a := by
  obtain ⟨hbase, hfit⟩ := covers_iff.mp h
  have hsize : r.size = r.bytes.size := rfl
  unfold byte? poke
  dsimp only
  rw [getElem?_overwrite (by omega)]
  by_cases hlow : r.base.toNat ≤ a
  · rw [if_pos hlow, if_pos hlow]
    by_cases hin : address.toNat ≤ a ∧ a < address.toNat + data.length
    · rw [if_pos hin, if_pos (by omega)]
      congr 1
      omega
    · rw [if_neg hin, if_neg (by omega)]
  · rw [if_neg hlow, if_neg hlow, if_neg (by omega)]

/-- A region is its layout and its bytes. The layout says how many bytes there are, so agreeing at
every address is agreeing as arrays. -/
theorem ext_bytes {r s : Region} (hblank : r.blank = s.blank)
    (hbytes : ∀ a, r.byte? a = s.byte? a) : r = s := by
  obtain ⟨name, base, permission, bytes⟩ := r
  obtain ⟨name', base', permission', bytes'⟩ := s
  obtain ⟨rfl, rfl, rfl, -⟩ := Region.mk.inj hblank
  have hdata : bytes.data.toList = bytes'.data.toList := by
    apply List.ext_getElem?
    intro i
    have hbyte := hbytes (base.toNat + i)
    simpa [byte?] using hbyte
  obtain rfl : bytes = bytes' := ByteArray.ext (Array.toList_inj.mp hdata)
  rfl

end Region

/-! ### Bytes of a memory -/

namespace Memory

mutual

/-- The byte at an address, if a region has one there. All parts of a map are asked in turn; how an
access finds its region plays no role here. -/
def byte? (a : Nat) : Memory → Option UInt8
  | .region r => r.byte? a
  | .map parts => byteAmong? a parts

/-- The byte at an address in a sequence of sub-memories. -/
def byteAmong? (a : Nat) : List Memory → Option UInt8
  | [] => none
  | part :: rest => (part.byte? a).or (byteAmong? a rest)

end

mutual

/-- A memory with its contents wiped. Two memories with the same blank differ at most in what their
regions hold. -/
def blank : Memory → Memory
  | .region r => .region r.blank
  | .map parts => .map (blankParts parts)

/-- Sub-memories with their contents wiped. -/
def blankParts : List Memory → List Memory
  | [] => []
  | part :: rest => part.blank :: blankParts rest

end

mutual

theorem byte?_bounds {a : Nat} {b : UInt8} : ∀ {m : Memory}, m.Ordered → m.byte? a = some b →
    m.base.toNat ≤ a ∧ a < m.limit
  | .region r, _, h => by
      rw [byte?] at h
      rw [base, limit]
      exact Region.byte?_bounds h
  | .map parts, hm, h => by
      rw [Ordered] at hm
      rw [byte?] at h
      rw [base, limit]
      exact byteAmong?_bounds hm h

theorem byteAmong?_bounds {a : Nat} {b : UInt8} : ∀ {parts : List Memory} {low : Nat},
    OrderedFrom low parts → byteAmong? a parts = some b →
      (firstBase parts).toNat ≤ a ∧ a < lastLimit parts
  | [], _, _, h => by
      rw [byteAmong?] at h
      cases h
  | part :: rest, _, hm, h => by
      rw [OrderedFrom] at hm
      obtain ⟨-, hpart, hrest⟩ := hm
      rw [byteAmong?, Option.or_eq_some_iff] at h
      have hself := base_le_limit hpart
      rw [firstBase, lastLimit]
      rcases h with h | ⟨-, h⟩
      · have hin := byte?_bounds hpart h
        split
        · exact hin
        · rename_i hne
          have hnext := limit_le_firstBase hrest (by simpa using hne)
          have hlast := firstBase_le_lastLimit hrest
          omega
      · have hin := byteAmong?_bounds hrest h
        have hne : rest ≠ [] := by
          rintro rfl
          rw [byteAmong?] at h
          cases h
        have hnext := limit_le_firstBase hrest hne
        rw [if_neg (by simpa using hne)]
        omega

end

/-- A memory has no byte at or above its limit. -/
theorem byte?_eq_none {m : Memory} (hm : m.Ordered) {a : Nat} (h : m.limit ≤ a) :
    m.byte? a = none := by
  cases hbyte : m.byte? a with
  | none => rfl
  | some b =>
      have hin := byte?_bounds hm hbyte
      omega

/-- Sub-memories have no byte below the address that they start from. -/
theorem byteAmong?_eq_none {parts : List Memory} {low a : Nat} (hparts : OrderedFrom low parts)
    (h : a < low) : byteAmong? a parts = none := by
  cases hbyte : byteAmong? a parts with
  | none => rfl
  | some b =>
      have hin := byteAmong?_bounds hparts hbyte
      cases parts with
      | nil =>
          rw [byteAmong?] at hbyte
          cases hbyte
      | cons part rest =>
          rw [OrderedFrom] at hparts
          rw [firstBase] at hin
          omega

/-! ### Layout -/

mutual

theorem base_blank : ∀ m : Memory, m.blank.base = m.base
  | .region r => by
      rw [blank, base, base]
      rfl
  | .map parts => by
      rw [blank, base, base]
      exact firstBase_blankParts parts

theorem firstBase_blankParts : ∀ parts : List Memory, firstBase (blankParts parts) = firstBase parts
  | [] => by rw [blankParts]
  | part :: rest => by
      rw [blankParts, firstBase, firstBase]
      exact base_blank part

end

theorem isEmpty_blankParts (parts : List Memory) : (blankParts parts).isEmpty = parts.isEmpty := by
  cases parts with
  | nil => rw [blankParts]
  | cons part rest =>
      rw [blankParts]
      rfl

mutual

theorem limit_blank : ∀ m : Memory, m.blank.limit = m.limit
  | .region r => by
      rw [blank, limit, limit, r.size_blank]
      rfl
  | .map parts => by
      rw [blank, limit, limit]
      exact lastLimit_blankParts parts

theorem lastLimit_blankParts : ∀ parts : List Memory, lastLimit (blankParts parts) = lastLimit parts
  | [] => by rw [blankParts]
  | part :: rest => by
      rw [blankParts, lastLimit, lastLimit, isEmpty_blankParts, limit_blank part,
        lastLimit_blankParts rest]

end

theorem contains_blank (m : Memory) (address : UInt32) :
    m.blank.contains address = m.contains address := by
  rw [contains, contains, base_blank, limit_blank]

mutual

theorem ordered_blank : ∀ {m : Memory}, m.blank.Ordered ↔ m.Ordered
  | .region r => by rw [blank, Ordered, Ordered]
  | .map parts => by
      rw [blank, Ordered, Ordered]
      exact orderedFrom_blankParts

theorem orderedFrom_blankParts : ∀ {parts : List Memory} {low : Nat},
    OrderedFrom low (blankParts parts) ↔ OrderedFrom low parts
  | [], _ => by rw [blankParts]
  | part :: rest, _ => by
      rw [blankParts, OrderedFrom, OrderedFrom, base_blank, limit_blank, ordered_blank,
        orderedFrom_blankParts]

end

mutual

/-- Finding the region for an address does not look at contents: it compares bases and limits, and
wiping keeps both. -/
theorem leaf?_blank (address : UInt32) : ∀ m : Memory,
    m.blank.leaf? address = (m.leaf? address).map Region.blank
  | .region r => by
      rw [blank, leaf?, leaf?]
      rfl
  | .map parts => by
      rw [blank, leaf?, leaf?]
      exact leafAmong?_blankParts address parts

theorem leafAmong?_blankParts (address : UInt32) : ∀ parts : List Memory,
    leafAmong? address (blankParts parts) = (leafAmong? address parts).map Region.blank
  | [] => by
      rw [blankParts, leafAmong?]
      rfl
  | part :: rest => by
      rw [blankParts, leafAmong?, leafAmong?, firstBase_blankParts, isEmpty_blankParts,
        contains_blank, leafAmong?_blankParts address rest, leaf?_blank address part]
      split
      · rfl
      · split <;> rfl

end

/-- Whether an access is permitted is a matter of layout. So a write cannot change what the next
access may do. -/
theorem check_blank (m : Memory) (kind : AccessKind) (address : UInt32) (count : Nat) :
    m.blank.check kind address count = m.check kind address count := by
  rw [check, check, leaf?_blank]
  cases m.leaf? address with
  | none => rfl
  | some r => exact r.check_blank kind address count

/-- Order of the regions carries over to every memory of the same layout. -/
theorem ordered_of_blank {m m' : Memory} (hblank : m.blank = m'.blank)
    (hm : m.Ordered) : m'.Ordered :=
  ordered_blank.mp (hblank ▸ ordered_blank.mpr hm)

theorem check_congr {m m' : Memory} (h : m.blank = m'.blank) (kind : AccessKind) (address : UInt32)
    (count : Nat) : m.check kind address count = m'.check kind address count := by
  rw [← check_blank, h, check_blank]

mutual

/-- A memory is its layout and its bytes. Order is needed: were two regions to overlap, `byte?`
would show only the first of them. -/
theorem ext_bytes : ∀ {m m' : Memory}, m.Ordered → m.blank = m'.blank →
    (∀ a, m.byte? a = m'.byte? a) → m = m'
  | .region r, .region s, _, hblank, hbytes => by
      rw [blank, blank, region.injEq] at hblank
      simp only [byte?] at hbytes
      rw [Region.ext_bytes hblank hbytes]
  | .region r, .map parts, _, hblank, _ => by
      rw [blank, blank] at hblank
      cases hblank
  | .map parts, .region s, _, hblank, _ => by
      rw [blank, blank] at hblank
      cases hblank
  | .map parts, .map parts', hm, hblank, hbytes => by
      rw [blank, blank, map.injEq] at hblank
      rw [Ordered] at hm
      simp only [byte?] at hbytes
      rw [ext_bytesAmong hm hblank hbytes]

theorem ext_bytesAmong : ∀ {parts parts' : List Memory} {low : Nat}, OrderedFrom low parts →
    blankParts parts = blankParts parts' → (∀ a, byteAmong? a parts = byteAmong? a parts') →
      parts = parts'
  | [], [], _, _, _, _ => rfl
  | [], _ :: _, _, _, hblank, _ => by
      rw [blankParts, blankParts] at hblank
      cases hblank
  | _ :: _, [], _, _, hblank, _ => by
      rw [blankParts, blankParts] at hblank
      cases hblank
  | part :: rest, part' :: rest', low, hm, hblank, hbytes => by
      rw [blankParts, blankParts, List.cons.injEq] at hblank
      obtain ⟨hpart, hrest⟩ := hblank
      have hm' := hm
      rw [← orderedFrom_blankParts, blankParts, hpart, hrest, ← blankParts, orderedFrom_blankParts]
        at hm'
      have hlimit : part'.limit = part.limit := by rw [← limit_blank part', ← hpart, limit_blank]
      rw [OrderedFrom] at hm hm'
      obtain ⟨-, hordered, hfrom⟩ := hm
      obtain ⟨-, hordered', hfrom'⟩ := hm'
      -- below the limit of the first part only that part has bytes, from there on only the others
      have heach : ∀ a, part.byte? a = part'.byte? a ∧ byteAmong? a rest = byteAmong? a rest' := by
        intro a
        have hboth := hbytes a
        rw [byteAmong?, byteAmong?] at hboth
        by_cases hlow : a < part.limit
        · have hnone := byteAmong?_eq_none hfrom hlow
          have hnone' := byteAmong?_eq_none hfrom' (hlimit.symm ▸ hlow)
          rw [hnone, hnone', Option.or_none, Option.or_none] at hboth
          exact ⟨hboth, hnone.trans hnone'.symm⟩
        · have hnone := byte?_eq_none hordered (Nat.le_of_not_lt hlow)
          have hnone' := byte?_eq_none hordered' (hlimit.symm ▸ Nat.le_of_not_lt hlow)
          rw [hnone, hnone', Option.none_or, Option.none_or] at hboth
          exact ⟨hnone.trans hnone'.symm, hboth⟩
      rw [ext_bytes hordered hpart fun a => (heach a).1,
        ext_bytesAmong hfrom hrest fun a => (heach a).2]

end

/-! ### Accesses as bytes -/

mutual

/-- From the address of an access on, memory has the bytes of the region that the access goes to.
Regions before it have ended by then, and no later one starts before it ends. -/
theorem byte?_of_leaf {address : UInt32} {r : Region} {a : Nat} (hle : address.toNat ≤ a)
    (hbase : r.base.toNat ≤ a) (hlt : a < r.base.toNat + r.size) : ∀ {m : Memory}, m.Ordered →
    m.leaf? address = some r → m.byte? a = r.byte? a
  | .region s, _, h => by
      rw [leaf?, Option.some.injEq] at h
      rw [byte?, h]
  | .map parts, hm, h => by
      rw [Ordered] at hm
      rw [leaf?] at h
      rw [byte?]
      exact byteAmong?_of_leaf hle hbase hlt hm h

theorem byteAmong?_of_leaf {address : UInt32} {r : Region} {a : Nat} (hle : address.toNat ≤ a)
    (hbase : r.base.toNat ≤ a) (hlt : a < r.base.toNat + r.size) :
    ∀ {parts : List Memory} {low : Nat},
    OrderedFrom low parts → leafAmong? address parts = some r → byteAmong? a parts = r.byte? a
  | [], _, _, h => by
      rw [leafAmong?] at h
      cases h
  | part :: rest, _, hm, h => by
      rw [OrderedFrom] at hm
      obtain ⟨-, hpart, hrest⟩ := hm
      rw [leafAmong?] at h
      rw [byteAmong?]
      split at h
      · rename_i hon
        obtain ⟨hfirst, hne⟩ := goesOn_iff.mp hon
        have hnext := limit_le_firstBase hrest hne
        rw [byte?_eq_none hpart (by omega), Option.none_or]
        exact byteAmong?_of_leaf hle hbase hlt hrest h
      · split at h
        · obtain ⟨b, hb⟩ := Region.byte?_isSome hbase hlt
          rw [byte?_of_leaf hle hbase hlt hpart h, hb, Option.some_or]
        · cases h

end

/-- A permitted access lies inside the region that it goes to, and the region allows it. -/
theorem check_eq_ok {m : Memory} {kind : AccessKind} {address : UInt32} {count : Nat}
    (h : m.check kind address count = .ok ()) :
    ∃ r, m.leaf? address = some r ∧ r.covers address count = true ∧
      r.permission.allows kind = true := by
  rw [check] at h
  cases hleaf : m.leaf? address with
  | none =>
      rw [hleaf] at h
      cases h
  | some r =>
      rw [hleaf] at h
      refine ⟨r, rfl, ?_⟩
      unfold Region.check at h
      split at h
      · cases h
      · split at h
        · cases h
        · simp_all

/-- The bytes of a region from an address on are those of memory. It is stated with `drop`, which is
how a read takes them. -/
theorem getElem?_drop_leaf {m : Memory} (hm : m.Ordered) {address : UInt32} {r : Region}
    (hleaf : m.leaf? address = some r) (hbase : r.base.toNat ≤ address.toNat) {i : Nat}
    (hlt : address.toNat + i < r.base.toNat + r.size) :
    (r.bytes.data.toList.drop (r.offset address))[i]? = m.byte? (address.toNat + i) := by
  rw [byte?_of_leaf (by omega) (by omega) hlt hm hleaf, Region.byte?, if_pos (by omega),
    List.getElem?_drop, Region.offset]
  congr 1
  omega

/-- A read is refused by its check, or gives a part of the region that it goes to. Proofs about
reads start from these two cases. -/
theorem read_cases (m : Memory) (address : UInt32) (count : Nat) :
    (∃ e, m.check .read address count = .error e ∧ m.read address count = .error e) ∨
    (m.check .read address count = .ok () ∧ ∃ r, m.leaf? address = some r ∧
      r.covers address count = true ∧
      m.read address count = .ok ((r.bytes.data.toList.drop (r.offset address)).take count)) := by
  cases hcheck : m.check .read address count with
  | error e =>
      refine .inl ⟨e, rfl, ?_⟩
      rw [check] at hcheck
      rw [read]
      cases hleaf : m.leaf? address with
      | none =>
          rw [hleaf] at hcheck
          obtain rfl := Except.error.inj hcheck
          rfl
      | some r =>
          rw [hleaf] at hcheck
          dsimp only at hcheck ⊢
          rw [Region.read, hcheck]
          rfl
  | ok _ =>
      obtain ⟨r, hleaf, hcovers, -⟩ := check_eq_ok hcheck
      refine .inr ⟨rfl, r, hleaf, hcovers, ?_⟩
      rw [check, hleaf] at hcheck
      dsimp only at hcheck
      rw [read, hleaf]
      dsimp only
      rw [Region.read, hcheck, Region.slice_eq]
      rfl

/-- A read gives the bytes of its range, and as many as were asked for. -/
theorem getElem?_read {m : Memory} (hm : m.Ordered) {address : UInt32} {count : Nat}
    {bytes : List UInt8} (h : m.read address count = .ok bytes) :
    bytes.length = count ∧ ∀ i < count, bytes[i]? = m.byte? (address.toNat + i) := by
  obtain ⟨e, -, hread⟩ | ⟨-, r, hleaf, hcovers, hread⟩ := m.read_cases address count
  · rw [hread] at h
    cases h
  · obtain rfl := Except.ok.inj (hread.symm.trans h)
    obtain ⟨hbase, hfit⟩ := Region.covers_iff.mp hcovers
    constructor
    · rw [List.length_take, List.length_drop, r.length_bytes, Region.offset]
      omega
    · intro i hi
      rw [List.getElem?_take_of_lt hi, getElem?_drop_leaf hm hleaf hbase (by omega)]

/-- A permitted read of a range that holds some data gives that data. It is the converse of
`getElem?_read`, with the permission as the one thing to add. -/
theorem read_of_bytes {m : Memory} (hm : m.Ordered) {address : UInt32} {data : List UInt8}
    (hcheck : m.check .read address data.length = .ok ())
    (h : ∀ i < data.length, m.byte? (address.toNat + i) = data[i]?) :
    m.read address data.length = .ok data := by
  obtain ⟨e, he, -⟩ | ⟨-, r, -, -, hread⟩ := m.read_cases address data.length
  · cases hcheck.symm.trans he
  · obtain ⟨hlength, hbytes⟩ := getElem?_read hm hread
    rw [hread]
    congr 1
    apply List.ext_getElem?
    intro i
    by_cases hi : i < data.length
    · rw [hbytes i hi, h i hi]
    · rw [List.getElem?_eq_none (by omega), List.getElem?_eq_none (by omega)]

/-- What a read gives is determined by the layout and by the bytes of its range. The layout decides
whether it is permitted, with the same error where it is not. -/
theorem read_congr {m m' : Memory} (hm : m.Ordered) (hblank : m.blank = m'.blank) {address : UInt32}
    {count : Nat} (h : ∀ i < count, m.byte? (address.toNat + i) = m'.byte? (address.toNat + i)) :
    m.read address count = m'.read address count := by
  have hm' := ordered_of_blank hblank hm
  have hcheck := check_congr hblank .read address count
  obtain ⟨e, he, hread⟩ | ⟨hok, r, -, -, hread⟩ := m.read_cases address count
  · obtain ⟨e', he', hread'⟩ | ⟨hok', -⟩ := m'.read_cases address count
    · rw [hread, hread', Except.error.inj (he.symm.trans (hcheck.trans he'))]
    · cases he.symm.trans (hcheck.trans hok')
  · rw [hread]
    obtain ⟨hlength, hbytes⟩ := getElem?_read hm hread
    generalize (r.bytes.data.toList.drop (r.offset address)).take count = data at hlength hbytes ⊢
    subst hlength
    exact (read_of_bytes hm' (hcheck ▸ hok) fun i hi => (h i hi).symm.trans (hbytes i hi).symm).symm

mutual

/-- A write puts its data in place and changes no other byte. The induction follows the search for
the region, part by part. -/
theorem byte?_updateLeaf {address : UInt32} {data : List UInt8} {r : Region} (a : Nat)
    (hcovers : r.covers address data.length = true) : ∀ {m : Memory}, m.Ordered →
    m.leaf? address = some r → (m.updateLeaf address fun r => r.poke address data).byte? a =
      if address.toNat ≤ a ∧ a < address.toNat + data.length then data[a - address.toNat]?
      else m.byte? a
  | .region s, _, h => by
      rw [leaf?, Option.some.injEq] at h
      subst h
      rw [updateLeaf, byte?, byte?, Region.byte?_poke hcovers]
  | .map parts, hm, h => by
      rw [Ordered] at hm
      rw [leaf?] at h
      rw [updateLeaf, byte?, byte?]
      exact byteAmong?_updateAmong a hcovers hm h

theorem byteAmong?_updateAmong {address : UInt32} {data : List UInt8} {r : Region} (a : Nat)
    (hcovers : r.covers address data.length = true) : ∀ {parts : List Memory} {low : Nat},
    OrderedFrom low parts → leafAmong? address parts = some r →
      byteAmong? a (updateAmong address (fun r => r.poke address data) parts) =
        if address.toNat ≤ a ∧ a < address.toNat + data.length then data[a - address.toNat]?
        else byteAmong? a parts
  | [], _, _, h => by
      rw [leafAmong?] at h
      cases h
  | part :: rest, _, hm, h => by
      rw [OrderedFrom] at hm
      obtain ⟨-, hpart, hrest⟩ := hm
      rw [leafAmong?] at h
      rw [updateAmong, byteAmong?]
      split at h
      · rename_i hon
        obtain ⟨hfirst, hne⟩ := goesOn_iff.mp hon
        have hnext := limit_le_firstBase hrest hne
        rw [if_pos hon, byteAmong?, byteAmong?_updateAmong a hcovers hrest h]
        by_cases hin : address.toNat ≤ a ∧ a < address.toNat + data.length
        · rw [if_pos hin, if_pos hin, byte?_eq_none hpart (by omega), Option.none_or]
        · rw [if_neg hin, if_neg hin]
      · rename_i hon
        split at h
        · rename_i hcontains
          rw [if_neg hon, if_pos hcontains, byteAmong?, byte?_updateLeaf a hcovers hpart h]
          by_cases hin : address.toNat ≤ a ∧ a < address.toNat + data.length
          · rw [if_pos hin, if_pos hin, List.getElem?_eq_getElem (by omega), Option.some_or]
          · rw [if_neg hin, if_neg hin]
        · cases h

end

mutual

theorem blank_updateLeaf {f : Region → Region} {address : UInt32}
    (hf : ∀ r, (f r).blank = r.blank) :
    ∀ m : Memory, (m.updateLeaf address f).blank = m.blank
  | .region r => by rw [updateLeaf, blank, blank, hf]
  | .map parts => by rw [updateLeaf, blank, blank, blankParts_updateAmong hf parts]

theorem blankParts_updateAmong {f : Region → Region} {address : UInt32}
    (hf : ∀ r, (f r).blank = r.blank) : ∀ parts : List Memory,
    blankParts (updateAmong address f parts) = blankParts parts
  | [] => by rw [updateAmong]
  | part :: rest => by
      rw [updateAmong]
      split
      · rw [blankParts, blankParts, blankParts_updateAmong hf rest]
      · split
        · rw [blankParts, blankParts, blank_updateLeaf hf part]
        · rfl

end

/-- A write does not change the layout, permitted or not. -/
theorem blank_poke (m : Memory) (address : UInt32) (data : List UInt8) :
    (m.poke address data).blank = m.blank := by
  apply blank_updateLeaf
  intro r
  have hsize : (r.poke address data).size = r.size := size_overwrite r.bytes _ data
  rw [Region.blank, Region.blank, hsize]
  rfl

/-- A permitted write puts its data in place and changes no other byte. Together with `blank_poke`
this says all that a write does. -/
theorem byte?_poke {m : Memory} (hm : m.Ordered) {address : UInt32} {data : List UInt8}
    (h : m.check .write address data.length = .ok ()) (a : Nat) :
    (m.poke address data).byte? a =
      if address.toNat ≤ a ∧ a < address.toNat + data.length then data[a - address.toNat]?
      else m.byte? a := by
  obtain ⟨r, hleaf, hcovers, -⟩ := check_eq_ok h
  exact byte?_updateLeaf a hcovers hm hleaf

/-! ### Reading ahead -/

theorem length_readableFrom_blank (m : Memory) (address : UInt32) :
    (m.blank.readableFrom address).length = (m.readableFrom address).length := by
  rw [readableFrom, readableFrom, leaf?_blank]
  cases m.leaf? address with
  | none => rfl
  | some r =>
      have hsize := r.size_blank
      simp only [Option.map_some, Region.readableFrom]
      change (if r.permission.readable && r.base ≤ address then _ else _ : List UInt8).length = _
      split
      · rw [List.length_drop, List.length_drop, Region.length_bytes, Region.length_bytes, hsize]
        rfl
      · rfl

/-- How far memory can be read ahead depends on the layout alone, so a write cannot shorten it. -/
theorem length_readableFrom_congr {m m' : Memory} (h : m.blank = m'.blank) (address : UInt32) :
    (m.readableFrom address).length = (m'.readableFrom address).length := by
  rw [← length_readableFrom_blank, h, length_readableFrom_blank]

/-- What can be read ahead are the bytes of memory. -/
theorem getElem?_readableFrom {m : Memory} (hm : m.Ordered) {address : UInt32} {i : Nat}
    (h : i < (m.readableFrom address).length) :
    (m.readableFrom address)[i]? = m.byte? (address.toNat + i) := by
  rw [readableFrom] at h ⊢
  cases hleaf : m.leaf? address with
  | none =>
      rw [hleaf] at h
      cases h
  | some r =>
      rw [hleaf] at h
      dsimp only [Region.readableFrom] at h ⊢
      by_cases hreadable : (r.permission.readable && decide (r.base ≤ address)) = true
      · rw [if_pos hreadable] at h ⊢
        rw [Bool.and_eq_true, decide_eq_true_eq, UInt32.le_iff_toNat_le] at hreadable
        obtain ⟨-, hbase⟩ := hreadable
        rw [List.length_drop, Region.length_bytes, Region.offset] at h
        have hlt : address.toNat + i < r.base.toNat + r.size := by omega
        exact getElem?_drop_leaf hm hleaf hbase hlt
      · rw [if_neg hreadable] at h
        cases h

/-- A sequence of bytes that stands in memory at `base` can be read from each of its offsets. More
may follow: the region goes on after the sequence. -/
theorem readableFrom_placed {m : Memory} (hm : m.Ordered) {base : UInt32} {bytes : List UInt8}
    (hread : m.read base bytes.length = .ok bytes) (hroom : base.toNat + bytes.length ≤ 2 ^ 32)
    {o : Nat} (ho : o < bytes.length) :
    ∃ more, m.readableFrom (base + UInt32.ofNat o) = bytes.drop o ++ more := by
  have hpos : 0 < bytes.length := by omega
  obtain ⟨more, hmore⟩ : ∃ more, m.readableFrom base = bytes ++ more := by
    rw [read_eq hpos] at hread
    cases hcheck : m.check .read base bytes.length with
    | error e =>
        rw [hcheck] at hread
        cases hread
    | ok _ =>
        rw [hcheck] at hread
        have htake : (m.readableFrom base).take bytes.length = bytes := Except.ok.inj hread
        refine ⟨(m.readableFrom base).drop bytes.length, ?_⟩
        calc m.readableFrom base
          _ = (m.readableFrom base).take bytes.length ++ (m.readableFrom base).drop bytes.length :=
            (List.take_append_drop ..).symm
          _ = bytes ++ (m.readableFrom base).drop bytes.length := by rw [htake]
  have hto : (base + UInt32.ofNat o).toNat = base.toNat + o := by
    rw [UInt32.toNat_add, UInt32.toNat_ofNat']
    omega
  have hshift : (base + UInt32.ofNat o).toNat - base.toNat = o := by omega
  have hle : base ≤ base + UInt32.ofNat o := UInt32.le_iff_toNat_le.mpr (by omega)
  have hlt : (base + UInt32.ofNat o).toNat - base.toNat < (m.readableFrom base).length := by
    rw [hshift, hmore, List.length_append]
    omega
  refine ⟨more, ?_⟩
  rw [readableFrom_add hm hle hlt, hshift, hmore, List.drop_append_of_le_length (Nat.le_of_lt ho)]

/-! ### Words -/

/-- The 32-bit word at an address has a value. Nothing is said about permissions: a word has its
value whether or not it can be read. -/
def HoldsWord (m : Memory) (address v : UInt32) : Prop :=
  ∀ i < 4, m.byte? (address.toNat + i) = (toBigEndian 4 v.toNat)[i]?

theorem check_of_readNat {m : Memory} {address : UInt32} {count n : Nat}
    (h : m.readNat address count = .ok n) : m.check .read address count = .ok () := by
  obtain ⟨e, -, hread⟩ | ⟨hok, -⟩ := m.read_cases address count
  · rw [readNat, hread] at h
    cases h
  · exact hok

/-- A word has at most one value, since four bytes determine it. -/
theorem HoldsWord.unique {m : Memory} {address v v' : UInt32} (h : m.HoldsWord address v)
    (h' : m.HoldsWord address v') : v = v' := by
  have hbytes : toBigEndian 4 v.toNat = toBigEndian 4 v'.toNat := by
    apply List.ext_getElem?
    intro i
    by_cases hi : i < 4
    · rw [← h i hi, h' i hi]
    · rw [List.getElem?_eq_none (by rw [length_toBigEndian]; omega),
        List.getElem?_eq_none (by rw [length_toBigEndian]; omega)]
  have hnat := congrArg bigEndian hbytes
  rw [bigEndian_toBigEndian, bigEndian_toBigEndian, Nat.mod_eq_of_lt (by exact v.toNat_lt),
    Nat.mod_eq_of_lt (by exact v'.toNat_lt)] at hnat
  exact UInt32.toNat_inj.mp hnat

/-- A word that was read has the value that was read. -/
theorem holdsWord_of_readNat {m : Memory} (hm : m.Ordered) {address : UInt32} {n : Nat}
    (h : m.readNat address 4 = .ok n) : m.HoldsWord address (UInt32.ofNat n) := by
  rw [readNat] at h
  cases hread : m.read address 4 with
  | error e =>
      rw [hread] at h
      cases h
  | ok bytes =>
      rw [hread] at h
      obtain rfl : bigEndian bytes = n := Except.ok.inj h
      obtain ⟨hlength, hbytes⟩ := getElem?_read hm hread
      have hlt := bigEndian_lt bytes
      have hback := toBigEndian_bigEndian bytes
      rw [hlength] at hlt hback
      intro i hi
      rw [UInt32.toNat_ofNat', Nat.mod_eq_of_lt (by omega), hback, hbytes i hi]

/-- A word that may be read reads as its value. -/
theorem readNat_of_holdsWord {m : Memory} (hm : m.Ordered) {address v : UInt32}
    (hcheck : m.check .read address 4 = .ok ()) (h : m.HoldsWord address v) :
    m.readNat address 4 = .ok v.toNat := by
  have hlength : (toBigEndian 4 v.toNat).length = 4 := length_toBigEndian 4 _
  have hread : m.read address (toBigEndian 4 v.toNat).length = .ok (toBigEndian 4 v.toNat) :=
    read_of_bytes hm (by rwa [hlength]) (by rwa [hlength])
  rw [hlength] at hread
  rw [readNat, hread]
  change Except.ok _ = _
  rw [bigEndian_toBigEndian, Nat.mod_eq_of_lt (by exact v.toNat_lt)]

/-- A word that was written has the value that was written. -/
theorem holdsWord_poke {m : Memory} (hm : m.Ordered) {address : UInt32} (v : UInt32)
    (h : m.check .write address 4 = .ok ()) :
    (m.poke address (toBigEndian 4 v.toNat)).HoldsWord address v := by
  have hlength : (toBigEndian 4 v.toNat).length = 4 := length_toBigEndian 4 _
  intro i hi
  rw [byte?_poke hm (by rwa [hlength]), hlength, if_pos (by omega), Nat.add_sub_cancel_left]

/-- The value of a readable word follows what happens to it. The layout is the same before and
after, so a word that cannot be read gives the same error on both sides. -/
theorem map_readNat {m m' : Memory} (hm : m.Ordered) (hblank : m.blank = m'.blank)
    {address : UInt32} {change : UInt32 → UInt32}
    (h : ∀ v, m.HoldsWord address v → m'.HoldsWord address (change v)) :
    (m'.readNat address 4).map UInt32.ofNat =
      (m.readNat address 4).map fun n => change (UInt32.ofNat n) := by
  have hcheck := check_congr hblank .read address 4
  obtain ⟨e, he, hread⟩ | ⟨hok, r, -, -, hread⟩ := m.read_cases address 4
  · obtain ⟨e', he', hread'⟩ | ⟨hok', -⟩ := m'.read_cases address 4
    · obtain rfl := Except.error.inj (he.symm.trans (hcheck.trans he'))
      rw [readNat, readNat, hread, hread']
      rfl
    · cases he.symm.trans (hcheck.trans hok')
  · obtain ⟨n, hn⟩ : ∃ n, m.readNat address 4 = .ok n := ⟨_, by rw [readNat, hread]; rfl⟩
    rw [hn, readNat_of_holdsWord (ordered_of_blank hblank hm) (hcheck ▸ hok)
      (h _ (holdsWord_of_readNat hm hn))]
    change Except.ok _ = Except.ok _
    rw [UInt32.ofNat_toNat]

end Memory

end RegisterVM
