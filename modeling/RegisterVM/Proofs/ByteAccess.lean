import RegisterVM.Proofs.MemoryMap

/-!
# Accesses byte by byte

Memory is a map from addresses to bytes, and every wider access is an access to single bytes in a
row: `readBytewise` and `writeBytewise` make those one after the other, most significant byte first,
and a wide access that is admitted does the same as they do. It is admitted or refused as a whole.
The range has to lie in the one region that contains its first address, even where the next region
follows without a gap, so a write that is refused has changed no byte.

Regions that end within the address space keep the addresses of a range from wrapping around.
-/

namespace RegisterVM.Memory

/-- Reads `count` bytes one by one from successive addresses. The first that cannot be read ends it;
the addresses wrap around. -/
def readBytewise (m : Memory) (address : UInt32) : Nat → Except AccessError (List UInt8)
  | 0 => .ok []
  | count + 1 => do
      let b ← m.readByte address
      return b :: (← m.readBytewise (address + 1) count)

/-- Writes bytes one by one to successive addresses. Each write has its own check, so this could end
halfway where a single write would not start. -/
def writeBytewise (m : Memory) (address : UInt32) : List UInt8 → Except AccessError Memory
  | [] => .ok m
  | b :: rest => do (← m.writeNat address 1 b.toNat).writeBytewise (address + 1) rest

/-- The range of an access lies in the one region that contains its first address, and that region
permits the access. This is said with the list of all regions, without the search. -/
def Admits (m : Memory) (kind : AccessKind) (address : UInt32) (count : Nat) : Prop :=
  ∃ r, m.regions.filter (fun s => s.contains address) = [r] ∧
    address.toNat + count ≤ r.base.toNat + r.size ∧ r.permission.allows kind = true

/-- No region goes past the last address. A region that did would admit a range whose single
addresses wrap around. -/
def EndsInSpace (m : Memory) : Prop := ∀ r ∈ m.regions, r.base.toNat + r.size ≤ 2 ^ 32

/-- `m'` is `m` after the bytes of `data` were written one by one from `address` on. Where a byte
can be read, it reads as written inside the range and as before outside. -/
structure WrittenBytewise (m m' : Memory) (address : UInt32) (data : List UInt8) : Prop where
  bytewise : m.writeBytewise address data = .ok m'
  inside : ∀ i (hi : i < data.length), m'.readByte (address + UInt32.ofNat i) =
    (m.readByte (address + UInt32.ofNat i)).map fun _ => data[i]
  outside : ∀ a : UInt32, a < address ∨ address.toNat + data.length ≤ a.toNat →
    m'.readByte a = m.readByte a

/-! ### Admission -/

/-- The check of a map passes exactly for the accesses that it admits. -/
theorem check_eq_ok_iff {parts : List Memory} {low : Nat} (h : OrderedFrom low parts)
    {kind : AccessKind} {address : UInt32} {count : Nat} :
    (Memory.map parts).check kind address count = .ok () ↔
      (Memory.map parts).Admits kind address count := by
  constructor
  · intro hcheck
    obtain ⟨r, hleaf, hcovers, hallows⟩ := check_eq_ok hcheck
    rw [leaf?] at hleaf
    exact ⟨r, (goesTo_of_leaf h hleaf).unique, (Region.covers_iff.mp hcovers).2, hallows⟩
  · rintro ⟨r, hunique, hfit, hallows⟩
    cases hleaf : leafAmong? address parts with
    | none =>
        rw [List.filter_eq_nil_iff.mpr (goesNowhere_of_leaf h hleaf).absent] at hunique
        cases hunique
    | some s =>
        have hgoes := goesTo_of_leaf h hleaf
        obtain rfl : s = r := List.singleton_inj.mp (hgoes.unique.symm.trans hunique)
        have hbase := (Region.contains_iff.mp (contains_of_leafAmong hleaf)).1
        rw [hgoes.check, Region.check, Region.covers_iff.mpr ⟨hbase, hfit⟩, hallows]
        rfl

/-- A read succeeds exactly if its check does. -/
theorem read_isOk_iff {m : Memory} {address : UInt32} {count : Nat} :
    (∃ bytes, m.read address count = .ok bytes) ↔ m.check .read address count = .ok () := by
  obtain ⟨e, hcheck, hread⟩ | ⟨hcheck, r, -, -, hread⟩ := m.read_cases address count
  · rw [hcheck, hread]
    simp
  · rw [hcheck, hread]
    simp

/-- A write is its check and an update that cannot fail. -/
theorem write_eq_ok_iff {m m' : Memory} {address : UInt32} {data : List UInt8} :
    m.write address data = .ok m' ↔
      m.check .write address data.length = .ok () ∧ m' = m.poke address data := by
  rw [write]
  cases m.check .write address data.length with
  | error e => simp [bind, Except.bind]
  | ok _ => simp [bind, Except.bind, pure, Except.pure, eq_comm]

/-! ### Addresses of a range -/

/-- An address in a range that does not go past the last one. -/
theorem toNat_add_ofNat {address : UInt32} {i : Nat} (h : address.toNat + i < 2 ^ 32) :
    (address + UInt32.ofNat i).toNat = address.toNat + i := by
  rw [UInt32.toNat_add, UInt32.toNat_ofNat']
  omega

theorem add_ofNat_succ (address : UInt32) (i : Nat) :
    address + UInt32.ofNat (i + 1) = address + 1 + UInt32.ofNat i := by
  rw [Nat.add_comm i 1, UInt32.ofNat_add, UInt32.add_assoc]
  rfl

/-- What an admitted access covers ends within the address space, because the region does. -/
theorem range_le_of_check {m : Memory} (hend : m.EndsInSpace) {kind : AccessKind} {address : UInt32}
    {count : Nat} (h : m.check kind address count = .ok ()) : address.toNat + count ≤ 2 ^ 32 := by
  obtain ⟨r, hleaf, hcovers, -⟩ := check_eq_ok h
  have hspace := hend r (leaf_mem_regions hleaf)
  have hfit := (Region.covers_iff.mp hcovers).2
  omega

/-- A part of an admitted range that is not empty is admitted too. The condition is needed: at the
end of a region the address belongs to what follows, and an empty access there is an access to
that. -/
theorem check_part {m : Memory} (hm : m.Ordered) (hend : m.EndsInSpace) {kind : AccessKind}
    {address : UInt32} {count i n : Nat} (h : m.check kind address count = .ok ()) (hn : 0 < n)
    (hfit : i + n ≤ count) : m.check kind (address + UInt32.ofNat i) n = .ok () := by
  have hrange := range_le_of_check hend h
  obtain ⟨r, hleaf, hcovers, hallows⟩ := check_eq_ok h
  obtain ⟨hbase, hlimit⟩ := Region.covers_iff.mp hcovers
  have hto : (address + UInt32.ofNat i).toNat = address.toNat + i := toNat_add_ofNat (by omega)
  have hle : address ≤ address + UInt32.ofNat i := UInt32.le_iff_toNat_le.mpr (by omega)
  have hpart : r.covers (address + UInt32.ofNat i) n = true :=
    Region.covers_iff.mpr ⟨by omega, by omega⟩
  rw [check, leaf_eq_of_le hle (by omega) hm hleaf]
  show r.check kind (address + UInt32.ofNat i) n = .ok ()
  rw [Region.check, hpart, hallows]
  rfl

/-! ### Reading -/

/-- A byte reads as memory has it, if it can be read. The default is never used, since a byte that
can be read is there. -/
theorem readByte_eq {m : Memory} (hm : m.Ordered) (a : UInt32) :
    m.readByte a = (m.check .read a 1).map fun _ => (m.byte? a.toNat).getD 0 := by
  rw [readByte, readNat]
  obtain ⟨e, hcheck, hread⟩ | ⟨hcheck, r, -, -, hread⟩ := m.read_cases a 1
  · rw [hcheck, hread]
    rfl
  · obtain ⟨hlength, hbytes⟩ := getElem?_read hm hread
    generalize (r.bytes.data.toList.drop (r.offset a)).take 1 = bytes at hread hlength hbytes
    obtain ⟨b, rfl⟩ := List.length_eq_one_iff.mp hlength
    have hb : m.byte? a.toNat = some b := (hbytes 0 Nat.one_pos).symm
    rw [hcheck, hread, hb]
    simp [Functor.map, Except.map, bigEndian]

/-- The bytes of a read are those that single reads give. Each single read is admitted as a part of
the range. -/
theorem readByte_of_read {m : Memory} (hm : m.Ordered) (hend : m.EndsInSpace) {address : UInt32}
    {count : Nat} {bytes : List UInt8} (h : m.read address count = .ok bytes) {i : Nat}
    (hi : i < bytes.length) : m.readByte (address + UInt32.ofNat i) = .ok bytes[i] := by
  obtain ⟨rfl, hbytes⟩ := getElem?_read hm h
  have hcheck := read_isOk_iff.mp ⟨bytes, h⟩
  have hrange := range_le_of_check hend hcheck
  have hone := check_part hm hend hcheck Nat.one_pos (i := i) (by omega)
  have hbyte := hbytes i hi
  rw [List.getElem?_eq_getElem hi] at hbyte
  rw [readByte_eq hm, hone, toNat_add_ofNat (by omega), ← hbyte]
  rfl

/-- Reading one by one collects what the single reads give. -/
theorem readBytewise_of_readByte {m : Memory} {address : UInt32} {bytes : List UInt8}
    (h : ∀ i (hi : i < bytes.length), m.readByte (address + UInt32.ofNat i) = .ok bytes[i]) :
    m.readBytewise address bytes.length = .ok bytes := by
  induction bytes generalizing address with
  | nil => rfl
  | cons b rest ih =>
      have hfirst : m.readByte address = .ok b := by
        have hzero := h 0 (Nat.zero_lt_succ _)
        rwa [show address + UInt32.ofNat 0 = address from UInt32.add_zero address] at hzero
      have hrest : m.readBytewise (address + 1) rest.length = .ok rest := by
        apply ih
        intro i hi
        have hsucc := h (i + 1) (Nat.succ_lt_succ hi)
        rwa [add_ofNat_succ] at hsucc
      rw [List.length_cons, readBytewise, hfirst]
      show (do return b :: (← m.readBytewise (address + 1) rest.length)) = Except.ok (b :: rest)
      rw [hrest]
      rfl

/-- A read gives the bytes that reading one by one gives. -/
theorem readBytewise_of_read {m : Memory} (hm : m.Ordered) (hend : m.EndsInSpace) {address : UInt32}
    {count : Nat} {bytes : List UInt8} (h : m.read address count = .ok bytes) :
    m.readBytewise address count = .ok bytes := by
  obtain ⟨rfl, -⟩ := getElem?_read hm h
  exact readBytewise_of_readByte fun i hi => readByte_of_read hm hend h hi

/-! ### Writing -/

/-- A write of several bytes is a write of the first followed by one of the others. The memories on
both sides have one layout and the same bytes, so they are equal. -/
theorem poke_cons {m : Memory} (hm : m.Ordered) (hend : m.EndsInSpace) {address : UInt32}
    {b : UInt8} {rest : List UInt8} (h : m.check .write address (b :: rest).length = .ok ())
    (hrest : rest ≠ []) :
    (m.poke address [b]).check .write (address + 1) rest.length = .ok () ∧
      (m.poke address [b]).poke (address + 1) rest = m.poke address (b :: rest) := by
  have hpos : 0 < rest.length := List.length_pos_iff.mpr hrest
  have hrange := range_le_of_check hend h
  rw [List.length_cons] at hrange
  have hone : m.check .write address [b].length = .ok () := by
    have hpart := check_part hm hend h Nat.one_pos (i := 0) (by simp)
    simpa using hpart
  have hblank : m.blank = (m.poke address [b]).blank := (blank_poke m address [b]).symm
  have hothers : (m.poke address [b]).check .write (address + 1) rest.length = .ok () := by
    rw [← check_congr hblank]
    exact check_part hm hend h hpos (i := 1) (by simp [Nat.add_comm])
  have hto : (address + 1).toNat = address.toNat + 1 := toNat_add_ofNat (i := 1) (by omega)
  refine ⟨hothers, ?_⟩
  have hm₁ : (m.poke address [b]).Ordered := ordered_of_blank hblank hm
  apply ext_bytes (ordered_poke hm₁ _ _)
  · rw [blank_poke, blank_poke, blank_poke]
  · -- the first byte comes from the first write, the others from the second
    intro a
    rw [byte?_poke hm₁ hothers, byte?_poke hm hone, byte?_poke hm h, hto]
    simp only [List.length_cons, List.length_nil, Nat.zero_add]
    by_cases hhere : a = address.toNat
    · subst hhere
      rw [if_neg (by omega), if_pos (by omega), if_pos (by omega), Nat.sub_self]
      rfl
    · by_cases hin : address.toNat + 1 ≤ a ∧ a < address.toNat + 1 + rest.length
      · rw [if_pos hin, if_pos (by omega),
          show a - address.toNat = a - (address.toNat + 1) + 1 by omega, List.getElem?_cons_succ]
      · rw [if_neg hin, if_neg (by omega), if_neg (by omega)]

/-- A write moves no region. -/
theorem endsInSpace_poke {m : Memory} (hend : m.EndsInSpace) (address : UInt32)
    (data : List UInt8) : (m.poke address data).EndsInSpace := by
  intro r hr
  obtain ⟨s, hs, rfl | rfl⟩ := mem_regions_updateLeaf hr
  · exact hend r hs
  · have hsize := (keepsWindows_poke address data).size s
    show s.base.toNat + (s.poke address data).size ≤ 2 ^ 32
    rw [hsize]
    exact hend s hs

theorem writeNat_one (m : Memory) (address : UInt32) (b : UInt8) :
    m.writeNat address 1 b.toNat = m.write address [b] := by
  have hbyte : toBigEndian 1 b.toNat = [b] := by simp [toBigEndian]
  rw [writeNat, hbyte]

/-- An admitted write does what writing byte by byte does. The induction is on the data: after the
first byte the rest is still admitted, because writing does not change the layout. -/
theorem writeBytewise_eq {m : Memory} (hm : m.Ordered) (hend : m.EndsInSpace) {address : UInt32}
    {data : List UInt8} (h : m.check .write address data.length = .ok ()) :
    m.writeBytewise address data = .ok (m.poke address data) := by
  induction data generalizing m address with
  | nil =>
      have hsame : m.poke address [] = m := by
        apply ext_bytes (ordered_poke hm _ _) (blank_poke m address [])
        intro a
        rw [byte?_poke hm h, if_neg (by simp)]
      rw [writeBytewise, hsame]
  | cons b rest ih =>
      have hone : m.check .write address [b].length = .ok () := by
        simpa using check_part hm hend h Nat.one_pos (i := 0) (by simp)
      rw [writeBytewise, writeNat_one, write_eq_ok_iff.mpr ⟨hone, rfl⟩]
      show (m.poke address [b]).writeBytewise (address + 1) rest = .ok (m.poke address (b :: rest))
      by_cases hrest : rest = []
      · subst hrest
        rfl
      · obtain ⟨hcheck, hpoke⟩ := poke_cons hm hend h hrest
        rw [ih (ordered_poke hm _ _) (endsInSpace_poke hend _ _) hcheck, hpoke]

/-- What an admitted write does, one byte at a time: inside the range by `byte?_poke`, outside
because nothing else is touched. -/
theorem writtenBytewise_of_write {m m' : Memory} (hm : m.Ordered) (hend : m.EndsInSpace)
    {address : UInt32} {data : List UInt8} (h : m.write address data = .ok m') :
    WrittenBytewise m m' address data := by
  obtain ⟨hcheck, rfl⟩ := write_eq_ok_iff.mp h
  have hrange := range_le_of_check hend hcheck
  have hsame (a : UInt32) : (m.poke address data).check .read a 1 = m.check .read a 1 :=
    check_congr (blank_poke m address data) .read a 1
  refine ⟨writeBytewise_eq hm hend hcheck, ?_, ?_⟩
  · intro i hi
    rw [readByte_eq (ordered_poke hm _ _), readByte_eq hm, hsame, toNat_add_ofNat (by omega),
      byte?_poke hm hcheck, if_pos (by omega), Nat.add_sub_cancel_left, List.getElem?_eq_getElem hi]
    cases m.check .read (address + UInt32.ofNat i) 1 <;> rfl
  · intro a ha
    rw [UInt32.lt_iff_toNat_lt] at ha
    rw [readByte_eq (ordered_poke hm _ _), readByte_eq hm, hsame, byte?_poke hm hcheck,
      if_neg (by omega)]

/-- Every access to a map of regions is made of accesses to single bytes. A read gives the bytes, or
the big-endian number, that single reads at successive addresses give; a write does what single
writes do there, and changes nothing else. All of it happens, or nothing does: the access is
admitted exactly if its range lies in the one region that contains its first address and that region
permits it, and a refused write gives no memory that could differ. `m` is the map with any contents.

The proof rests on the view of memory as layout and bytes: admission is a matter of the layout,
which writes keep, and a read or a write is settled by the bytes of its range. -/
theorem accesses_are_bytewise {parts : List Memory} (hmap : (Memory.map parts).Composed)
    {m : Memory} (hstate : m.blank = (Memory.map parts).blank) (hend : m.EndsInSpace)
    (address : UInt32) :
    (∀ count, ((∃ bytes, m.read address count = .ok bytes) ↔ m.Admits .read address count) ∧
      ∀ bytes, m.read address count = .ok bytes → m.readBytewise address count = .ok bytes) ∧
    (∀ width, ((∃ n, m.readNat address width = .ok n) ↔ m.Admits .read address width) ∧
      ∀ n, m.readNat address width = .ok n →
        bigEndian <$> m.readBytewise address width = .ok n) ∧
    (∀ data, ((∃ m', m.write address data = .ok m') ↔ m.Admits .write address data.length) ∧
      ∀ m', m.write address data = .ok m' → WrittenBytewise m m' address data) ∧
    ∀ width value, ((∃ m', m.writeNat address width value = .ok m') ↔
        m.Admits .write address width) ∧
      ∀ m', m.writeNat address width value = .ok m' →
        WrittenBytewise m m' address (toBigEndian width value) := by
  have hm : m.Ordered := ordered_of_blank hstate.symm hmap.built.ordered
  have hadmits {kind : AccessKind} {count : Nat} :
      m.check kind address count = .ok () ↔ m.Admits kind address count := by
    cases m with
    | region r =>
        rw [blank, blank] at hstate
        cases hstate
    | map parts' =>
        rw [Ordered] at hm
        exact check_eq_ok_iff hm
  have hwrite (data : List UInt8) :
      (∃ m', m.write address data = .ok m') ↔ m.Admits .write address data.length := by
    simp only [write_eq_ok_iff, ← hadmits, exists_and_left, exists_eq, and_true]
  refine ⟨?_, ?_, ?_, ?_⟩
  · intro count
    exact ⟨read_isOk_iff.trans hadmits, fun bytes h => readBytewise_of_read hm hend h⟩
  · intro width
    constructor
    · rw [← hadmits, ← read_isOk_iff, readNat]
      cases m.read address width <;> simp [Functor.map, Except.map]
    · intro n hn
      rw [readNat] at hn
      cases hread : m.read address width with
      | error e =>
          rw [hread] at hn
          cases hn
      | ok bytes => rw [readBytewise_of_read hm hend hread, ← hn, hread]
  · intro data
    exact ⟨hwrite data, fun m' h => writtenBytewise_of_write hm hend h⟩
  · intro width value
    refine ⟨?_, fun m' h => writtenBytewise_of_write hm hend h⟩
    have hdata := hwrite (toBigEndian width value)
    rwa [length_toBigEndian] at hdata

/-- Two regions without a gap between them, the second up to the last address. A range that starts
in the first and ends in the second is refused although every byte of it could be written. -/
def summit : List Memory :=
  attempts []
    [.region (.ofBytes "high" 0xFFFFFFFC [5, 6, 7, 8] ⟨true, true⟩),
      .region (.ofBytes "low" 0xFFFFFFF8 [1, 2, 3, 4] ⟨true, true⟩)]

theorem accesses_are_bytewise_summit :
    (Memory.map summit).Composed ∧ (Memory.map summit).EndsInSpace ∧
      (Memory.map summit).readBytewise 0xFFFFFFF8 4 = .ok [1, 2, 3, 4] ∧
      (∃ m', (Memory.map summit).writeNat 0xFFFFFFFC 4 0x090A0B0C = .ok m' ∧
        WrittenBytewise (.map summit) m' 0xFFFFFFFC [9, 10, 11, 12]) ∧
      ¬ (Memory.map summit).Admits .write 0xFFFFFFFA 4 := by
  have hmap : (Memory.map summit).Composed := by
    refine .map fun part hpart => ?_
    simp only [List.mem_cons, List.not_mem_nil, or_false] at hpart
    rcases hpart with rfl | rfl <;> exact .region _
  have hend : (Memory.map summit).EndsInSpace := by
    unfold EndsInSpace
    decide
  obtain ⟨hread, -, -, -⟩ := accesses_are_bytewise hmap rfl hend 0xFFFFFFF8
  obtain ⟨-, -, -, hwriteNat⟩ := accesses_are_bytewise hmap rfl hend 0xFFFFFFFC
  obtain ⟨-, -, hwrite, -⟩ := accesses_are_bytewise hmap rfl hend 0xFFFFFFFA
  refine ⟨hmap, hend, (hread 4).2 _ (by decide), ?_, ?_⟩
  · exact ⟨_, rfl, (hwriteNat 4 0x090A0B0C).2 _ rfl⟩
  · rintro hadmits
    obtain ⟨m', hm'⟩ := (hwrite [0, 0, 0, 0]).1.mpr hadmits
    cases hm'

end RegisterVM.Memory
