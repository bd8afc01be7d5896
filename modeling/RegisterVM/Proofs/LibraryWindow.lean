import RegisterVM.Library.Window
import RegisterVM.Proofs.Lookup
import RegisterVM.Proofs.MemoryExtension

/-!
# The layout of the library window

Libraries are mapped one by one, and each has to find its slot free. It does: whatever is mapped
before lies below the slot (`parts_below`), so a library always comes last and the memory of a
window can be written down without going through the additions (`imageOf`). Which region an address
belongs to, what is left for memory after the window and how much is mapped are read off that list.

Slots are counted in numbers, while regions start at words; a window that fits into memory keeps the
two the same, up to the very last address.
-/

namespace RegisterVM

namespace Library.Window

/-! ### Slots -/

/-- The address of a slot, as a number. -/
def slotStart (base : UInt32) (i : Nat) : Nat := base.toNat + tableSize + i * slotSize

/-- How far a slot is from the base of its window, in the arithmetic of addresses: each slot adds
its size to the offset of the one before. -/
def slotOffset : Nat → UInt32
  | 0 => UInt32.ofNat tableSize
  | i + 1 => slotOffset i + UInt32.ofNat slotSize

/-- The region of a library. It can be read and not written. -/
def chunk (address : Nat) (library : String × List UInt8) : Region :=
  .ofBytes library.1 (UInt32.ofNat address) library.2 ⟨true, false⟩

/-- The regions of libraries, slot by slot from an address on. A library takes a slot whether or not
it has bytes. -/
def chunksFrom (address : Nat) : List (String × List UInt8) → List (String × Region)
  | [] => []
  | library :: rest => (library.1, chunk address library) :: chunksFrom (address + slotSize) rest

/-- What is mapped of libraries, slot by slot from an address on. A library without bytes leaves its
slot empty. -/
def partsFrom (address : Nat) : List (String × List UInt8) → List Memory
  | [] => []
  | library :: rest =>
      (if library.2.isEmpty then [] else [.region (chunk address library)]) ++
        partsFrom (address + slotSize) rest

/-- A window with more libraries, slot by slot from an address on. This is what a run of additions
comes to. -/
def extend (w : Window) (parts : List Memory) (address : Nat)
    (libraries : List (String × List UInt8)) : Window :=
  { w with
    memory := .map (parts ++ partsFrom address libraries)
    chunks := (chunksFrom address libraries).reverse ++ w.chunks }

theorem toNat_base_chunk {address : Nat} (h : address < 2 ^ 32) (library : String × List UInt8) :
    (chunk address library).base.toNat = address := by
  show (UInt32.ofNat address).toNat = address
  rw [UInt32.toNat_ofNat', Nat.mod_eq_of_lt h]

theorem size_chunk (address : Nat) (library : String × List UInt8) :
    (chunk address library).size = library.2.length := Region.size_ofBytes ..

theorem span_region (r : Region) : (Memory.region r).span = r.size := by
  rw [Memory.span, Memory.limit, Memory.base, Nat.add_sub_cancel_left]

/-- A library is mapped after everything below its slot, so the addition cannot be refused. -/
theorem addChunk_eq {w : Window} {parts : List Memory} {address : Nat} (hw : w.memory = .map parts)
    (hparts : ∀ p ∈ parts, p.base.toNat < address ∧ p.base.toNat + p.span ≤ address)
    (hspace : address < 2 ^ 32) (name : String) (bytes : List UInt8) :
    w.addChunk name address bytes = .ok (w.extend parts address [(name, bytes)]) := by
  have hbase := toNat_base_chunk hspace (name, bytes)
  have hadd : Memory.addPart parts (.region (chunk address (name, bytes))) =
      .ok (parts ++ [.region (chunk address (name, bytes))]) := by
    apply Memory.addPart_last
    intro p hp
    rw [UInt32.lt_iff_toNat_lt, Memory.base, hbase]
    exact hparts p hp
  unfold addChunk extend
  cases bytes with
  | nil => simp [partsFrom, chunksFrom, chunk, ← hw]
  | cons first rest =>
      rw [hw]
      simp only [Memory.add]
      rw [show Memory.addPart parts (.region (.ofBytes name (UInt32.ofNat address) (first :: rest)
        ⟨true, false⟩)) = _ from hadd]
      rfl

/-- Parts below a slot and a library in it are below the next slot. It is what carries the induction
over the libraries. -/
theorem parts_below {parts : List Memory} {address : Nat}
    (hparts : ∀ p ∈ parts, p.base.toNat < address ∧ p.base.toNat + p.span ≤ address)
    (hspace : address < 2 ^ 32) {library : String × List UInt8}
    (hsize : library.2.length ≤ slotSize) :
    ∀ p ∈ parts ++ partsFrom address [library], p.base.toNat < address + slotSize ∧
      p.base.toNat + p.span ≤ address + slotSize := by
  have hpos : 0 < slotSize := by decide
  intro p hp
  rcases List.mem_append.mp hp with hp | hp
  · have hbelow := hparts p hp
    omega
  · have hchunk : p = .region (chunk address library) := by
      simp only [partsFrom, List.append_nil] at hp
      split at hp
      · cases hp
      · exact List.mem_singleton.mp hp
    rw [hchunk, span_region, size_chunk, Memory.base, toNat_base_chunk hspace]
    omega

theorem loadChunk_eq_ok {source : Source} {name : String} {bytes : List UInt8} :
    loadChunk source name = .ok bytes ↔ source.load name = .ok bytes ∧ bytes.length ≤ slotSize := by
  unfold loadChunk withinContext
  cases source.load name with
  | error e => simp [Except.mapError, bind, Except.bind]
  | ok loaded =>
      by_cases hsize : slotSize < loaded.length
      · simp only [Except.mapError, bind, Except.bind, hsize, if_true, throw, throwThe,
          MonadExceptOf.throw, reduceCtorEq, Except.ok.injEq, false_iff, not_and]
        rintro rfl
        omega
      · simp only [Except.mapError, bind, Except.bind, hsize, if_false, pure, Except.pure,
          Except.ok.injEq]
        constructor
        · rintro rfl
          exact ⟨rfl, by omega⟩
        · exact And.left

/-- A library that can be loaded takes its slot, and the others follow. -/
theorem addChunks_cons {source : Source} {w : Window} {parts : List Memory} {address : Nat}
    (hw : w.memory = .map parts)
    (hparts : ∀ p ∈ parts, p.base.toNat < address ∧ p.base.toNat + p.span ≤ address)
    (hspace : address < 2 ^ 32) {name : String} {bytes : List UInt8}
    (hload : loadChunk source name = .ok bytes) (rest : List String) :
    addChunks source address (name :: rest) w =
      addChunks source (address + slotSize) rest (w.extend parts address [(name, bytes)]) := by
  rw [addChunks, hload]
  show w.addChunk name address bytes >>= addChunks source (address + slotSize) rest = _
  rw [addChunk_eq hw hparts hspace]
  rfl

/-- All that mapping libraries can do: every one of them is loaded and put into its slot, or one of
them is refused. There is always room. -/
theorem addChunks_cases (source : Source) {names : List String} {w : Window} {parts : List Memory}
    {address : Nat} (hw : w.memory = .map parts)
    (hparts : ∀ p ∈ parts, p.base.toNat < address ∧ p.base.toNat + p.span ≤ address)
    (hroom : address + names.length * slotSize ≤ 2 ^ 32) :
    (∃ libraries, names = libraries.map Prod.fst ∧
      (∀ library ∈ libraries, loadChunk source library.1 = .ok library.2) ∧
      addChunks source address names w = .ok (w.extend parts address libraries)) ∨
    ∃ name ∈ names, ∃ e, loadChunk source name = .error e ∧
      addChunks source address names w = .error e := by
  induction names generalizing w parts address with
  | nil =>
      refine .inl ⟨[], rfl, by simp, ?_⟩
      simp [addChunks, extend, partsFrom, chunksFrom, ← hw]
  | cons name rest ih =>
      have hpos : 0 < slotSize := by decide
      rw [List.length_cons, Nat.succ_mul] at hroom
      cases hload : loadChunk source name with
      | error e =>
          refine .inr ⟨name, List.mem_cons_self, e, hload, ?_⟩
          rw [addChunks, hload]
          rfl
      | ok bytes =>
          have hsize := (loadChunk_eq_ok.mp hload).2
          rw [addChunks_cons hw hparts (by omega) hload]
          rcases ih (w := w.extend parts address [(name, bytes)]) rfl
            (parts_below hparts (by omega) hsize) (by omega) with
            ⟨libraries, rfl, hloads, hadd⟩ | ⟨other, hother, e, he, hadd⟩
          · refine .inl ⟨(name, bytes) :: libraries, rfl, ?_, ?_⟩
            · rintro library (_ | ⟨_, hlibrary⟩)
              · exact hload
              · exact hloads library hlibrary
            · rw [hadd]
              simp [extend, partsFrom, chunksFrom]
          · exact .inr ⟨other, List.mem_cons_of_mem name hother, e, he, hadd⟩

/-! ### Regions -/

theorem mem_chunksFrom {address : Nat} {libraries : List (String × List UInt8)}
    {entry : String × Region} :
    entry ∈ chunksFrom address libraries ↔ ∃ i library, libraries[i]? = some library ∧
      entry = (library.1, chunk (address + i * slotSize) library) := by
  induction libraries generalizing address with
  | nil => simp [chunksFrom]
  | cons first rest ih =>
      rw [chunksFrom, List.mem_cons, ih]
      constructor
      · rintro (rfl | ⟨i, library, hi, rfl⟩)
        · exact ⟨0, first, rfl, by simp⟩
        · refine ⟨i + 1, library, hi, ?_⟩
          rw [Nat.succ_mul, Nat.add_assoc, Nat.add_comm slotSize]
      · rintro ⟨i, library, hi, rfl⟩
        cases i with
        | zero =>
            obtain rfl : first = library := Option.some.inj hi
            exact .inl (by simp)
        | succ i =>
            refine .inr ⟨i, library, hi, ?_⟩
            rw [Nat.succ_mul, Nat.add_assoc, Nat.add_comm slotSize]

theorem mem_partsFrom {address : Nat} {libraries : List (String × List UInt8)} {part : Memory} :
    part ∈ partsFrom address libraries ↔ ∃ i library, libraries[i]? = some library ∧
      library.2 ≠ [] ∧ part = .region (chunk (address + i * slotSize) library) := by
  have hparts : partsFrom address libraries = ((chunksFrom address libraries).filter fun entry =>
      decide (0 < entry.2.size)).map fun entry => .region entry.2 := by
    induction libraries generalizing address with
    | nil => rfl
    | cons first rest ih =>
        rw [partsFrom, chunksFrom, ih, List.filter_cons]
        cases hempty : first.2 with
        | nil => simp [size_chunk, hempty]
        | cons b others => simp [size_chunk, hempty]
  rw [hparts, List.mem_map]
  constructor
  · rintro ⟨entry, hentry, rfl⟩
    obtain ⟨hmem, hsize⟩ := List.mem_filter.mp hentry
    obtain ⟨i, library, hi, rfl⟩ := mem_chunksFrom.mp hmem
    refine ⟨i, library, hi, ?_, rfl⟩
    rintro hnil
    simp [size_chunk, hnil] at hsize
  · rintro ⟨i, library, hi, hne, rfl⟩
    refine ⟨_, List.mem_filter.mpr ⟨mem_chunksFrom.mpr ⟨i, library, hi, rfl⟩, ?_⟩, rfl⟩
    simpa [size_chunk] using List.length_pos_iff.mpr hne

/-- What is mapped of libraries is in order, slot by slot. -/
theorem orderedFrom_partsFrom {libraries : List (String × List UInt8)} {low address : Nat}
    (hlow : low ≤ address) (hroom : address + libraries.length * slotSize ≤ 2 ^ 32)
    (hsizes : ∀ library ∈ libraries, library.2.length ≤ slotSize) :
    Memory.OrderedFrom low (partsFrom address libraries) := by
  induction libraries generalizing low address with
  | nil =>
      rw [partsFrom, Memory.OrderedFrom]
      trivial
  | cons first rest ih =>
      have hpos : 0 < slotSize := by decide
      have hfirst := hsizes first List.mem_cons_self
      have hrest : ∀ library ∈ rest, library.2.length ≤ slotSize :=
        fun library hlibrary => hsizes library (List.mem_cons_of_mem first hlibrary)
      rw [List.length_cons, Nat.succ_mul] at hroom
      rw [partsFrom]
      split
      · exact ih (by omega) (by omega) hrest
      · have hbase : (chunk address first).base.toNat = address := toNat_base_chunk (by omega) first
        rw [List.singleton_append, Memory.OrderedFrom, Memory.base, Memory.limit, Memory.Ordered,
          hbase, size_chunk]
        exact ⟨hlow, trivial, ih (by omega) (by omega) hrest⟩

/-- The memory of a window: the table, and what is mapped of the libraries. -/
def imageOf (base : UInt32) (libraries : List (String × List UInt8)) : Memory :=
  .map (.region (table base) :: partsFrom (base.toNat + tableSize) libraries)

/-- Libraries that fit into their slots in a window that fits into memory. The last slot may end at
the very end of it. -/
structure Fits (base : UInt32) (libraries : List (String × List UInt8)) : Prop where
  room : endAddress base libraries.length ≤ addressSpace
  sizes : ∀ library ∈ libraries, library.2.length ≤ slotSize

section

variable {base : UInt32} {libraries : List (String × List UInt8)}

theorem Fits.room_le (h : Fits base libraries) :
    base.toNat + tableSize + libraries.length * slotSize ≤ 2 ^ 32 := h.room

theorem limit_table (base : UInt32) :
    (Memory.region (table base)).limit = base.toNat + tableSize := by
  rw [Memory.limit, table, Region.size_zeros]
  rfl

theorem ordered_imageOf (h : Fits base libraries) : (imageOf base libraries).Ordered := by
  rw [imageOf, Memory.Ordered, Memory.OrderedFrom, limit_table, Memory.Ordered]
  exact ⟨Nat.zero_le _, trivial, orderedFrom_partsFrom (Nat.le_refl _) h.room_le h.sizes⟩

theorem slotStart_lt (h : Fits base libraries) {i : Nat} (hi : i < libraries.length) :
    slotStart base i + slotSize ≤ 2 ^ 32 := by
  have hroom := h.room_le
  have hslots : (i + 1) * slotSize ≤ libraries.length * slotSize := Nat.mul_le_mul_right _ hi
  rw [Nat.succ_mul] at hslots
  rw [slotStart]
  omega

/-- The regions of a window are its table and its libraries, those without bytes left out. -/
theorem mem_regions_imageOf {r : Region} : r ∈ (imageOf base libraries).regions ↔
    r = table base ∨ ∃ i library, libraries[i]? = some library ∧ library.2 ≠ [] ∧
      r = chunk (slotStart base i) library := by
  have hregion (s : Region) : r ∈ (Memory.region s).regions ↔ r = s := by
    rw [Memory.regions, List.mem_singleton]
  rw [imageOf, Memory.regions, Memory.mem_regionsOf, List.exists_mem_cons_iff, hregion]
  constructor
  · rintro (htable | ⟨part, hpart, hr⟩)
    · exact .inl htable
    · obtain ⟨i, library, hi, hne, rfl⟩ := mem_partsFrom.mp hpart
      exact .inr ⟨i, library, hi, hne, (hregion _).mp hr⟩
  · rintro (htable | ⟨i, library, hi, hne, rfl⟩)
    · exact .inl htable
    · exact .inr ⟨_, mem_partsFrom.mpr ⟨i, library, hi, hne, rfl⟩, (hregion _).mpr rfl⟩

theorem contains_table {a : UInt32} : (table base).contains a = true ↔
    base.toNat ≤ a.toNat ∧ a.toNat < base.toNat + tableSize := by
  rw [Region.contains_iff, table, Region.size_zeros]
  rfl

theorem toNat_base_slot (h : Fits base libraries) {i : Nat} {library : String × List UInt8}
    (hi : libraries[i]? = some library) :
    (chunk (slotStart base i) library).base.toNat = slotStart base i := by
  have hpos : 0 < slotSize := by decide
  have hspace := slotStart_lt h (List.getElem?_eq_some_iff.mp hi).1
  exact toNat_base_chunk (by omega) library

theorem contains_chunk (h : Fits base libraries) {i : Nat} {library : String × List UInt8}
    (hi : libraries[i]? = some library) {a : UInt32} :
    (chunk (slotStart base i) library).contains a = true ↔
      slotStart base i ≤ a.toNat ∧ a.toNat < slotStart base i + library.2.length := by
  rw [Region.contains_iff, toNat_base_slot h hi, size_chunk]

/-- An access to the table goes there. -/
theorem leaf_table (h : Fits base libraries) {a : UInt32} (hlow : base.toNat ≤ a.toNat)
    (hhigh : a.toNat < base.toNat + tableSize) :
    (imageOf base libraries).leaf? a = some (table base) :=
  Memory.leaf_of_contains (ordered_imageOf h) (mem_regions_imageOf.mpr (.inl rfl))
    (contains_table.mpr ⟨hlow, hhigh⟩)

/-- An access to a byte of a library goes to its region. -/
theorem leaf_library (h : Fits base libraries) {i : Nat} {library : String × List UInt8}
    (hi : libraries[i]? = some library) {j : Nat} (hj : j < library.2.length) {a : UInt32}
    (ha : a.toNat = slotStart base i + j) :
    (imageOf base libraries).leaf? a = some (chunk (slotStart base i) library) := by
  have hne : library.2 ≠ [] := List.length_pos_iff.mp (by omega)
  refine Memory.leaf_of_contains (ordered_imageOf h)
    (mem_regions_imageOf.mpr (.inr ⟨i, library, hi, hne, rfl⟩)) ?_
  rw [contains_chunk h hi]
  omega

/-- An access to anything else goes nowhere, also one to the rest of a slot. -/
theorem leaf_elsewhere (h : Fits base libraries) {a : UInt32}
    (htable : ¬ (base.toNat ≤ a.toNat ∧ a.toNat < base.toNat + tableSize))
    (hlibrary : ∀ i library, libraries[i]? = some library →
      ¬ (slotStart base i ≤ a.toNat ∧ a.toNat < slotStart base i + library.2.length)) :
    (imageOf base libraries).leaf? a = none := by
  cases hleaf : (imageOf base libraries).leaf? a with
  | none => rfl
  | some r =>
      have hr := Memory.leaf_mem_regions hleaf
      rw [imageOf, Memory.leaf?] at hleaf
      have hin := Memory.contains_of_leafAmong hleaf
      rcases mem_regions_imageOf.mp hr with rfl | ⟨i, library, hi, -, rfl⟩
      · exact absurd (contains_table.mp hin) htable
      · exact absurd ((contains_chunk h hi).mp hin) (hlibrary i library hi)

/-! ### What memory answers -/

theorem check_of_leaf {m : Memory} {a : UInt32} {r : Region} (h : m.leaf? a = some r)
    (kind : AccessKind) (count : Nat) : m.check kind a count = r.check kind a count := by
  rw [Memory.check, h]

/-- What memory answers at every address while it holds a window of libraries: the table can be read
and written, a library can only be read, and there is nothing else. A write to a library that would
also go past its end is refused for that reason. -/
structure Serves (m : Memory) (base : UInt32) (libraries : List (String × List UInt8)) : Prop where
  table : ∀ a : UInt32, base.toNat ≤ a.toNat → a.toNat < base.toNat + tableSize →
    (∃ b, m.readByte a = .ok b) ∧
      ∀ b : UInt8, ∃ m', m.writeNat a 1 b.toNat = .ok m' ∧ m'.readByte a = .ok b
  library : ∀ i library, libraries[i]? = some library →
    ∀ j (hj : j < library.2.length) (a : UInt32),
    a.toNat = slotStart base i + j →
      m.readByte a = .ok library.2[j] ∧
        ∀ data, m.write a data =
          .error (if j + data.length ≤ library.2.length then .violation else .outOfBounds)
  elsewhere : ∀ a : UInt32, ¬ (base.toNat ≤ a.toNat ∧ a.toNat < base.toNat + tableSize) →
    (∀ i library, libraries[i]? = some library →
      ¬ (slotStart base i ≤ a.toNat ∧ a.toNat < slotStart base i + library.2.length)) →
    m.GoesNowhere a

theorem check_table {kind : AccessKind} {a : UInt32} (hlow : base.toNat ≤ a.toNat)
    (hhigh : a.toNat < base.toNat + tableSize) : (table base).check kind a 1 = .ok () := by
  have hcovers : (table base).covers a 1 = true := contains_table.mpr ⟨hlow, hhigh⟩
  rw [Region.check, hcovers]
  cases kind <;> rfl

theorem byte?_table {a : Nat} (hlow : base.toNat ≤ a) (hhigh : a < base.toNat + tableSize) :
    (table base).byte? a = some 0 := by
  rw [Region.byte?, table, Region.zeros]
  dsimp only
  rw [if_pos hlow, toList_zeroBytes, List.getElem?_replicate, if_pos (by omega)]

/-- The table is zero at first. -/
theorem readByte_table (h : Fits base libraries) {a : UInt32} (hlow : base.toNat ≤ a.toNat)
    (hhigh : a.toNat < base.toNat + tableSize) : (imageOf base libraries).readByte a = .ok 0 := by
  have hleaf := leaf_table h hlow hhigh
  have hbyte : (imageOf base libraries).byte? a.toNat = some 0 := by
    rw [Memory.byte?_of_leaf (Nat.le_refl _) hlow (by rw [table, Region.size_zeros]; exact hhigh)
      (ordered_imageOf h) hleaf]
    exact byte?_table hlow hhigh
  rw [Memory.readByte_eq (ordered_imageOf h), check_of_leaf hleaf, check_table hlow hhigh, hbyte]
  rfl

section

variable {m : Memory} (h : Fits base libraries) (hm : (imageOf base libraries).Written m)

include h hm

theorem ordered_of_written : m.Ordered :=
  Memory.ordered_of_blank hm.blank.symm (ordered_imageOf h)

theorem table_served {a : UInt32} (hlow : base.toNat ≤ a.toNat)
    (hhigh : a.toNat < base.toNat + tableSize) : (∃ b, m.readByte a = .ok b) ∧
      ∀ b : UInt8, ∃ m', m.writeNat a 1 b.toNat = .ok m' ∧ m'.readByte a = .ok b := by
  have hordered := ordered_of_written h hm
  have hok (kind : AccessKind) : m.check kind a 1 = .ok () := by
    rw [Memory.check_congr hm.blank, check_of_leaf (leaf_table h hlow hhigh),
      check_table hlow hhigh]
  constructor
  · rw [Memory.readByte_eq hordered, hok]
    exact ⟨_, rfl⟩
  · intro b
    have hstill : (m.poke a [b]).check .read a 1 = .ok () := by
      rw [Memory.check_congr (Memory.blank_poke m a [b]), hok]
    refine ⟨m.poke a [b], ?_, ?_⟩
    · rw [Memory.writeNat_one]
      exact Memory.write_eq_ok_iff.mpr ⟨hok .write, rfl⟩
    · rw [Memory.readByte_eq (Memory.ordered_poke hordered _ _), hstill,
        Memory.byte?_poke hordered (hok .write),
        if_pos ⟨Nat.le_refl _, Nat.lt_succ_self _⟩, Nat.sub_self]
      rfl

/-- A library reads as it was loaded, whatever was written elsewhere. -/
theorem library_served {i : Nat} {library : String × List UInt8} (hi : libraries[i]? = some library)
    {j : Nat} (hj : j < library.2.length) {a : UInt32} (ha : a.toNat = slotStart base i + j) :
    m.readByte a = .ok library.2[j] ∧ ∀ data, m.write a data =
      .error (if j + data.length ≤ library.2.length then .violation else .outOfBounds) := by
  have hordered := ordered_of_written h hm
  have hbase := toNat_base_slot h hi
  have hsize := size_chunk (slotStart base i) library
  -- the region of a library refuses writes, so no write has changed it
  have hleaf : m.leaf? a = some (chunk (slotStart base i) library) := by
    have hfirst := leaf_library h hi hj ha
    rw [hm.leaf_of_protected (by rw [Memory.writeProtected, hfirst]; rfl), hfirst]
  have hcovers (n : Nat) : (chunk (slotStart base i) library).covers a n =
      decide (j + n ≤ library.2.length) := by
    rw [Bool.eq_iff_iff, Region.covers_iff, hbase, hsize, decide_eq_true_eq]
    omega
  constructor
  · have hread : (chunk (slotStart base i) library).check .read a 1 = .ok () := by
      rw [Region.check, hcovers, decide_eq_true (by omega)]
      rfl
    have hbyte : m.byte? a.toNat = some library.2[j] := by
      rw [Memory.byte?_of_leaf (Nat.le_refl _) (by omega) (by omega) hordered hleaf, Region.byte?,
        if_pos (by omega), hbase, show a.toNat - slotStart base i = j by omega]
      exact List.getElem?_eq_getElem hj
    rw [Memory.readByte_eq hordered, check_of_leaf hleaf, hread, hbyte]
    rfl
  · intro data
    rw [Memory.write, check_of_leaf hleaf, Region.check, hcovers]
    by_cases hfit : j + data.length ≤ library.2.length
    · rw [if_pos hfit, decide_eq_true hfit]
      rfl
    · rw [if_neg hfit, decide_eq_false hfit]
      rfl

theorem nothing_elsewhere {a : UInt32}
    (htable : ¬ (base.toNat ≤ a.toNat ∧ a.toNat < base.toNat + tableSize))
    (hlibrary : ∀ i library, libraries[i]? = some library →
      ¬ (slotStart base i ≤ a.toNat ∧ a.toNat < slotStart base i + library.2.length)) :
    m.GoesNowhere a := by
  have hordered := ordered_of_written h hm
  have hleaf : m.leaf? a = none := by
    have hsame := congrArg (Memory.leaf? a) hm.blank
    rwa [Memory.leaf?_blank, Memory.leaf?_blank, leaf_elsewhere h htable hlibrary, Option.map_none,
      Option.map_eq_none_iff] at hsame
  cases m with
  | region r =>
      rw [Memory.leaf?] at hleaf
      cases hleaf
  | map parts =>
      rw [Memory.Ordered] at hordered
      rw [Memory.leaf?] at hleaf
      exact Memory.goesNowhere_of_leaf hordered hleaf

/-- A window serves its libraries whatever was written. -/
theorem serves_of_written : Serves m base libraries where
  table _ hlow hhigh := table_served h hm hlow hhigh
  library _ _ hi _ hj _ ha := library_served h hm hi hj ha
  elsewhere _ htable hlibrary := nothing_elsewhere h hm htable hlibrary

/-! ### Memory after the window -/

/-- Everything in a window lies below its end. -/
theorem parts_below_end {parts : List Memory} (hparts : m = .map parts) :
    ∀ p ∈ parts, p.base.toNat < endAddress base libraries.length ∧
      p.base.toNat + p.span ≤ endAddress base libraries.length := by
  have hfirst : ∀ q ∈ Memory.region (table base) :: partsFrom (base.toNat + tableSize) libraries,
      q.base.toNat < endAddress base libraries.length ∧
        q.base.toNat + q.span ≤ endAddress base libraries.length := by
    have hsizes : 0 < tableSize ∧ 0 < slotSize := by decide
    rintro q (_ | ⟨_, hq⟩)
    · have hsize : (table base).size = tableSize := Region.size_zeros ..
      rw [span_region, hsize]
      show base.toNat < _ ∧ base.toNat + tableSize ≤ _
      rw [endAddress]
      omega
    · obtain ⟨i, library, hi, -, rfl⟩ := mem_partsFrom.mp hq
      have hlt := (List.getElem?_eq_some_iff.mp hi).1
      have hsize := h.sizes library (List.mem_of_getElem? hi)
      have hslots : (i + 1) * slotSize ≤ libraries.length * slotSize := Nat.mul_le_mul_right _ hlt
      rw [Nat.succ_mul] at hslots
      have hbase := toNat_base_slot h hi
      rw [span_region, size_chunk]
      show (chunk (slotStart base i) library).base.toNat < _ ∧
        (chunk (slotStart base i) library).base.toNat + _ ≤ _
      rw [hbase, slotStart, endAddress]
      omega
  -- the parts of `m` have the windows of those at the beginning
  intro p hp
  have hblank := hm.blank
  rw [hparts, imageOf, Memory.blank, Memory.blank, Memory.map.injEq] at hblank
  obtain ⟨q, hq, hbase, hspan⟩ := Memory.window_of_blank hblank hp
  rw [← hbase, ← hspan]
  exact hfirst q hq

/-- A region that starts at the end of a window is added after everything else. What was written
before does not matter, since it has moved nothing. -/
theorem add_after {ram : Region} (hbase : ram.base.toNat = endAddress base libraries.length) :
    ∃ parts, m = .map parts ∧ m.add (.region ram) = .ok (.map (parts ++ [.region ram])) := by
  have hblank := hm.blank
  cases m with
  | region r =>
      rw [imageOf, Memory.blank, Memory.blank] at hblank
      cases hblank
  | map parts =>
      refine ⟨parts, rfl, ?_⟩
      have hadd : Memory.addPart parts (.region ram) = .ok (parts ++ [.region ram]) := by
        apply Memory.addPart_last
        intro p hp
        rw [UInt32.lt_iff_toNat_lt, Memory.base, hbase]
        exact parts_below_end h hm rfl p hp
      rw [Memory.add, hadd]
      rfl

end

end

/-- Memory with one more part answers below a limit as it does without. A write below the limit
leads to the same memory with that part added, so this goes on to hold. -/
structure KeepsBelow (limit : Nat) (part m m' : Memory) : Prop where
  check : ∀ a : UInt32, a.toNat < limit → ∀ kind count, m'.check kind a count = m.check kind a count
  read : ∀ a : UInt32, a.toNat < limit → ∀ count, m'.read a count = m.read a count
  refused : ∀ a : UInt32, a.toNat < limit → ∀ data e, m.write a data = .error e →
    m'.write a data = .error e
  written : ∀ a : UInt32, a.toNat < limit → ∀ data m₁, m.write a data = .ok m₁ →
    ∃ m₁', m₁.add part = .ok m₁' ∧ m'.write a data = .ok m₁'

/-- A region added at the end of a window changes nothing below it, now or after more writes. -/
theorem keepsBelow_end {base : UInt32} {libraries : List (String × List UInt8)} {m : Memory}
    (h : Fits base libraries) (hm : (imageOf base libraries).Written m) {ram : Region}
    (hbase : ram.base.toNat = endAddress base libraries.length) :
    ∃ m', m.add (.region ram) = .ok m' ∧
      KeepsBelow (endAddress base libraries.length) (.region ram) m m' := by
  obtain ⟨parts, rfl, hadd⟩ := add_after h hm hbase
  have hbelow {a : UInt32} (ha : a.toNat < endAddress base libraries.length) :
      a < (Memory.region ram).base := by
    rw [UInt32.lt_iff_toNat_lt, Memory.base, hbase]
    exact ha
  have hleaf {a : UInt32} (ha : a.toNat < endAddress base libraries.length) :
      (Memory.map (parts ++ [.region ram])).leaf? a = (Memory.map parts).leaf? a := by
    rw [Memory.leaf?, Memory.leaf?, Memory.leafAmong_append_last (hbelow ha)]
  have hcheck {a : UInt32} (ha : a.toNat < endAddress base libraries.length) (kind : AccessKind)
      (count : Nat) : (Memory.map (parts ++ [.region ram])).check kind a count =
        (Memory.map parts).check kind a count := by
    rw [Memory.check, Memory.check, hleaf ha]
  refine ⟨_, hadd, fun a ha => hcheck ha, ?_, ?_, ?_⟩
  · intro a ha count
    rw [Memory.read, Memory.read, hleaf ha]
  · intro a ha data e he
    rw [Memory.write] at he ⊢
    rw [hcheck ha]
    cases hrefused : (Memory.map parts).check .write a data.length with
    | error e' =>
        rw [hrefused] at he
        exact he
    | ok _ =>
        rw [hrefused] at he
        cases he
  · intro a ha data m₁ hwrite
    have hm₁ : (imageOf base libraries).Written m₁ := hm.write hwrite
    obtain ⟨hok, rfl⟩ := Memory.write_eq_ok_iff.mp hwrite
    obtain ⟨parts₁, hparts₁, hadd₁⟩ := add_after h hm₁ hbase
    refine ⟨_, hadd₁, Memory.write_eq_ok_iff.mpr ⟨by rw [hcheck ha, hok], ?_⟩⟩
    rw [Memory.poke, Memory.updateLeaf, Memory.map.injEq] at hparts₁
    rw [Memory.poke, Memory.updateLeaf, Memory.updateAmong_append_last (hbelow ha), hparts₁]

/-! ### Building -/

/-- Why a window is not built. That windows overlap is none of the reasons. Each reason comes with
the error that is returned for it. -/
inductive Refusal (base : UInt32) (source : Source) : LibraryError → Prop
  | listing {e : LibraryError} : source.names = .error e →
      Refusal base source (e.within "failed to list libraries")
  | space {names : List String} : source.names = .ok names →
      addressSpace < endAddress base names.length →
      Refusal base source ⟨[Text.nat names.length ++ " libraries at " ++ Text.address base ++
        " exceed the address space"], .outOfSpace⟩
  | loading {names : List String} {name : String} {e : LibraryError} : source.names = .ok names →
      name ∈ names → source.load name = .error e →
      Refusal base source (e.within ("failed to load " ++ name))
  | size {names : List String} {name : String} {bytes : List UInt8} : source.names = .ok names →
      name ∈ names → source.load name = .ok bytes → slotSize < bytes.length →
      Refusal base source ⟨[name ++ " is " ++ Text.nat bytes.length ++ " bytes"], .chunkTooLarge⟩

/-- The window at `base` with the given libraries. It keeps the regions latest first, as a window
does that was built. -/
def ofLibraries (base : UInt32) (libraries : List (String × List UInt8)) : Window where
  base := base
  memory := imageOf base libraries
  names := libraries.map Prod.fst
  chunks := (chunksFrom (base.toNat + tableSize) libraries).reverse

theorem refusal_of_loadChunk {base : UInt32} {source : Source} {names : List String} {name : String}
    {e : LibraryError} (hnames : source.names = .ok names) (hname : name ∈ names)
    (h : loadChunk source name = .error e) : Refusal base source e := by
  unfold loadChunk withinContext at h
  cases hload : source.load name with
  | error cause =>
      rw [hload] at h
      obtain rfl := Except.error.inj h
      exact .loading hnames hname hload
  | ok bytes =>
      rw [hload] at h
      by_cases hsize : slotSize < bytes.length
      · simp only [Except.mapError, bind, Except.bind, hsize, if_true, throw, throwThe,
          MonadExceptOf.throw, Except.error.injEq] at h
        exact h ▸ .size hnames hname hload hsize
      · simp only [Except.mapError, bind, Except.bind, hsize, if_false, pure, Except.pure,
          reduceCtorEq] at h

/-- Once the libraries are listed, the room is checked and they are mapped. Nothing is loaded if
there is not room for all. -/
theorem build_of_names {base : UInt32} {source : Source} {names : List String}
    (h : source.names = .ok names) : build base source =
      if addressSpace < endAddress base names.length then
        .error ⟨[Text.nat names.length ++ " libraries at " ++ Text.address base ++
          " exceed the address space"], .outOfSpace⟩
      else addChunks source (base.toNat + tableSize) names
        ⟨base, .map [.region (table base)], names, []⟩ := by
  have hlisted : withinContext "failed to list libraries" source.names = .ok names := by
    rw [h]
    rfl
  have hbind (f : List String → Except LibraryError Window) : (Except.ok names >>= f) = f names :=
    rfl
  rw [build, hlisted, hbind]
  by_cases hspace : addressSpace < endAddress base names.length
  · rw [if_pos hspace, if_pos hspace]
    rfl
  · rw [if_neg hspace, if_neg hspace]

theorem table_below (base : UInt32) : ∀ p ∈ [Memory.region (table base)],
    p.base.toNat < base.toNat + tableSize ∧ p.base.toNat + p.span ≤ base.toNat + tableSize := by
  have hpos : 0 < tableSize := by decide
  have hsize : (table base).size = tableSize := Region.size_zeros ..
  have hbase : (Memory.region (table base)).base = base := by
    rw [Memory.base]
    rfl
  intro p hp
  rw [List.mem_singleton.mp hp, span_region, hsize, hbase]
  omega

/-- All that building a window can come to. -/
theorem build_cases (base : UInt32) (source : Source) :
    (∃ libraries, source.names = .ok (libraries.map Prod.fst) ∧
      (∀ library ∈ libraries, source.load library.1 = .ok library.2) ∧ Fits base libraries ∧
      build base source = .ok (ofLibraries base libraries)) ∨
    ∃ e, build base source = .error e ∧ Refusal base source e := by
  cases hnames : source.names with
  | error e =>
      refine .inr ⟨e.within "failed to list libraries", ?_, .listing hnames⟩
      rw [build, hnames]
      rfl
  | ok names =>
      rw [build_of_names hnames]
      by_cases hspace : addressSpace < endAddress base names.length
      · rw [if_pos hspace]
        exact .inr ⟨_, rfl, .space hnames hspace⟩
      · rw [if_neg hspace]
        have hroom : endAddress base names.length ≤ addressSpace := Nat.le_of_not_lt hspace
        have hslots : base.toNat + tableSize + names.length * slotSize ≤ 2 ^ 32 := hroom
        rcases addChunks_cases source (w := ⟨base, .map [.region (table base)], names, []⟩) rfl
          (table_below base) hslots with ⟨libraries, rfl, hloads, hadd⟩ | ⟨name, hname, e, he, hadd⟩
        · have hloaded (library) (hlibrary : library ∈ libraries) :=
            loadChunk_eq_ok.mp (hloads library hlibrary)
          rw [List.length_map] at hroom
          refine .inl ⟨libraries, rfl, fun library hlibrary => (hloaded library hlibrary).1,
            ⟨hroom, fun library hlibrary => (hloaded library hlibrary).2⟩, ?_⟩
          rw [hadd, extend, ofLibraries, imageOf, List.append_nil]
          rfl
        · exact .inr ⟨e, hadd, refusal_of_loadChunk hnames hname he⟩

/-! ### Look-up and size -/

/-- The arithmetic of addresses reaches every slot without wrapping around. -/
theorem toNat_slotOffset {base : UInt32} {i : Nat} (h : slotStart base i < 2 ^ 32) :
    (base + slotOffset i).toNat = slotStart base i := by
  have hoffset : (slotOffset i).toNat = tableSize + i * slotSize := by
    induction i with
    | zero => rfl
    | succ i ih =>
        have hslot : (UInt32.ofNat slotSize).toNat = slotSize := rfl
        rw [slotStart, Nat.succ_mul] at h
        rw [slotOffset, UInt32.toNat_add, ih (by rw [slotStart]; omega), hslot, Nat.succ_mul,
          Nat.mod_eq_of_lt (by omega), Nat.add_assoc]
  rw [slotStart] at h ⊢
  rw [UInt32.toNat_add, hoffset, Nat.mod_eq_of_lt (by omega), Nat.add_assoc]

theorem ofNat_slotStart {base : UInt32} {i : Nat} (h : slotStart base i < 2 ^ 32) :
    UInt32.ofNat (slotStart base i) = base + slotOffset i := by
  apply UInt32.toNat_inj.mp
  rw [toNat_slotOffset h, UInt32.toNat_ofNat', Nat.mod_eq_of_lt h]

theorem map_fst_chunksFrom (address : Nat) (libraries : List (String × List UInt8)) :
    (chunksFrom address libraries).map Prod.fst = libraries.map Prod.fst := by
  induction libraries generalizing address with
  | nil => rfl
  | cons first rest ih => rw [chunksFrom, List.map_cons, List.map_cons, ih]

/-- A library is found by its name, if no other has the name. -/
theorem lookup_ofLibraries {base : UInt32} {libraries : List (String × List UInt8)}
    (h : (libraries.map Prod.fst).Nodup) {i : Nat} {library : String × List UInt8}
    (hi : libraries[i]? = some library) :
    (ofLibraries base libraries).lookup? library.1 = some (chunk (slotStart base i) library) := by
  have hnames : ((chunksFrom (base.toNat + tableSize) libraries).reverse.map Prod.fst).Nodup := by
    rwa [List.map_reverse, List.nodup_reverse, map_fst_chunksFrom]
  rw [lookup?, ofLibraries, lookup_eq_some_iff_mem hnames, List.mem_reverse]
  exact mem_chunksFrom.mpr ⟨i, library, hi, rfl⟩

theorem dropRepeats_of_nodup {names : List String} (h : names.Nodup) :
    dropRepeats names = names := by
  induction names with
  | nil => rfl
  | cons name rest ih =>
      obtain ⟨hnew, hrest⟩ := List.nodup_cons.mp h
      rw [dropRepeats, ih hrest, List.filter_eq_self.mpr]
      intro other hother
      rw [bne_iff_ne]
      rintro rfl
      exact hnew hother

/-- What is mapped is the table and the bytes of the libraries, again if no name comes twice. -/
theorem mappedBytes_ofLibraries {base : UInt32} {libraries : List (String × List UInt8)}
    (h : (libraries.map Prod.fst).Nodup) : (ofLibraries base libraries).mappedBytes =
      tableSize + (libraries.map fun library => library.2.length).sum := by
  have hsizes : (libraries.map Prod.fst).map (fun name =>
      (((ofLibraries base libraries).lookup? name).map Region.size).getD 0) =
      libraries.map fun library => library.2.length := by
    rw [List.map_map]
    apply List.map_congr_left
    intro library hlibrary
    obtain ⟨i, hi⟩ := List.mem_iff_getElem?.mp hlibrary
    show (((ofLibraries base libraries).lookup? library.1).map Region.size).getD 0 = _
    rw [lookup_ofLibraries h hi, Option.map_some, Option.getD_some, size_chunk]
  rw [mappedBytes, ← hsizes, List.sum_eq_foldl, List.foldl_map]
  show tableSize + (dropRepeats (libraries.map Prod.fst)).foldl _ 0 = _
  rw [dropRepeats_of_nodup h]

/-! ### The layout -/

/-- How libraries lie in memory in a window at `base`. What is said of memory holds for all that it
can become by writing. -/
structure LaidOut (base : UInt32) (libraries : List (String × List UInt8)) (w : Window) : Prop where
  stop : w.stop = base.toNat + 2 ^ 20 + libraries.length * 2 ^ 22
  /-- No address wraps around. -/
  addresses : ∀ i < libraries.length,
    (base + slotOffset i).toNat = base.toNat + 2 ^ 20 + i * 2 ^ 22
  zeros : ∀ a : UInt32, base.toNat ≤ a.toNat → a.toNat < base.toNat + tableSize →
    w.memory.readByte a = .ok 0
  serves : ∀ m, w.memory.Written m → Serves m base libraries
  ram : ∀ m, w.memory.Written m → ∀ ram : Region, ram.base = UInt32.ofNat w.stop → 0 < ram.size →
    w.stop + ram.size ≤ 2 ^ 32 →
      ∃ m', m.add (.region ram) = .ok m' ∧ KeepsBelow w.stop (.region ram) m m'
  lookup : (libraries.map Prod.fst).Nodup → ∀ i library, libraries[i]? = some library →
    w.lookup? library.1 = some (.ofBytes library.1 (base + slotOffset i) library.2 ⟨true, false⟩)
  mapped : (libraries.map Prod.fst).Nodup →
    w.mappedBytes = 2 ^ 20 + (libraries.map fun library => library.2.length).sum

/-- Libraries that fit are laid out so. Each part was shown above. -/
theorem laidOut_ofLibraries {base : UInt32} {libraries : List (String × List UInt8)}
    (h : Fits base libraries) : LaidOut base libraries (ofLibraries base libraries) := by
  have hstop : (ofLibraries base libraries).stop = endAddress base libraries.length := by
    rw [stop, ofLibraries, List.length_map]
  have hspace {i : Nat} (hi : i < libraries.length) : slotStart base i < 2 ^ 32 := by
    have hpos : 0 < slotSize := by decide
    have hle := slotStart_lt h hi
    omega
  refine ⟨hstop, fun i hi => toNat_slotOffset (hspace hi), ?_, ?_, ?_, ?_, mappedBytes_ofLibraries⟩
  · exact fun a hlow hhigh => readByte_table h hlow hhigh
  · exact fun m hm => serves_of_written h hm
  · intro m hm ram hbase hpos hfit
    rw [hstop] at hbase hfit ⊢
    apply keepsBelow_end h hm
    rw [hbase, UInt32.toNat_ofNat', Nat.mod_eq_of_lt (by omega)]
  · intro hnames i library hi
    rw [lookup_ofLibraries hnames hi, chunk,
      ofNat_slotStart (hspace (List.getElem?_eq_some_iff.mp hi).1)]

/-- A window is built exactly if its libraries are listed, the slots end within memory and every
library loads and fits into its slot; otherwise one of these is reported. A window that is built has
the table and the libraries at their places and nothing else, whatever is written later, and leaves
room for more memory at its end.

The proof writes the memory of a window down as a list (`imageOf`): since each library comes last
when it is mapped, that list is what the additions give, and all answers are read off it. -/
theorem build_lays_out (base : UInt32) (source : Source) :
    ((∃ w, build base source = .ok w) ↔ ∃ names, source.names = .ok names ∧
      base.toNat + 2 ^ 20 + names.length * 2 ^ 22 ≤ 2 ^ 32 ∧
      ∀ name ∈ names, ∃ bytes, source.load name = .ok bytes ∧ bytes.length ≤ 2 ^ 22) ∧
    (∀ e, build base source = .error e → Refusal base source e) ∧
    ∀ w, build base source = .ok w → ∃ libraries, source.names = .ok (libraries.map Prod.fst) ∧
      (∀ library ∈ libraries, source.load library.1 = .ok library.2) ∧
      LaidOut base libraries w := by
  obtain ⟨libraries, hnames, hloads, hfits, hbuild⟩ | ⟨e, hbuild, hrefusal⟩ :=
    build_cases base source
  · rw [hbuild]
    refine ⟨⟨fun _ => ⟨_, hnames, ?_, ?_⟩, fun _ => ⟨_, rfl⟩⟩, by simp, ?_⟩
    · rw [List.length_map]
      exact hfits.room_le
    · intro name hname
      obtain ⟨library, hlibrary, rfl⟩ := List.mem_map.mp hname
      exact ⟨_, hloads library hlibrary, hfits.sizes library hlibrary⟩
    · intro w hw
      obtain rfl := Except.ok.inj hw
      exact ⟨libraries, hnames, hloads, laidOut_ofLibraries hfits⟩
  · rw [hbuild]
    refine ⟨⟨by simp, ?_⟩, ?_, by simp⟩
    · rintro ⟨names, hnames, hroom, hloads⟩
      exfalso
      cases hrefusal with
      | listing hlisting => cases hnames.symm.trans hlisting
      | space hlisted hspace =>
          obtain rfl := Except.ok.inj (hnames.symm.trans hlisted)
          exact Nat.not_lt.mpr hroom hspace
      | loading hlisted hname hload =>
          obtain rfl := Except.ok.inj (hnames.symm.trans hlisted)
          obtain ⟨bytes, hbytes, -⟩ := hloads _ hname
          cases hload.symm.trans hbytes
      | size hlisted hname hload hsize =>
          obtain rfl := Except.ok.inj (hnames.symm.trans hlisted)
          obtain ⟨bytes, hbytes, hle⟩ := hloads _ hname
          obtain rfl := Except.ok.inj (hload.symm.trans hbytes)
          exact Nat.not_lt.mpr hle hsize
    · intro e' he'
      exact Except.error.inj he' ▸ hrefusal

/-- A library that is listed twice, with an empty one between. Each listing has a slot of its
own. -/
def twiceListed : Source :=
  .inMemory ["class", "empty", "class"] [("empty", []), ("class", [7, 8, 9])]

/-- Three slots that end at the last address. -/
theorem build_lays_out_twiceListed :
    ∃ w, build 0xFF300000 twiceListed = .ok w ∧ w.stop = 2 ^ 32 ∧
      w.memory.readByte 0xFFC00002 = .ok 9 ∧ w.memory.GoesNowhere 0xFFC00003 := by
  obtain ⟨hsucceeds, -, hlaid⟩ := build_lays_out 0xFF300000 twiceListed
  obtain ⟨w, hw⟩ : ∃ w, build 0xFF300000 twiceListed = .ok w := by
    refine hsucceeds.mpr ⟨["class", "empty", "class"], rfl, by decide, ?_⟩
    intro name hname
    simp only [List.mem_cons, List.not_mem_nil, or_false] at hname
    rcases hname with rfl | rfl | rfl
    · exact ⟨[7, 8, 9], rfl, by decide⟩
    · exact ⟨[], rfl, by decide⟩
    · exact ⟨[7, 8, 9], rfl, by decide⟩
  obtain ⟨libraries, hnames, hloads, hlayout⟩ := hlaid w hw
  obtain rfl : libraries = [("class", [7, 8, 9]), ("empty", []), ("class", [7, 8, 9])] := by
    have hlisted : ["class", "empty", "class"] = libraries.map Prod.fst := Except.ok.inj hnames
    match libraries, hlisted, hloads with
    | [(_, first), (_, second), (_, third)], hlisted, hloads =>
        obtain ⟨rfl, rfl, rfl⟩ := by simpa using hlisted
        have hfirst : Except.ok [7, 8, 9] = Except.ok first := hloads ("class", first) (by simp)
        have hsecond : Except.ok [] = Except.ok second := hloads ("empty", second) (by simp)
        have hthird : Except.ok [7, 8, 9] = Except.ok third := hloads ("class", third) (by simp)
        rw [← Except.ok.inj hfirst, ← Except.ok.inj hsecond, ← Except.ok.inj hthird]
  have hserves := hlayout.serves w.memory .refl
  refine ⟨w, hw, hlayout.stop, ?_, ?_⟩
  · exact (hserves.library 2 _ rfl 2 (by decide) 0xFFC00002 rfl).1
  · apply hserves.elsewhere
    · decide
    · rintro (_ | _ | _ | i) library hi
      · cases hi
        decide
      · cases hi
        decide
      · cases hi
        decide
      · cases hi

end Library.Window

end RegisterVM
