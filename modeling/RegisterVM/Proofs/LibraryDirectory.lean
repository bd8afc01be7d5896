import RegisterVM.Proofs.FilePaths
import RegisterVM.Proofs.ImportedLibraries

/-!
# Libraries of a directory

A directory lists the names of its files, less the extension of packed ones, and loads a library by
its name: the plain file of that name, or else the packed one. The two go together but for three
kinds of names. A packed file whose name without the extension is that of the directory itself or of
the one above is listed under a name that leads to a directory, and so is a packed file beside a
directory of its name without the extension. All other names that are listed can be loaded.
-/

namespace RegisterVM

namespace Files.Tree

/-- A tree as a file system has it: no place comes twice, every place below the root has a name that
a file may have and lies in a directory, and the working directory is there. It can be decided, so
that trees can be checked. -/
@[mk_iff]
structure Consistent (t : Tree) : Prop where
  distinct : (t.nodes.map Prod.fst).Nodup
  named : ∀ entry ∈ t.nodes, entry.1 ≠ [] ∧ ∀ name ∈ entry.1, IsName name
  above : ∀ entry ∈ t.nodes, t.node? entry.1.dropLast = some .directory
  here : t.here = [] ∨ (t.here, .directory) ∈ t.nodes

instance : DecidablePred Consistent := fun t => decidable_of_iff' _ (consistent_iff t)

variable {t : Tree}

/-- What stands at a place below the root is what the tree has there. -/
theorem Consistent.node?_eq_some_iff (ht : t.Consistent) {place : List String} (hplace : place ≠ [])
    {node : Node} : t.node? place = some node ↔ (place, node) ∈ t.nodes := by
  by_cases hhere : place = t.here
  · have hmem : (place, Node.directory) ∈ t.nodes := by
      rcases ht.here with hroot | hmem
      · exact absurd (hhere.trans hroot) hplace
      · rwa [hhere]
    have hnode : t.node? place = some .directory := by simp [node?, hhere]
    rw [hnode, ← lookup_eq_some_iff_mem ht.distinct, (lookup_eq_some_iff_mem ht.distinct).mpr hmem]
  · rw [← lookup_eq_some_iff_mem ht.distinct]
    simp [node?, hplace, hhere]

theorem Consistent.isName (ht : t.Consistent) {location : List String} {name : String} {node : Node}
    (h : t.node? (location ++ [name]) = some node) : IsName name := by
  have hmem := (ht.node?_eq_some_iff (by simp)).mp h
  exact (ht.named _ hmem).2 name (by simp)

/-- Above a directory is a directory; the root is above itself. -/
theorem Consistent.node?_dropLast (ht : t.Consistent) {location : List String} {node : Node}
    (h : t.node? location = some node) : t.node? location.dropLast = some .directory := by
  by_cases hroot : location = []
  · simp [hroot, node?]
  · exact ht.above _ ((ht.node?_eq_some_iff hroot).mp h)

/-- A directory lists what stands under its names, and nothing else. -/
theorem Consistent.list_eq (ht : t.Consistent) {path : String} {location : List String}
    (hlocate : t.locate path = .ok location) (hlocation : t.node? location = some .directory) :
    ∃ entries, t.list path = .ok entries ∧
      ∀ name node, (name, node) ∈ entries ↔ t.node? (location ++ [name]) = some node := by
  simp only [list, hlocate, hlocation]
  refine ⟨_, rfl, fun name node => ?_⟩
  rw [List.mem_mergeSort, List.mem_filterMap, ht.node?_eq_some_iff (by simp)]
  constructor
  · rintro ⟨⟨place, found⟩, hmem, hentry⟩
    cases hlast : place.getLast? with
    | none => simp [hlast] at hentry
    | some last =>
        obtain ⟨hinside, hname⟩ : place.dropLast = location ∧ (last, found) = (name, node) := by
          simpa [hlast] using hentry
        obtain ⟨front, rfl⟩ := List.getLast?_eq_some_iff.mp hlast
        rw [List.dropLast_concat] at hinside
        obtain ⟨rfl, rfl⟩ := Prod.mk.inj hname
        rwa [← hinside]
  · intro hmem
    exact ⟨_, hmem, by simp⟩

end Files.Tree

namespace Library

open Files hiding Tree

/-! ### Names of libraries -/

theorem endsWith_packedExtension {file : String} :
    file.endsWith packedExtension = true ↔ ∃ name, file = name ++ packedExtension := by
  have hsuffix : file.endsWith packedExtension = true ↔ packedExtension.toList <:+ file.toList := by
    show file.toSlice.endsWith packedExtension = true ↔ _
    rw [String.Slice.endsWith_string_iff, String.copy_toSlice]
  rw [hsuffix]
  constructor
  · rintro ⟨front, hfront⟩
    exact ⟨String.ofList front, String.toList_inj.mp (by simp [hfront])⟩
  · rintro ⟨name, rfl⟩
    rw [String.toList_append]
    exact List.suffix_append _ _

/-- A packed file is named for its library and the extension. -/
theorem libraryName_append (name : String) : libraryName (name ++ packedExtension) = name := by
  rw [libraryName, if_pos (endsWith_packedExtension.mpr ⟨name, rfl⟩)]
  apply String.toList_inj.mp
  have hlist :=
    @String.Slice.toList_copy_dropEnd (name ++ packedExtension).toSlice packedExtension.length
  rw [String.copy_toSlice, String.toList_append, List.length_append,
    String.length_toList (s := packedExtension), Nat.add_sub_cancel, List.take_left] at hlist
  exact hlist

/-- A file is named for its library, with the extension or without. -/
theorem eq_or_eq_append_of_libraryName (file : String) :
    file = libraryName file ∨ file = libraryName file ++ packedExtension := by
  by_cases hends : file.endsWith packedExtension = true
  · obtain ⟨name, rfl⟩ := endsWith_packedExtension.mp hends
    rw [libraryName_append]
    exact .inr rfl
  · rw [libraryName, if_neg hends]
    exact .inl rfl

/-- The name that a file gives its library is short and of one part, as the file's is. It need not
be a name that a file may have: it can be empty or stand for a directory. -/
theorem libraryName_within {file : String} (hfile : IsName file) :
    '/' ∉ (libraryName file).toList ∧ '\x00' ∉ (libraryName file).toList ∧
      (libraryName file).utf8ByteSize ≤ Files.Tree.maxName := by
  have hslash := hfile.slash
  have hnul := hfile.nul
  have hshort := hfile.short
  rcases eq_or_eq_append_of_libraryName file with hplain | hpacked
  · rw [← hplain]
    exact ⟨hslash, hnul, hshort⟩
  · rw [hpacked, String.toList_append, List.mem_append, not_or] at hslash hnul
    rw [hpacked, String.utf8ByteSize_append] at hshort
    exact ⟨hslash.1, hnul.1, by omega⟩

namespace Directory

variable {unpack : List UInt8 → Except LibraryError (List UInt8)} {t : Files.Tree} {path : String}
  {location : List String}

/-- A directory lists the libraries that its files are named for, whichever form they are in. -/
theorem names_eq (ht : t.Consistent) (hlocate : t.locate path = .ok location)
    (hlocation : t.node? location = some .directory) :
    ∃ names, Directory.names t path = .ok names ∧
      ∀ name, name ∈ names ↔ name ≠ "" ∧
        ∃ file bytes, t.node? (location ++ [file]) = some (.file bytes) ∧
        libraryName file = name := by
  obtain ⟨entries, hlist, hentries⟩ := ht.list_eq hlocate hlocation
  rw [Directory.names, hlist]
  refine ⟨_, rfl, fun name => ?_⟩
  rw [List.mem_mergeSort, mem_dropRepeats, List.mem_filter, bne_iff_ne, and_comm]
  refine and_congr_right fun _ => ?_
  rw [List.mem_filterMap]
  constructor
  · rintro ⟨⟨file, node⟩, hmem, hname⟩
    cases node with
    | directory => cases hname
    | file bytes => exact ⟨file, bytes, (hentries file _).mp hmem, Option.some.inj hname⟩
  · rintro ⟨file, bytes, hnode, rfl⟩
    exact ⟨(file, .file bytes), (hentries file _).mpr hnode, rfl⟩

/-! ### Loading -/

/-- A name that leads from a location to a directory: the location itself, what is above it, or a
directory of that name. -/
def LeadsToDirectory (t : Files.Tree) (location : List String) (name : String) : Prop :=
  name = "." ∨ name = ".." ∨ t.node? (location ++ [name]) = some .directory

instance (t : Files.Tree) (location : List String) : DecidablePred (LeadsToDirectory t location) :=
  fun _ => inferInstanceAs (Decidable (_ ∨ _ ∨ _))

/-- What a location holds of a library: the plain file of its name or, where nothing has that name,
what `unpack` finds in the file with the extension. A directory of that name counts as something. -/
inductive Held (unpack : List UInt8 → Except LibraryError (List UInt8)) (t : Files.Tree)
    (location : List String) (name : String) : List UInt8 → Prop where
  | plain {bytes : List UInt8} (hplain : t.node? (location ++ [name]) = some (.file bytes)) :
      Held unpack t location name bytes
  | packed {bytes data : List UInt8} (hplain : t.node? (location ++ [name]) = none)
      (hpacked : t.node? (location ++ [name ++ packedExtension]) = some (.file bytes))
      (hdata : unpack bytes = .ok data) : Held unpack t location name data

/-- A location holds one thing of a library. -/
theorem Held.unique {name : String} {data data' : List UInt8} (h : Held unpack t location name data)
    (h' : Held unpack t location name data') : data = data' := by
  cases h with
  | plain hplain => cases h' <;> simp_all
  | packed hplain hpacked hdata => cases h' <;> simp_all

/-- Reading such a name fails on the directory. -/
theorem read_join_of_leadsToDirectory (ht : t.Consistent) (hlocate : t.locate path = .ok location)
    (hlocation : t.node? location = some .directory) {name : String}
    (hname : LeadsToDirectory t location name) :
    t.read (Path.join path name) = .error ⟨"read", Path.join path name, .isDirectory⟩ := by
  have hfind : t.find (Path.join path name) = .ok .directory := by
    rcases hname with rfl | rfl | hnode
    · have hstep : t.follow location ["."] = .ok location := by
        rw [Files.Tree.follow_skipped hlocation (.inr rfl)]
        rfl
      have hjoin := Files.Tree.locate_join_of_step hlocate (by decide) (by decide) (by decide) hstep
      exact Files.Tree.find_of_locate hjoin hlocation
    · have hjoin := Files.Tree.locate_join_of_step hlocate (by decide) (by decide) (by decide)
        (Files.Tree.follow_up hlocation)
      exact Files.Tree.find_of_locate hjoin (ht.node?_dropLast hlocation)
    · rw [Files.Tree.find_join hlocate hlocation (ht.isName hnode), hnode]
      rfl
  rw [Files.Tree.read, hfind]

theorem base_of_slash_not_mem {name : String} (hempty : name ≠ "") (hslash : '/' ∉ name.toList) :
    Path.base name = name := by
  simp [Path.base, Path.parts_of_slash_not_mem hslash, hempty]

/-- A name that leads to a directory cannot be loaded, whatever is packed under it. The packed file
is tried only if there is nothing of the plain name. -/
theorem load_of_leadsToDirectory (ht : t.Consistent) (hlocate : t.locate path = .ok location)
    (hlocation : t.node? location = some .directory) {name : String} (hempty : name ≠ "")
    (hslash : '/' ∉ name.toList) (hname : LeadsToDirectory t location name) :
    load unpack t path name = .error (fileError ["failed to read " ++ Path.join path name]
      ⟨"read", Path.join path name, .isDirectory⟩) := by
  simp [load, base_of_slash_not_mem hempty hslash, hempty,
    read_join_of_leadsToDirectory ht hlocate hlocation hname]

/-- A plain file is loaded as it is, beside a packed one or not. -/
theorem load_of_plain (hlocate : t.locate path = .ok location)
    (hlocation : t.node? location = some .directory) {name : String} (hname : IsName name)
    {bytes : List UInt8}
    (hnode : t.node? (location ++ [name]) = some (.file bytes)) :
    load unpack t path name = .ok bytes := by
  have hread : t.read (Path.join path name) = .ok bytes := by
    simp [Files.Tree.read, Files.Tree.find_join hlocate hlocation hname, hnode]
  simp [load, base_of_slash_not_mem hname.nonempty hname.slash, hname.nonempty, hread]

/-- Where nothing has the name of a library, its packed file is loaded. -/
theorem load_of_packed (ht : t.Consistent) (hlocate : t.locate path = .ok location)
    (hlocation : t.node? location = some .directory) {name : String} (hname : IsName name)
    {bytes : List UInt8} (hplain : t.node? (location ++ [name]) = none)
    (hpacked : t.node? (location ++ [name ++ packedExtension]) = some (.file bytes)) :
    load unpack t path name = unpack bytes := by
  obtain ⟨hempty, hfree, -⟩ := Files.Tree.locate_inv hlocate
  have hfile := ht.isName hpacked
  have hreadPlain : t.read (Path.join path name) =
      .error ⟨"open", Path.join path name, .notFound⟩ := by
    simp [Files.Tree.read, Files.Tree.find_join hlocate hlocation hname, hplain]
  have hreadPacked : t.read (Path.join path name ++ packedExtension) = .ok bytes := by
    rw [Path.join_append_ending hempty hfree hname.toProper hname.notUp hfile.toProper hfile.notUp]
    simp [Files.Tree.read, Files.Tree.find_join hlocate hlocation hfile, hpacked]
  simp [load, base_of_slash_not_mem hname.nonempty hname.slash, hname.nonempty,
    hreadPlain, hreadPacked]

/-! ### Listed libraries -/

/-- The names that a directory lists are in order. Every one that does not lead to a directory can
be loaded, and gives what is held of that library; the others fail on the directory.

The proof goes by what stands under the name itself: a file, nothing, or a directory. Only in the
second case does it matter that packed files can be unpacked. -/
theorem listed_loads_unless_directory (ht : t.Consistent) (hlocate : t.locate path = .ok location)
    (hlocation : t.node? location = some .directory)
    (hpacked : ∀ file bytes, t.node? (location ++ [file]) = some (.file bytes) →
      file.endsWith packedExtension = true → ∃ data, unpack bytes = .ok data) :
    ∃ names, Directory.names t path = .ok names ∧
      (names.map Text.Utf8.bytes).Pairwise (· < ·) ∧ "" ∉ names ∧
      (∀ name, name ∈ names ↔ name ≠ "" ∧
        ∃ file bytes, t.node? (location ++ [file]) = some (.file bytes) ∧ libraryName file = name) ∧
      ∀ name ∈ names,
        (LeadsToDirectory t location name →
          load unpack t path name = .error (fileError ["failed to read " ++ Path.join path name]
            ⟨"read", Path.join path name, .isDirectory⟩)) ∧
        (¬LeadsToDirectory t location name →
          ∃ data, load unpack t path name = .ok data ∧ Held unpack t location name data) := by
  obtain ⟨names, hnames, hmem⟩ := names_eq ht hlocate hlocation
  obtain ⟨hsorted, hnonempty⟩ := Source.sorted_ofDirectory unpack t path
  refine ⟨names, hnames, hsorted names hnames, hnonempty names hnames, hmem, ?_⟩
  intro name hlisted
  obtain ⟨hempty, file, bytes, hfile, rfl⟩ := (hmem name).mp hlisted
  obtain ⟨hslash, hnul, hshort⟩ := libraryName_within (ht.isName hfile)
  refine ⟨load_of_leadsToDirectory ht hlocate hlocation hempty hslash, fun hleads => ?_⟩
  obtain ⟨hhere, hup, hdirectory⟩ :
      libraryName file ≠ "." ∧ libraryName file ≠ ".." ∧
        t.node? (location ++ [libraryName file]) ≠ some .directory := by
    simpa [LeadsToDirectory] using hleads
  have hname : IsName (libraryName file) := ⟨⟨hempty, hhere, hslash, hnul⟩, hup, hshort⟩
  -- a plain file comes first, also where the name was listed for the packed one
  cases hnode : t.node? (location ++ [libraryName file]) with
  | some node =>
      cases node with
      | directory => exact absurd hnode hdirectory
      | file plain => exact ⟨plain, load_of_plain hlocate hlocation hname hnode, .plain hnode⟩
  | none =>
      have hended : file = libraryName file ++ packedExtension := by
        refine (eq_or_eq_append_of_libraryName file).resolve_left fun hplain => ?_
        rw [← hplain, hfile] at hnode
        cases hnode
      obtain ⟨data, hdata⟩ := hpacked file bytes hfile (endsWith_packedExtension.mpr ⟨_, hended⟩)
      rw [hended] at hfile
      exact ⟨data, (load_of_packed ht hlocate hlocation hname hnode hfile).trans hdata,
        .packed hnode hfile hdata⟩

/-- Two bytes, packed. -/
def packedPair : List UInt8 :=
  Compression.Zstandard.frameMark ++ [0x20, 0x02, 0x11, 0x00, 0x00, 0x68, 0x69]

/-- A directory with libraries in either form, two of them packed where their names lead to a
directory. -/
def shelf : Files.Tree where
  nodes := [(["shelf"], .directory), (["shelf", "base"], .directory),
    (["shelf", "base.zst"], .file packedPair), (["shelf", "..zst"], .file packedPair),
    (["shelf", "core.zst"], .file packedPair), (["shelf", "math"], .file [1, 2, 3]),
    (["shelf", "math.zst"], .file packedPair)]

theorem consistent_shelf : shelf.Consistent := by decide

theorem locate_shelf : shelf.locate "/shelf" = .ok ["shelf"] := by cbv

theorem unpack_packedPair : Library.unpack packedPair = .ok [0x68, 0x69] := by decide +kernel

theorem unpack_shelf (file : String) (bytes : List UInt8)
    (hfile : shelf.node? (["shelf"] ++ [file]) = some (.file bytes))
    (hended : file.endsWith packedExtension = true) : ∃ data, Library.unpack bytes = .ok data := by
  have hmem := (consistent_shelf.node?_eq_some_iff (by simp)).mp hfile
  have hshelf : ∀ entry ∈ shelf.nodes, entry.2 = .directory ∨ entry.2 = .file packedPair ∨
      entry.1 = ["shelf", "math"] := by decide
  rcases hshelf _ hmem with h | h | h
  · cases h
  · cases h
    exact ⟨_, unpack_packedPair⟩
  · obtain rfl : file = "math" := by simpa using h
    exact absurd hended (by decide +kernel)

theorem mem_names_shelf {names : List String}
    (hmem : ∀ name, name ∈ names ↔ name ≠ "" ∧
      ∃ file bytes, shelf.node? (["shelf"] ++ [file]) = some (.file bytes) ∧
        libraryName file = name) :
    "base" ∈ names ∧ "." ∈ names ∧ "core" ∈ names ∧ "math" ∈ names :=
  ⟨(hmem _).mpr ⟨by decide, "base.zst", packedPair, by decide, libraryName_append "base"⟩,
    (hmem _).mpr ⟨by decide, "..zst", packedPair, by decide, libraryName_append "."⟩,
    (hmem _).mpr ⟨by decide, "core.zst", packedPair, by decide, libraryName_append "core"⟩,
    (hmem _).mpr ⟨by decide, "math.zst", packedPair, by decide, libraryName_append "math"⟩⟩

theorem listed_loads_unless_directory_shelf :
    shelf.Consistent ∧ shelf.locate "/shelf" = .ok ["shelf"] ∧
      shelf.node? ["shelf"] = some .directory ∧
      (∀ file bytes, shelf.node? (["shelf"] ++ [file]) = some (.file bytes) →
        file.endsWith packedExtension = true → ∃ data, Library.unpack bytes = .ok data) ∧
      ∃ names, Directory.names shelf "/shelf" = .ok names ∧
        ("core" ∈ names ∧ load Library.unpack shelf "/shelf" "core" = .ok [0x68, 0x69]) ∧
        ("math" ∈ names ∧ load Library.unpack shelf "/shelf" "math" = .ok [1, 2, 3]) := by
  refine ⟨consistent_shelf, locate_shelf, by decide, unpack_shelf, ?_⟩
  obtain ⟨names, hnames, -, -, hmem, hload⟩ :=
    listed_loads_unless_directory consistent_shelf locate_shelf (by decide) unpack_shelf
  obtain ⟨-, -, hcore, hmath⟩ := mem_names_shelf hmem
  obtain ⟨core, hloadCore, hheldCore⟩ := (hload "core" hcore).2 (by decide)
  obtain ⟨math, hloadMath, hheldMath⟩ := (hload "math" hmath).2 (by decide)
  rw [hheldCore.unique (.packed (by decide) (by decide) unpack_packedPair)] at hloadCore
  have hplain : shelf.node? (["shelf"] ++ ["math"]) = some (.file [1, 2, 3]) := by decide
  rw [hheldMath.unique (.plain hplain)] at hloadMath
  exact ⟨names, hnames, ⟨hcore, hloadCore⟩, hmath, hloadMath⟩

/-- A directory may list names that it cannot load, though all that it packs can be unpacked. -/
theorem shelf_lists_unloadable :
    shelf.Consistent ∧
      (∀ file bytes, shelf.node? (["shelf"] ++ [file]) = some (.file bytes) →
        file.endsWith packedExtension = true → ∃ data, Library.unpack bytes = .ok data) ∧
      ∃ names, Directory.names shelf "/shelf" = .ok names ∧
        ("base" ∈ names ∧ ∀ data, load Library.unpack shelf "/shelf" "base" ≠ .ok data) ∧
        ("." ∈ names ∧ ∀ data, load Library.unpack shelf "/shelf" "." ≠ .ok data) := by
  refine ⟨consistent_shelf, unpack_shelf, ?_⟩
  obtain ⟨names, hnames, hmem⟩ := names_eq consistent_shelf locate_shelf (by decide)
  obtain ⟨hbase, hhere, -⟩ := mem_names_shelf hmem
  have hfails (name : String) (hempty : name ≠ "") (hslash : '/' ∉ name.toList)
      (hleads : LeadsToDirectory shelf ["shelf"] name) (data : List UInt8) :
      load Library.unpack shelf "/shelf" name ≠ .ok data := by
    rw [load_of_leadsToDirectory consistent_shelf locate_shelf (by decide) hempty hslash hleads]
    exact nofun
  exact ⟨names, hnames, ⟨hbase, hfails "base" (by decide) (by decide) (by decide)⟩,
    hhere, hfails "." (by decide) (by decide) (by decide)⟩

end Directory

end Library

end RegisterVM
