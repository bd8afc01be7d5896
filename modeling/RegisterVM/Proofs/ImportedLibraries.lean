import RegisterVM.Proofs.LibraryStore
import RegisterVM.Proofs.LibraryWindow

/-!
# Importing libraries

A window depends on the order in which a source lists its libraries: it gives every library its
slot. A store lists its libraries in the order of their keys, whatever the order in which they came.
An import therefore keeps the window only because the source lists its libraries in the order of
their bytes already: two lists in strict order that hold the same names are one list
(`eq_of_bytes_ordered`), so slot by slot the store has what the source has.

A directory sorts names as text. That this is the order of their bytes is a property of the encoding
of characters (`bytes_lt`): a greater character has greater bytes, and none starts with those of
another.
-/

namespace RegisterVM

namespace Text.Utf8

/-! ### The order of text and the order of its bytes -/

/-- The bytes of a text are those of its characters, one after the other. -/
theorem bytes_eq_flatMap (text : String) :
    bytes text = text.toList.flatMap String.utf8EncodeChar := by
  have h : text.toList.utf8Encode.data.toList = bytes text := by
    rw [String.utf8Encode_toList]
    rfl
  rw [← h, List.utf8Encode, List.toList_data_toByteArray]

theorem ofNat_cons_lt {m n : Nat} {x y : List UInt8} (hm : m < 256) (hn : n < 256) :
    UInt8.ofNat m :: x < UInt8.ofNat n :: y ↔ m < n ∨ m = n ∧ x < y := by
  rw [List.cons_lt_cons_iff, UInt8.lt_iff_toNat_lt, ← UInt8.toNat_inj, UInt8.toNat_ofNat_of_lt' hm,
    UInt8.toNat_ofNat_of_lt' hn]

/-- A greater character has greater bytes, whatever follows. Characters of different lengths are
told apart by their first bytes. -/
theorem encodeChar_append_lt {c d : Char} (h : c < d) (x y : List UInt8) :
    String.utf8EncodeChar c ++ x < String.utf8EncodeChar d ++ y := by
  have hvalid : d.val.toNat < 55296 ∨ 57343 < d.val.toNat ∧ d.val.toNat < 1114112 := d.valid
  have hlt : c.val.toNat < d.val.toNat := h
  simp only [String.utf8EncodeChar]
  generalize c.val.toNat = v at *
  generalize d.val.toNat = w at *
  -- in base 64 the first digit in which the two differ decides
  have hdigits : v / 262144 % 8 < w / 262144 % 8 ∨ v / 262144 % 8 = w / 262144 % 8 ∧
      (v / 4096 % 64 < w / 4096 % 64 ∨ v / 4096 % 64 = w / 4096 % 64 ∧
        (v / 64 % 64 < w / 64 % 64 ∨ v / 64 % 64 = w / 64 % 64 ∧ v % 64 < w % 64)) := by
    have hv : v / 262144 % 8 = v / 262144 := by omega
    have hw : w / 262144 % 8 = w / 262144 := by omega
    omega
  split_ifs <;> simp (disch := omega) only [List.cons_append, List.nil_append, ofNat_cons_lt] <;>
    omega

/-- Text in order has bytes in order. -/
theorem bytes_lt {a b : String} (h : a < b) : bytes a < bytes b := by
  rw [String.lt_iff_toList_lt] at h
  rw [bytes_eq_flatMap, bytes_eq_flatMap]
  generalize a.toList = cs at h
  generalize b.toList = ds at h
  induction h with
  | @nil d ds =>
      rw [List.flatMap_nil, List.flatMap_cons]
      cases hd : String.utf8EncodeChar d with
      | nil => exact absurd hd String.utf8EncodeChar_ne_nil
      | cons b rest => exact List.nil_lt_cons _ _
  | rel hlt => exact encodeChar_append_lt hlt _ _
  | cons _ ih => exact List.append_left_lt ih

/-- Names in strict order of their bytes are known from which names there are. -/
theorem eq_of_bytes_ordered {a b : List String} (ha : (a.map bytes).Pairwise (· < ·))
    (hb : (b.map bytes).Pairwise (· < ·)) (h : ∀ name, name ∈ a ↔ name ∈ b) : a = b := by
  rw [List.pairwise_map] at ha hb
  have hne {x y : String} (hlt : bytes x < bytes y) : x ≠ y := by
    rintro rfl
    exact List.lt_irrefl _ hlt
  have hperm : a.Perm b := (List.perm_ext_iff_of_nodup (ha.imp hne) (hb.imp hne)).mpr h
  refine hperm.eq_of_pairwise ?_ ha hb
  intro x y _ _ hxy hyx
  exact absurd hyx (List.lt_asymm hxy)

end Text.Utf8

namespace Library

/-! ### Sources in order -/

/-- A source that lists its libraries in strict order of the bytes of their names. In particular it
lists none twice. -/
def Source.Sorted (source : Source) : Prop :=
  ∀ names, source.names = .ok names → (names.map Text.Utf8.bytes).Pairwise (· < ·)

theorem mem_dropRepeats {names : List String} {name : String} :
    name ∈ dropRepeats names ↔ name ∈ names := by
  induction names with
  | nil => simp [dropRepeats]
  | cons first rest ih =>
      by_cases hfirst : name = first
      · simp [dropRepeats, hfirst]
      · simp [dropRepeats, hfirst, ih]

theorem nodup_dropRepeats (names : List String) : (dropRepeats names).Nodup := by
  induction names with
  | nil => exact .nil
  | cons first rest ih =>
      rw [dropRepeats, List.nodup_cons]
      exact ⟨by simp, ih.filter _⟩

/-- A directory lists its libraries in order, and none without a name, whatever its packed files
hold. A plain and a packed file of one library are listed once. -/
theorem Source.sorted_ofDirectory (unpack : List UInt8 → Except LibraryError (List UInt8))
    (t : Files.Tree) (path : String) :
    (Source.ofDirectory unpack t path).Sorted ∧
      ∀ names, (Source.ofDirectory unpack t path).names = .ok names → "" ∉ names := by
  suffices h : ∀ names, Directory.names t path = .ok names →
      (names.map Text.Utf8.bytes).Pairwise (· < ·) ∧ "" ∉ names from
    ⟨fun names hnames => (h names hnames).1, fun names hnames => (h names hnames).2⟩
  intro names hnames
  rw [Directory.names] at hnames
  cases hlist : t.list path with
  | error cause =>
      rw [hlist] at hnames
      cases hnames
  | ok entries =>
      rw [hlist] at hnames
      dsimp only at hnames
      generalize entries.filterMap _ = found at hnames
      obtain rfl := Except.ok.inj hnames
      constructor
      · rw [List.pairwise_map]
        have hsorted := @List.pairwise_mergeSort String (fun a b => decide (a ≤ b))
          (by simpa using fun a b c => String.le_trans) (by simpa using String.le_total)
          (dropRepeats (found.filter (· != "")))
        have hnodup := (List.mergeSort_perm (dropRepeats (found.filter (· != "")))
          fun a b => decide (a ≤ b)).nodup_iff.mpr (nodup_dropRepeats _)
        refine (hsorted.and hnodup).imp ?_
        rintro a b ⟨hle, hne⟩
        exact Text.Utf8.bytes_lt (lt_of_le_of_ne (of_decide_eq_true hle) hne)
      · rw [List.mem_mergeSort, mem_dropRepeats]
        simp

/-! ### Sources that agree -/

namespace Window

theorem addChunks_congr {source source' : Source} {names : List String}
    (h : ∀ name ∈ names, source.load name = source'.load name) (address : Nat) (w : Window) :
    addChunks source address names w = addChunks source' address names w := by
  induction names generalizing address w with
  | nil => rfl
  | cons name rest ih =>
      have hfirst : loadChunk source name = loadChunk source' name := by
        rw [loadChunk, loadChunk, h name List.mem_cons_self]
      have hrest (other : Window) := ih (fun name hname => h name (List.mem_cons_of_mem _ hname))
        (address + slotSize) other
      simp only [addChunks, hfirst, hrest]

/-- Sources that list the same names and load the same libraries under them have the same window. A
window asks nothing else of its source. -/
theorem build_congr {source source' : Source} {names : List String}
    (hnames : source.names = .ok names) (hnames' : source'.names = .ok names)
    (h : ∀ name ∈ names, source.load name = source'.load name) (base : UInt32) :
    build base source = build base source' := by
  rw [build_of_names hnames, build_of_names hnames', addChunks_congr h]

end Window

/-! ### Copying -/

namespace Store

variable {σ τ : Type} {e : Engine σ τ} {contents : σ → Contents} {progress : τ → Progress}
  {s s' : Store σ} {log : List Event} {libraries : List (String × List UInt8)}

/-- What is there after libraries of different names were stored one by one: theirs, and otherwise
what was there before. -/
theorem lastStored_append_stored (hnodup : (libraries.map Prod.fst).Nodup) (log : List Event)
    (name : String) :
    lastStored (log ++ storedEvents libraries) name =
      (libraries.lookup name).or (lastStored log name) := by
  induction libraries generalizing log with
  | nil => simp [storedEvents]
  | cons library rest ih =>
      rw [List.map_cons, List.nodup_cons] at hnodup
      have hsplit : log ++ storedEvents (library :: rest) =
          (log ++ [.stored library.1 library.2]) ++ storedEvents rest := by
        rw [List.append_assoc]
        rfl
      rw [hsplit, ih hnodup.2, lastStored_concat, lookup_cons_eq]
      by_cases hname : name = library.1
      · have habsent : rest.lookup library.1 = none := by
          rw [← Option.not_isSome_iff_eq_none, isSome_lookup]
          exact hnodup.1
        simp [hname, habsent, Event.name, Event.library?]
      · simp [hname, Event.name]

/-- A store that holds libraries and no others, lists them as given and has counted them. What it
holds is said of its records, what it lists and loads only where these can be read. -/
structure Keeps (e : Engine σ τ) (contents : σ → Contents) (s : Store σ)
    (libraries : List (String × List UInt8)) : Prop where
  record_eq : ∀ part name, contents s.database (part.key name) =
    (libraries.lookup name).map fun library => Part.content e name library part
  count_eq : s.count = libraries.length
  names_eq : e.Readable s.database → s.names e = .ok (libraries.map Prod.fst)
  load_eq : e.Readable s.database → ∀ name, s.load e name = answer name (libraries.lookup name)

/-- A store that was empty keeps just the libraries that were stored, in order: the store's listing
and the libraries are two lists in strict order that hold the same names. -/
theorem Holds.keeps (hlaw : e.Lawful contents progress) (hempty : present log = ∅)
    (h : Holds e contents s (log ++ storedEvents libraries))
    (hsorted : ((libraries.map Prod.fst).map Text.Utf8.bytes).Pairwise (· < ·)) :
    s.Keeps e contents libraries := by
  have hnodup : (libraries.map Prod.fst).Nodup := by
    refine List.Nodup.of_map Text.Utf8.bytes (hsorted.imp ?_)
    rintro a b hlt rfl
    exact List.lt_irrefl a hlt
  have hlast (name : String) :
      lastStored (log ++ storedEvents libraries) name = libraries.lookup name := by
    have hnothing : lastStored log name = none := by
      rw [← Option.not_isSome_iff_eq_none, ← mem_present, hempty]
      exact Finset.notMem_empty name
    rw [lastStored_append_stored hnodup, hnothing, Option.or_none]
  have hmem (name : String) : name ∈ libraries.map Prod.fst ↔
      (lastStored (log ++ storedEvents libraries) name).isSome = true := by
    rw [hlast, isSome_lookup]
  refine ⟨?_, ?_, ?_, ?_⟩
  · intro part name
    rw [h.record_eq, hlast]
  · rw [h.count_eq, ← length_eq_card hsorted hmem, List.length_map]
  · intro hreadable
    obtain ⟨keys, hkeys⟩ := hreadable.keys Part.entry.mark
    have hnames : s.names e = .ok (keys.filterMap Part.entry.name?) := by rw [names, hkeys]
    obtain ⟨hordered, hlisted⟩ := names_ok hlaw hnames
    rw [hnames]
    refine congrArg Except.ok (Text.Utf8.eq_of_bytes_ordered hordered hsorted fun name => ?_)
    rw [hlisted, hmem, h.isSome_record]
  · intro hreadable name
    rw [h.load_eq hlaw fun part => hreadable.get _, hlast]

/-- **An import keeps the window.** Over any lawful engine, into a store that is empty, whatever
happened to it before, a source in order is copied from the front. If all is copied, the store has
the same window as the source: the same names, the same slots and the same memory, or the same
refusal. If not, for whatever reason, the libraries before the one that stopped it are there and no
others, and theirs are the entries returned. Directories are such sources.

What is copied is a front part of a listing in strict order, so it is in that order itself, and the
store lists it so (`Holds.keeps`); windows of sources that list and load the same are the same
(`Window.build_congr`). -/
theorem import_keeps_window (hlaw : e.Lawful contents progress) {d : σ}
    (hempty : ∀ key, contents d key = none) (hopened : Store.opened e d = .ok s)
    (history : List Action) (hcount : (s.run e history).1.count = 0) :
    (∀ unpack (t : Files.Tree) path, (Source.ofDirectory unpack t path).Sorted ∧
      ∀ names, (Source.ofDirectory unpack t path).names = .ok names → "" ∉ names) ∧
    ∀ (base : UInt32) (source : Source), source.Sorted →
      ∃ (libraries : List (String × List UInt8)) (failure : Option LibraryError) (after : Store σ),
        (s.run e history).1.importAll e source =
          (libraries.map fun library => .of e.digest library.1 library.2, failure, after) ∧
        after.Keeps e contents libraries ∧
        (∀ library ∈ libraries, source.load library.1 = .ok library.2) ∧
        (failure = none → source.names = .ok (libraries.map Prod.fst) ∧
          (e.Readable after.database →
            Window.build base (after.source e) = Window.build base source)) ∧
        ∀ reason, failure = some reason →
          (source.names = .error reason ∧ libraries = []) ∨
          ∃ name rest, source.names = .ok (libraries.map Prod.fst ++ name :: rest) ∧
            Stops e source name after reason := by
  refine ⟨Source.sorted_ofDirectory, ?_⟩
  intro base source hsorted
  have hholds := (opened_ok hlaw (.of_empty hempty) hopened).run hlaw history
  rw [List.nil_append] at hholds
  generalize (s.run e history).1 = before at *
  generalize (s.run e history).2 = log at hholds
  have hnone : present log = ∅ := by
    rw [hholds.count_eq] at hcount
    exact Finset.card_eq_zero.mp (Int.ofNat_eq_zero.mp hcount)
  rw [importAll]
  cases hnames : source.names with
  | error reason =>
      have hkeeps : before.Keeps e contents [] :=
        Holds.keeps hlaw hnone (by rwa [storedEvents, List.map_nil, List.append_nil]) .nil
      refine ⟨[], some reason, before, rfl, hkeeps, by simp, by simp, ?_⟩
      rintro _ ⟨⟩
      exact .inl ⟨rfl, rfl⟩
  | ok names =>
      obtain ⟨libraries, failure, after, himport, hafter, hall, hend⟩ :=
        importNames_takes hlaw hholds source names
      -- what was copied stands at the front of the listing, so it is in order too
      have hfront : libraries.map Prod.fst <+: names := by
        rcases hend with ⟨-, rfl⟩ | ⟨name, rest, reason, -, rfl, -⟩
        · exact List.prefix_rfl
        · exact List.prefix_append _ _
      have hordered := (hsorted names hnames).sublist (hfront.sublist.map Text.Utf8.bytes)
      have hkeeps := Holds.keeps hlaw hnone hafter hordered
      refine ⟨libraries, failure, after, himport, hkeeps, hall, ?_, ?_⟩
      · rintro rfl
        obtain ⟨-, rfl⟩ | ⟨name, rest, reason, hsome, -, -⟩ := hend
        · refine ⟨rfl, fun hreadable => ?_⟩
          refine Window.build_congr (hkeeps.names_eq hreadable) hnames ?_ base
          intro name hname
          obtain ⟨library, hlibrary, rfl⟩ := List.mem_map.mp hname
          have hnodup : (libraries.map Prod.fst).Nodup := by
            refine List.Nodup.of_map Text.Utf8.bytes (hordered.imp ?_)
            rintro a b hlt rfl
            exact List.lt_irrefl a hlt
          have hfound : libraries.lookup library.1 = some library.2 :=
            (lookup_eq_some_iff_mem hnodup).mpr hlibrary
          show after.load e library.1 = source.load library.1
          rw [hkeeps.load_eq hreadable, hfound, hall library hlibrary]
          rfl
        · cases hsome
      · rintro reason rfl
        obtain ⟨hnothing, -⟩ | ⟨name, rest, reason', hsome, rfl, hstops⟩ := hend
        · cases hnothing
        · obtain rfl := Option.some.inj hsome
          exact .inr ⟨name, rest, rfl, hstops⟩

/-- What a source loads under names is all there is to libraries loaded from it. -/
theorem eq_of_loads {source : Source} {names : List String} {loaded : List (String × List UInt8)}
    (hloads : ∀ library ∈ libraries, source.load library.1 = .ok library.2)
    (hnames : libraries.map Prod.fst = names)
    (hloaded : names.map (fun name => (name, (source.load name).toOption.getD [])) = loaded) :
    libraries = loaded := by
  rw [← hloaded, ← hnames, List.map_map]
  refine (List.map_id libraries).symm.trans (List.map_congr_left ?_)
  intro library hlibrary
  simp [hloads library hlibrary, Except.toOption]

/-- A store that once held a library and had it removed. -/
def emptied : List Action := [.put "ab" [1], .close, .reopen, .delete "ab"]

/-- Names that start with one another, with a byte below and one above that of the mark. An order
that took the mark into account would list them differently. -/
def alike : Source :=
  .inMemory ["a", "a.b", "a:", "ab"] [("a", [1]), ("a.b", []), ("a:", [2, 3]), ("ab", [4])]

/-- The same names, the third without a library. -/
def interrupted : Source :=
  .inMemory ["a", "a.b", "a:", "ab"] [("a", [1]), ("a.b", []), ("ab", [4])]

theorem import_keeps_window_alike :
    let engine := Database.engine
    let before := (fresh.run engine emptied).1
    (∀ key, Database.contents {} key = none) ∧ opened engine {} = .ok fresh ∧ before.count = 0 ∧
      (alike.Sorted ∧ ∃ after : Store Database,
        (before.importAll engine alike).2 = (none, after) ∧
        (before.importAll engine alike).1.map Entry.name = ["a", "a.b", "a:", "ab"] ∧
        Window.build 0x1000 (after.source engine) = Window.build 0x1000 alike) ∧
      interrupted.Sorted ∧ ∃ (reason : LibraryError) (after : Store Database),
        (before.importAll engine interrupted).2 = (some reason, after) ∧
        after.Keeps engine Database.contents [("a", [1]), ("a.b", [])] ∧
        Stops engine interrupted "a:" after reason := by
  intro engine before
  have hempty : ∀ key, Database.contents {} key = none := fun _ => rfl
  have hopened : opened engine {} = .ok fresh := rfl
  have hcount : before.count = 0 := by decide +kernel
  have hsorted : (["a", "a.b", "a:", "ab"].map Text.Utf8.bytes).Pairwise (· < ·) := by
    decide +kernel
  have halike : alike.Sorted := by
    rintro names ⟨⟩
    exact hsorted
  have hinterrupted : interrupted.Sorted := by
    rintro names ⟨⟩
    exact hsorted
  obtain ⟨-, himport⟩ :=
    import_keeps_window Database.lawful_engine hempty hopened emptied hcount
  refine ⟨hempty, hopened, hcount, ⟨halike, ?_⟩, hinterrupted, ?_⟩
  · obtain ⟨libraries, failure, after, hresult, -, -, hwhole, -⟩ := himport 0x1000 alike halike
    have hdone : (before.importAll engine alike).2.1.isNone = true := by decide +kernel
    have hnames : (before.importAll engine alike).1.map Entry.name = ["a", "a.b", "a:", "ab"] := by
      decide +kernel
    have hopen : (before.importAll engine alike).2.2.database.isOpen = true := by decide +kernel
    rw [hresult] at hdone hopen
    obtain rfl : failure = none := Option.isNone_iff_eq_none.mp hdone
    exact ⟨after, congrArg Prod.snd hresult, hnames,
      (hwhole rfl).2 (Database.readable_of_open hopen)⟩
  · obtain ⟨libraries, failure, after, hresult, hkeeps, hloads, -, hstopped⟩ :=
      himport 0x1000 interrupted hinterrupted
    have hfailed : (before.importAll engine interrupted).2.1.isSome = true := by decide +kernel
    have hcopied : (before.importAll engine interrupted).1.map Entry.name = ["a", "a.b"] := by
      decide +kernel
    rw [hresult] at hfailed hcopied
    obtain ⟨reason, rfl⟩ := Option.isSome_iff_exists.mp hfailed
    have hfst : libraries.map Prod.fst = ["a", "a.b"] := by
      rw [← hcopied, List.map_map]
      rfl
    obtain rfl : libraries = [("a", [1]), ("a.b", [])] := eq_of_loads hloads hfst rfl
    refine ⟨reason, after, congrArg Prod.snd hresult, hkeeps, ?_⟩
    obtain ⟨hnames, -⟩ | ⟨name, rest, hnames, hstops⟩ := hstopped reason rfl
    · cases hnames
    · obtain ⟨rfl, -⟩ := List.cons.inj (List.append_cancel_left
        (show ["a", "a.b"] ++ ["a:", "ab"] =
          ["a", "a.b"] ++ name :: rest from Except.ok.inj hnames))
      exact hstops

end Store

end Library

end RegisterVM
