import RegisterVM.Proofs.EntryCodec
import RegisterVM.Proofs.Transactions

/-!
# The store as a finite map

A store keeps each library in two records and a count beside them. `Holds` says that these three
agree with the log of the changes that succeeded: both records of a name are those of the library
last stored under it, and the count is the number of names that have one. Every operation keeps
this, also one that fails at whatever step of its transaction; what a store answers is then read off
the log.

All of this holds over any lawful engine, that is, for every transactional database that iterates
its keys in the order of their bytes, every codec that loses nothing and every hash.

The two records of a library cannot be taken for one another, nor for those of another library,
whatever its name is: a key starts with the mark of its part, and the marks differ in their first
byte.
-/

namespace RegisterVM.Library

namespace Part

/-- A key tells its part and its name. A name that looks like a mark does not change that. -/
theorem key_inj {part part' : Part} {name name' : String} :
    part.key name = part'.key name' ↔ part = part' ∧ name = name' := by
  constructor
  · intro h
    -- Keys of different parts differ in their first byte already.
    have hpart : part = part' := by
      have hfirst := congrArg List.head? h
      cases part <;> cases part' <;> first | rfl | cases hfirst
    subst hpart
    exact ⟨rfl, Text.Utf8.bytes_injective (List.append_cancel_left h)⟩
  · rintro ⟨rfl, rfl⟩
    rfl

theorem length_key_entry (name : String) :
    (Part.entry.key name).length = name.utf8ByteSize + 5 := by
  rw [key, List.length_append, Text.Utf8.length_bytes, Nat.add_comm]
  rfl

/-- What stands behind a mark in a key. -/
theorem afterMark?_eq_some_iff {mark key rest : List UInt8} :
    afterMark? mark key = some rest ↔ key = mark ++ rest := by
  induction mark generalizing key with
  | nil => simp [afterMark?]
  | cons m mark ih =>
      cases key with
      | nil => simp [afterMark?]
      | cons k key =>
          rw [afterMark?]
          by_cases hfirst : m = k
          · subst hfirst
            simp [ih]
          · simp [hfirst, Ne.symm hfirst]

/-- The name that a key of a part stands for is found again from the key. -/
theorem name?_eq_some_iff {part : Part} {key : Key} {name : String} :
    part.name? key = some name ↔ key = part.key name := by
  simp only [name?, Option.bind_eq_some_iff, afterMark?_eq_some_iff, Text.Utf8.text?_eq_some_iff,
    Part.key]
  constructor
  · rintro ⟨rest, rfl, rfl⟩
    rfl
  · intro h
    exact ⟨_, h, rfl⟩

/-- What is recorded of a library: the packed library in one part and its entry in the other. -/
def content {σ τ : Type} (e : Engine σ τ) (name : String) (library : List UInt8) :
    Part → List UInt8
  | packed => e.pack library
  | entry => (Entry.of e.digest name library).bytes

end Part

/-- Behind one mark, keys are in the order of the names. -/
theorem append_lt_append_iff {mark a b : List UInt8} : mark ++ a < mark ++ b ↔ a < b := by
  induction mark with
  | nil => rfl
  | cons m mark ih => simp [ih]

namespace Store

/-- A change that succeeded. Changes that failed are not events. -/
inductive Event where
  | stored (name : String) (library : List UInt8)
  | removed (name : String)

namespace Event

/-- The library that was stored or removed. -/
def name : Event → String
  | stored name _ | removed name => name

/-- What there is under the name afterwards. -/
def library? : Event → Option (List UInt8)
  | stored _ library => some library
  | removed _ => none

end Event

variable {σ τ : Type} {e : Engine σ τ} {contents : σ → Contents} {progress : τ → Progress}
  {s s' : Store σ} {name : String} {library : List UInt8}

/-! ### Transactions on a library -/

/-- A library that can be stored under a name. The bound on names is that of a key, and the one on
libraries that of a slot. -/
structure Storable (name : String) (library : List UInt8) : Prop where
  nonempty : name ≠ ""
  size_le : library.length ≤ slotSize
  key_lt : name.utf8ByteSize < keyBound

/-- Contents in which the records of a name are replaced. Both of them change together or not at
all. -/
def recorded (c : Contents) (name : String) (record : Part → Option (List UInt8)) : Contents :=
  Function.update (Function.update c (Part.packed.key name) (record .packed)) (Part.entry.key name)
    (record .entry)

/-- Replacing the records of a name leaves those of other names alone. -/
theorem recorded_key (c : Contents) (name : String) (record : Part → Option (List UInt8))
    (part : Part) (other : String) :
    recorded c name record (part.key other) =
      if other = name then record part else c (part.key other) := by
  simp only [recorded, Function.update_apply, Part.key_inj]
  cases part <;> simp

/-- The contents after a library was stored. -/
def stored (e : Engine σ τ) (c : Contents) (name : String) (library : List UInt8) : Contents :=
  recorded c name fun part => some (Part.content e name library part)

/-- The contents after a library was removed. -/
def removed (c : Contents) (name : String) : Contents := recorded c name fun _ => none

theorem storing_eq (e : Engine σ τ) (name : String) (library : List UInt8) (t : τ) :
    storing e name library t =
      let found := e.find t (Part.entry.key name)
      let written := e.writeAll found.1
        [.set (Part.packed.key name) (Part.content e name library .packed),
          .set (Part.entry.key name) (Part.content e name library .entry)]
      (written.1, written.2.map fun _ => isAbsent found.2) := rfl

theorem removing_base (h : e.Lawful contents progress) (name : String) (t : τ) :
    (progress (removing e name t).1).base = (progress t).base := by
  have hfind := h.find_base t (Part.entry.key name)
  rw [removing]
  rcases hfound : e.find t (Part.entry.key name) with ⟨t', cause | _ | bytes⟩
  · rw [hfound] at hfind
    exact hfind
  · rw [hfound] at hfind
    exact hfind
  · rw [hfound] at hfind
    exact ((h.writeAll t' _).1).trans hfind

/-- Storing counts a name as new just if the transaction saw nothing under it: where the look-up
failed, the transaction was not committed. -/
theorem storing_ok (h : e.Lawful contents progress) {t t' : τ} {isNew : Bool}
    (hran : storing e name library t = (t', .ok isNew)) (hread : ¬ (progress t').misread) :
    isNew = ((progress t).now (Part.entry.key name)).isNone ∧
      (progress t').now = stored e (progress t).now name library ∧
      name.utf8ByteSize + 5 < keyBound := by
  rw [storing_eq] at hran
  dsimp only at hran
  obtain ⟨-, hmisread, hwritten⟩ := h.writeAll (e.find t (Part.entry.key name)).1
    [.set (Part.packed.key name) (Part.content e name library .packed),
      .set (Part.entry.key name) (Part.content e name library .entry)]
  generalize e.writeAll _ _ = written at hran hmisread hwritten
  obtain ⟨t'', cause | ⟨⟩⟩ := written
  · cases hran
  · obtain ⟨rfl, hnew⟩ := Prod.mk.inj hran
    have hnew : isAbsent (e.find t (Part.entry.key name)).2 = isNew := Except.ok.inj hnew
    obtain ⟨hnow, hkeys⟩ := hwritten rfl
    cases hfound : (e.find t (Part.entry.key name)).2 with
    | error cause => exact absurd (hmisread (h.find_error t _ cause hfound)) hread
    | ok found =>
        obtain ⟨hseen, hsame⟩ := h.find_ok t _ found hfound
        rw [hsame] at hnow
        refine ⟨?_, hnow, ?_⟩
        · rw [← hnew, hfound, ← hseen]
          cases found <;> rfl
        · have hkey := hkeys _ (List.mem_cons_of_mem _ List.mem_cons_self)
          rwa [Write.key, Part.length_key_entry] at hkey

/-- Removing drops both records of a name that was there, and otherwise nothing. It goes by the
entry alone. -/
theorem removing_ok (h : e.Lawful contents progress) {t t' : τ} {existed : Bool}
    (hran : removing e name t = (t', .ok existed)) :
    existed = ((progress t).now (Part.entry.key name)).isSome ∧
      (progress t').now = if existed then removed (progress t).now name else (progress t).now := by
  have hfind := h.find_ok t (Part.entry.key name)
  rw [removing] at hran
  rcases hfound : e.find t (Part.entry.key name) with ⟨t₁, cause | _ | bytes⟩
  · rw [hfound] at hran
    cases hran
  · rw [hfound] at hran hfind
    cases hran
    obtain ⟨hseen, hsame⟩ := hfind none rfl
    exact ⟨by rw [← hseen]; rfl, hsame⟩
  · rw [hfound] at hran hfind
    dsimp only at hran
    obtain ⟨hseen, hsame⟩ := hfind (some bytes) rfl
    obtain ⟨-, -, hwritten⟩ := h.writeAll t₁
      [.delete (Part.packed.key name), .delete (Part.entry.key name)]
    generalize e.writeAll t₁ _ = written at hran hwritten
    obtain ⟨t₂, cause | ⟨⟩⟩ := written
    · cases hran
    · cases hran
      exact ⟨by rw [← hseen]; rfl, by rw [(hwritten rfl).1, hsame]; rfl⟩

/-- What storing comes to. If it succeeds, the contents have both records and the count has moved by
one for a new name; if it fails, contents and count are as before. Where the engine fails plays no
role. -/
theorem put_cases (h : e.Lawful contents progress) (s : Store σ) (name : String)
    (library : List UInt8) :
    (∃ d, s.put e name library =
        (⟨d, if (contents s.database (Part.entry.key name)).isNone then s.count + 1 else s.count⟩,
          .ok (.of e.digest name library)) ∧
        Storable name library ∧ contents d = stored e (contents s.database) name library) ∨
      ∃ d failure, s.put e name library = (⟨d, s.count⟩, .error failure) ∧
        contents d = contents s.database := by
  by_cases hname : name.isEmpty = true
  · exact .inr ⟨s.database, _, by rw [put, if_pos hname], rfl⟩
  by_cases hsize : slotSize < library.length
  · exact .inr ⟨s.database, _, by rw [put, if_neg hname, if_pos hsize], rfl⟩
  rw [put, if_neg hname, if_neg hsize]
  rcases hupdate : e.update s.database (storing e name library) with ⟨d, cause | isNew⟩
  · refine .inr ⟨d, _, rfl, h.update_error (fun t => ?_) hupdate⟩
    rw [storing_eq]
    exact (h.writeAll _ _).1.trans (h.find_base t _)
  · obtain ⟨t, t', hstart, hran, hleft, hread⟩ := h.update_ok hupdate
    obtain ⟨rfl, hnow, hkey⟩ := storing_ok h hran hread
    rw [hstart] at hnow
    have hstorable : Storable name library :=
      ⟨by simpa [String.isEmpty_iff] using hname, Nat.le_of_not_lt hsize, by omega⟩
    exact .inl ⟨d, by rw [hstart], hstorable, hleft.trans hnow⟩

/-- What removing comes to. If it succeeds, neither record is there, and the count has moved by one
if there was an entry; if it fails, contents and count are as before. -/
theorem delete_cases (h : e.Lawful contents progress) (s : Store σ) (name : String) :
    (∃ d existed, s.delete e name = (⟨d, if existed then s.count - 1 else s.count⟩, .ok ()) ∧
        existed = (contents s.database (Part.entry.key name)).isSome ∧
        contents d = if existed then removed (contents s.database) name else contents s.database) ∨
      ∃ d failure, s.delete e name = (⟨d, s.count⟩, .error failure) ∧
        contents d = contents s.database := by
  rw [delete]
  rcases hupdate : e.update s.database (removing e name) with ⟨d, cause | existed⟩
  · exact .inr ⟨d, _, rfl, h.update_error (removing_base h name) hupdate⟩
  · obtain ⟨t, t', hstart, hran, hleft, -⟩ := h.update_ok hupdate
    obtain ⟨hexisted, hnow⟩ := removing_ok h hran
    rw [hstart] at hexisted hnow
    exact .inl ⟨d, existed, rfl, hexisted, hleft.trans hnow⟩

/-! ### Logs -/

/-- The library that was last stored under a name, if it was not removed since. This is the finite
map that the store is compared with. -/
def lastStored (log : List Event) (name : String) : Option (List UInt8) :=
  (log.reverse.find? fun event => event.name == name).bind Event.library?

/-- The names under which there is a library. Only names in the log can have one, so there are
finitely many. -/
def present (log : List Event) : Finset String :=
  (log.map Event.name).toFinset.filter fun name => (lastStored log name).isSome

variable {log : List Event}

/-- One more event changes what is there under its own name. -/
theorem lastStored_concat (log : List Event) (event : Event) (name : String) :
    lastStored (log ++ [event]) name =
      if name = event.name then event.library? else lastStored log name := by
  rw [lastStored, List.reverse_append, List.reverse_singleton, List.singleton_append,
    List.find?_cons]
  by_cases hname : event.name = name
  · simp [hname]
  · have hbeq : (event.name == name) = false := beq_eq_false_iff_ne.mpr hname
    rw [hbeq, if_neg (Ne.symm hname)]
    rfl

theorem mem_present : name ∈ present log ↔ (lastStored log name).isSome = true := by
  rw [present, Finset.mem_filter, List.mem_toFinset, and_iff_right_iff_imp]
  intro hsome
  rw [lastStored, Option.isSome_bind] at hsome
  cases hfind : log.reverse.find? fun event => event.name == name with
  | none => simp [hfind] at hsome
  | some event =>
      have hname := List.find?_some hfind
      rw [beq_iff_eq] at hname
      exact List.mem_map.mpr ⟨event, List.mem_reverse.mp (List.mem_of_find?_eq_some hfind), hname⟩

theorem present_stored (log : List Event) (name : String) (library : List UInt8) :
    present (log ++ [.stored name library]) = insert name (present log) := by
  ext other
  rw [mem_present, lastStored_concat, Finset.mem_insert, mem_present]
  by_cases hother : other = name <;> simp [Event.name, Event.library?, hother]

theorem present_removed (log : List Event) (name : String) :
    present (log ++ [.removed name]) = (present log).erase name := by
  ext other
  rw [mem_present, lastStored_concat, Finset.mem_erase, mem_present]
  by_cases hother : other = name <;> simp [Event.name, Event.library?, hother]

/-! ### Agreement with the log -/

/-- Contents hold the two records of each library that was last stored under its name. Contents
under other keys are of no concern. -/
structure Agrees (e : Engine σ τ) (c : Contents) (log : List Event) : Prop where
  record_eq : ∀ part name, c (part.key name) =
    (lastStored log name).map fun library => Part.content e name library part
  storable : ∀ name library, lastStored log name = some library → Storable name library

/-- A store holds what was last stored, and has counted it. The count is kept beside the database,
so it is said separately. -/
structure Holds (e : Engine σ τ) (contents : σ → Contents) (s : Store σ) (log : List Event) : Prop
    extends Agrees e (contents s.database) log where
  count_eq : s.count = (present log).card

namespace Agrees

variable {c : Contents}

theorem of_empty (h : ∀ key, c key = none) : Agrees e c [] where
  record_eq := fun part name => h (part.key name)
  storable := by
    intro name library hlast
    cases hlast

theorem isSome_record (h : Agrees e c log) (part : Part) (name : String) :
    (c (part.key name)).isSome = (lastStored log name).isSome := by
  rw [h.record_eq, Option.isSome_map]

theorem isNone_record (h : Agrees e c log) (part : Part) (name : String) :
    (c (part.key name)).isNone = !decide (name ∈ present log) := by
  have hsome := h.isSome_record part name
  simp only [mem_present, Bool.decide_eq_true, ← hsome, Option.not_isSome]

/-- Storing a library changes what is held under its name, and nothing else. -/
theorem stored (h : Agrees e c log) (hstorable : Storable name library) :
    Agrees e (stored e c name library) (log ++ [.stored name library]) where
  record_eq := by
    intro part other
    rw [Store.stored, recorded_key, lastStored_concat]
    by_cases hother : other = name
    · simp [hother, Event.name, Event.library?]
    · simp [hother, Event.name, h.record_eq]
  storable := by
    intro other found hfound
    rw [lastStored_concat] at hfound
    split at hfound
    next hother =>
      cases hfound
      obtain rfl : other = name := hother
      exact hstorable
    next => exact h.storable other found hfound

/-- Removing a library leaves nothing under its name, and everything else as it is. -/
theorem removed (h : Agrees e c log) (name : String) :
    Agrees e (removed c name) (log ++ [.removed name]) where
  record_eq := by
    intro part other
    rw [Store.removed, recorded_key, lastStored_concat]
    by_cases hother : other = name
    · simp [hother, Event.name, Event.library?]
    · simp [hother, Event.name, h.record_eq]
  storable := by
    intro other found hfound
    rw [lastStored_concat] at hfound
    split at hfound
    next => cases hfound
    next => exact h.storable other found hfound

/-- Contents do not change where there was nothing to remove, and the log says the same. -/
theorem removed_absent (h : Agrees e c log) (hname : name ∉ present log) :
    Agrees e c (log ++ [.removed name]) := by
  rw [mem_present, Bool.not_eq_true, Option.isSome_eq_false_iff, Option.isNone_iff_eq_none] at hname
  have hsame : lastStored (log ++ [.removed name]) = lastStored log := by
    funext other
    rw [lastStored_concat]
    split
    next hother =>
      obtain rfl : other = name := hother
      exact hname.symm
    next => rfl
  exact ⟨by rw [hsame]; exact h.record_eq, by rw [hsame]; exact h.storable⟩

end Agrees

namespace Holds

/-- A store on a database with the same contents holds the same. -/
theorem of_contents (h : Holds e contents s log) {d : σ} (hd : contents d = contents s.database) :
    Holds e contents ⟨d, s.count⟩ log :=
  ⟨by rw [show (⟨d, s.count⟩ : Store σ).database = d from rfl, hd]; exact h.toAgrees, h.count_eq⟩

/-- After a library was stored it is held, and counted if its name was new. -/
theorem stored (h : Holds e contents s log) (hstorable : Storable name library) {d : σ}
    (hd : contents d = Store.stored e (contents s.database) name library) :
    Holds e contents
      ⟨d, if (contents s.database (Part.entry.key name)).isNone then s.count + 1 else s.count⟩
      (log ++ [.stored name library]) := by
  refine ⟨?_, ?_⟩
  · show Agrees e (contents d) _
    rw [hd]
    exact h.toAgrees.stored hstorable
  · rw [present_stored, h.isNone_record, h.count_eq]
    by_cases hpresent : name ∈ present log
    · simp [hpresent]
    · simp [hpresent]

/-- After a library was removed it is neither held nor counted. -/
theorem removed (h : Holds e contents s log) {d : σ} {existed : Bool}
    (hexisted : existed = (contents s.database (Part.entry.key name)).isSome)
    (hd : contents d =
      if existed then Store.removed (contents s.database) name else contents s.database) :
    Holds e contents ⟨d, if existed then s.count - 1 else s.count⟩ (log ++ [.removed name]) := by
  rw [h.isSome_record] at hexisted
  cases existed with
  | true =>
      have hpresent : name ∈ present log := mem_present.mpr hexisted.symm
      have hcard := Finset.card_erase_add_one hpresent
      refine ⟨?_, ?_⟩
      · show Agrees e (contents d) _
        rw [hd]
        exact h.toAgrees.removed name
      · show s.count - 1 = _
        rw [present_removed, h.count_eq]
        omega
  | false =>
      have habsent : name ∉ present log := by
        rw [mem_present, ← hexisted]
        exact Bool.false_ne_true
      refine ⟨?_, ?_⟩
      · show Agrees e (contents d) _
        rw [hd]
        exact h.toAgrees.removed_absent habsent
      · rw [present_removed, Finset.erase_eq_of_notMem habsent, if_neg Bool.false_ne_true]
        exact h.count_eq

end Holds

/-! ### Listing and opening -/

/-- The names that a store lists are those that have an entry, in the strict order of their bytes.
The keys come in order, and behind one mark the order of keys is that of names. -/
theorem names_ok (h : e.Lawful contents progress) {names : List String}
    (hnames : s.names e = .ok names) :
    (names.map Text.Utf8.bytes).Pairwise (· < ·) ∧
      ∀ name, name ∈ names ↔ (contents s.database (Part.entry.key name)).isSome = true := by
  rw [Store.names] at hnames
  cases hkeys : e.keys s.database Part.entry.mark with
  | error cause =>
      rw [hkeys] at hnames
      cases hnames
  | ok keys =>
      rw [hkeys] at hnames
      cases hnames
      constructor
      · rw [List.pairwise_map]
        refine List.Pairwise.filterMap _ ?_ (h.keys_ordered _ _ _ hkeys)
        intro key key' hlt name hname name' hname'
        rw [Part.name?_eq_some_iff.mp hname, Part.name?_eq_some_iff.mp hname'] at hlt
        exact append_lt_append_iff.mp hlt
      · intro name
        simp only [List.mem_filterMap, Part.name?_eq_some_iff, exists_eq_right,
          h.mem_keys _ _ _ hkeys, and_iff_right_iff_imp]
        intro _
        exact List.prefix_append _ _

/-- Names in strict order are as many as there are, since none is listed twice. -/
theorem length_eq_card {names : List String}
    (hsorted : (names.map Text.Utf8.bytes).Pairwise (· < ·))
    (hmem : ∀ name, name ∈ names ↔ (lastStored log name).isSome = true) :
    names.length = (present log).card := by
  have hnodup : names.Nodup := by
    refine List.Nodup.of_map Text.Utf8.bytes (hsorted.imp ?_)
    rintro a b hlt rfl
    exact List.lt_irrefl a hlt
  rw [← List.toFinset_card_of_nodup hnodup]
  congr 1
  ext name
  rw [List.mem_toFinset, hmem, mem_present]

/-- A store that is opened counts what its database holds, whatever was counted before. -/
theorem opened_ok (h : e.Lawful contents progress) {d : σ} (hagrees : Agrees e (contents d) log)
    (hopened : Store.opened e d = .ok s) : Holds e contents s log := by
  have hcontents := h.opened_contents d
  rw [Store.opened] at hopened
  rcases hopen : e.opened d with ⟨d', cause | ⟨⟩⟩
  · rw [hopen] at hopened
    cases hopened
  · rw [hopen] at hopened hcontents
    dsimp only at hopened hcontents
    cases hnames : Store.names e ⟨d', 0⟩ with
    | error failure =>
        rw [hnames] at hopened
        cases hopened
    | ok names =>
        rw [hnames] at hopened
        cases hopened
        rw [← hcontents] at hagrees
        obtain ⟨hsorted, hmem⟩ := names_ok h hnames
        refine ⟨hagrees, congrArg Nat.cast (length_eq_card hsorted fun name => ?_)⟩
        rw [hmem]
        exact iff_of_eq (congrArg (· = true) (hagrees.isSome_record .entry name))

theorem opened_error (h : e.Lawful contents progress) {d d' : σ} {failure : LibraryError}
    (hopened : Store.opened e d = .error (d', failure)) : contents d' = contents d := by
  have hcontents := h.opened_contents d
  rw [Store.opened] at hopened
  rcases hopen : e.opened d with ⟨left, cause | ⟨⟩⟩
  · rw [hopen] at hopened hcontents
    cases hopened
    exact hcontents
  · rw [hopen] at hopened hcontents
    dsimp only at hopened hcontents
    cases hnames : Store.names e ⟨left, 0⟩ with
    | error cause =>
        rw [hnames] at hopened
        cases hopened
        exact (h.close_contents left).trans hcontents
    | ok names =>
        rw [hnames] at hopened
        cases hopened

/-! ### Answers -/

/-- The answer about a name under which there may be something. What is not there is an error that
names the library. -/
def answer {α : Type} (name : String) : Option α → Except LibraryError α
  | some found => .ok found
  | none => .error ⟨["failed to get entry", name], .notFound⟩

theorem toInt_size (e : Engine σ τ) (hstorable : Storable name library) :
    (Entry.of e.digest name library).size.toInt = library.length := by
  have hsize := hstorable.size_le
  have hslot : slotSize = 4194304 := rfl
  show (Int64.ofNat library.length).toInt = _
  rw [Int64.toInt_ofNat_of_lt (by omega)]

namespace Holds

/-- An entry that is held is found as it was written, if the database lets it be read. -/
theorem entry_eq (hlaw : e.Lawful contents progress) (h : Holds e contents s log)
    {found : Option (List UInt8)} (hget : e.get s.database (Part.entry.key name) = .ok found) :
    s.entry e name = answer name ((lastStored log name).map (Entry.of e.digest name)) := by
  rw [Store.entry, hget, hlaw.get_eq _ _ _ hget, h.record_eq]
  cases hlast : lastStored log name with
  | none => rfl
  | some library =>
      have hread : Entry.ofBytes? (Part.content e name library .entry) =
          some (Entry.of e.digest name library) :=
        Entry.ofBytes?_bytes (h.storable name library hlast).key_lt
      simp only [Option.map_some, hread]
      rfl

/-- A library that is held is loaded as it was stored: it unpacks, and size and digest are its own.
So none of the checks that loading makes can fail. -/
theorem load_eq (hlaw : e.Lawful contents progress) (h : Holds e contents s log)
    (hget : ∀ part : Part, ∃ found, e.get s.database (part.key name) = .ok found) :
    s.load e name = answer name (lastStored log name) := by
  obtain ⟨entryFound, hentry⟩ := hget .entry
  obtain ⟨packedFound, hpacked⟩ := hget .packed
  rw [Store.load, h.entry_eq hlaw hentry]
  cases hlast : lastStored log name with
  | none => rfl
  | some library =>
      have hstorable := h.storable name library hlast
      have hbytes : s.packed e name = .ok (e.pack library) := by
        rw [Store.packed, hpacked, hlaw.get_eq _ _ _ hpacked, h.record_eq, hlast]
        rfl
      have hunpack : withinContext name (e.unpack (e.pack library)) = .ok library := by
        rw [hlaw.unpack_pack library hstorable.size_le]
        rfl
      -- The size is below the bound of a slot, so the entry has kept it exactly.
      have hverified :
        ¬(decide ((library.length : Int) ≠ (Entry.of e.digest name library).size.toInt) ||
          decide (e.digest library ≠ (Entry.of e.digest name library).digest)) = true := by
        rw [toInt_size e hstorable]
        simp [Entry.of]
      rw [Option.map_some, answer, ok_bind, hbytes, ok_bind, hunpack, ok_bind, if_neg hverified]
      rfl

end Holds

/-- What can be done to a store. Reading is not among them, since it changes nothing. -/
inductive Action where
  | put (name : String) (library : List UInt8)
  | delete (name : String)
  | importAll (source : Source)
  | close
  | reopen

/-- What an import has stored, from the entries it returns. An import that fails halfway returns
those it has stored. -/
def importEvents (source : Source) (entries : List Entry) : List Event :=
  entries.filterMap fun entry => (source.load entry.name).toOption.map (Event.stored entry.name)

/-- Does one thing to a store: the store afterwards, and the changes that succeeded. -/
def perform (e : Engine σ τ) (s : Store σ) : Action → Store σ × List Event
  | .put name library =>
      match s.put e name library with
      | (s, .ok _) => (s, [.stored name library])
      | (s, .error _) => (s, [])
  | .delete name =>
      match s.delete e name with
      | (s, .ok _) => (s, [.removed name])
      | (s, .error _) => (s, [])
  | .importAll source =>
      ((s.importAll e source).2.2, importEvents source (s.importAll e source).1)
  | .close => ((s.close e).1, [])
  | .reopen => ((s.reopen e).1, [])

/-- Does one thing after the other. -/
def run (e : Engine σ τ) (s : Store σ) : List Action → Store σ × List Event
  | [] => (s, [])
  | action :: rest =>
      let (s, events) := s.perform e action
      let (s, more) := run e s rest
      (s, events ++ more)

theorem run_cons (e : Engine σ τ) (s : Store σ) (action : Action) (rest : List Action) :
    s.run e (action :: rest) =
      (((s.perform e action).1.run e rest).1,
        (s.perform e action).2 ++ ((s.perform e action).1.run e rest).2) := rfl

/-- The first step of an import: a library is stored and the import goes on, or it ends. -/
theorem importNames_cons (e : Engine σ τ) (source : Source) (name : String) (rest : List String)
    (s : Store σ) :
    (∃ library s' entry, source.load name = .ok library ∧ s.put e name library = (s', .ok entry) ∧
        importNames e source (name :: rest) s =
          (entry :: (importNames e source rest s').1, (importNames e source rest s').2)) ∨
      (∃ failure, source.load name = .error failure ∧ importNames e source (name :: rest) s =
        ([], some (failure.within ("failed to load " ++ name)), s)) ∨
      ∃ library s' failure, source.load name = .ok library ∧
        s.put e name library = (s', .error failure) ∧
        importNames e source (name :: rest) s = ([], some failure, s') := by
  rw [importNames]
  rcases hload : source.load name with failure | library
  · exact .inr (.inl ⟨failure, rfl, rfl⟩)
  · have hcontext : withinContext ("failed to load " ++ name) (.ok library) = .ok library := rfl
    rw [hcontext]
    rcases hput : s.put e name library with ⟨s', failure | entry⟩
    · exact .inr (.inr ⟨library, s', failure, rfl, hput, by simp only [hput]⟩)
    · exact .inl ⟨library, s', entry, rfl, hput, by simp only [hput]⟩

namespace Holds

/-- Storing a library, whether it succeeds or fails, leaves a store that holds what the log has. -/
theorem put (hlaw : e.Lawful contents progress) (h : Holds e contents s log) (name : String)
    (library : List UInt8) :
    (∃ s', s.put e name library = (s', .ok (.of e.digest name library)) ∧
        Holds e contents s' (log ++ [.stored name library])) ∨
      ∃ s' failure, s.put e name library = (s', .error failure) ∧ Holds e contents s' log := by
  rcases put_cases hlaw s name library with ⟨d, hput, hstorable, hd⟩ | ⟨d, failure, hput, hd⟩
  · exact .inl ⟨_, hput, h.stored hstorable hd⟩
  · exact .inr ⟨_, failure, hput, h.of_contents hd⟩

end Holds

/-- Why copying stops at a library: it cannot be loaded, or the store fails to take it, for whatever
reason. Only the first is said to be about that library. -/
inductive Stops (e : Engine σ τ) (source : Source) (name : String) (after : Store σ) :
    LibraryError → Prop
  | loading {failure : LibraryError} : source.load name = .error failure →
      Stops e source name after (failure.within ("failed to load " ++ name))
  | storing {before : Store σ} {library : List UInt8} {failure : LibraryError} :
      source.load name = .ok library → before.put e name library = (after, .error failure) →
      Stops e source name after failure

/-- The log of libraries that were stored one by one. -/
def storedEvents (libraries : List (String × List UInt8)) : List Event :=
  libraries.map fun library => .stored library.1 library.2

/-- Copying takes libraries from the front, up to the end or to one that stops it. The induction is
on the names; what is carried along is the log of what was stored. -/
theorem importNames_takes (hlaw : e.Lawful contents progress) (h : Holds e contents s log)
    (source : Source) (names : List String) :
    ∃ (libraries : List (String × List UInt8)) (failure : Option LibraryError) (s' : Store σ),
      importNames e source names s =
        (libraries.map fun library => .of e.digest library.1 library.2, failure, s') ∧
      Holds e contents s' (log ++ storedEvents libraries) ∧
      (∀ library ∈ libraries, source.load library.1 = .ok library.2) ∧
      ((failure = none ∧ names = libraries.map Prod.fst) ∨
        ∃ name rest reason, failure = some reason ∧ names = libraries.map Prod.fst ++ name :: rest ∧
          Stops e source name s' reason) := by
  induction names generalizing s log with
  | nil => exact ⟨[], none, s, rfl, by rwa [storedEvents, List.map_nil, List.append_nil], by simp,
      .inl ⟨rfl, rfl⟩⟩
  | cons name rest ih =>
      rcases importNames_cons e source name rest s with
        ⟨library, s₁, entry, hload, hput, himport⟩ | ⟨failure, hload, himport⟩ |
        ⟨library, s₁, failure, hload, hput, himport⟩
      · rcases h.put hlaw name library with ⟨s₂, hput', hstored⟩ | ⟨s₂, failure, hput', -⟩
        · obtain ⟨rfl, hentry⟩ := Prod.mk.inj (hput.symm.trans hput')
          obtain rfl := Except.ok.inj hentry
          obtain ⟨libraries, failure, s', hrest, hholds, hall, hend⟩ := ih hstored
          rw [List.append_assoc] at hholds
          refine ⟨(name, library) :: libraries, failure, s', by rw [himport, hrest]; rfl, hholds,
            List.forall_mem_cons.mpr ⟨hload, hall⟩, ?_⟩
          rcases hend with ⟨hnone, rfl⟩ | ⟨name', rest', reason, hsome, rfl, hstops⟩
          · exact .inl ⟨hnone, rfl⟩
          · exact .inr ⟨name', rest', reason, hsome, rfl, hstops⟩
        · cases hput.symm.trans hput'
      · refine ⟨[], _, s, himport, by rwa [storedEvents, List.map_nil, List.append_nil], by simp,
          .inr ⟨name, rest, _, rfl, rfl, .loading hload⟩⟩
      · rcases h.put hlaw name library with ⟨s₂, hput', -⟩ | ⟨s₂, failure', hput', hsame⟩
        · cases hput.symm.trans hput'
        · obtain ⟨rfl, -⟩ := Prod.mk.inj (hput.symm.trans hput')
          exact ⟨[], _, s₁, himport, by rwa [storedEvents, List.map_nil, List.append_nil], by simp,
            .inr ⟨name, rest, _, rfl, rfl, .storing hload hput⟩⟩

/-- An entry names its library, so the log of an import is what the source loads for the entries. -/
theorem importEvents_of_loads {source : Source} (digest : List UInt8 → Digest)
    {libraries : List (String × List UInt8)}
    (h : ∀ library ∈ libraries, source.load library.1 = .ok library.2) :
    importEvents source (libraries.map fun library => .of digest library.1 library.2) =
      storedEvents libraries := by
  induction libraries with
  | nil => rfl
  | cons library rest ih =>
      obtain ⟨hfirst, hrest⟩ := List.forall_mem_cons.mp h
      have hloaded : (source.load (Entry.of digest library.1 library.2).name).toOption =
          some library.2 := by
        show (source.load library.1).toOption = _
        rw [hfirst]
        rfl
      rw [importEvents, List.map_cons, List.filterMap_cons, hloaded]
      exact congrArg (List.cons _) (ih hrest)

namespace Holds

/-- An import leaves a store that holds what the log has, with what was imported before it ended. -/
theorem importNames (hlaw : e.Lawful contents progress) (h : Holds e contents s log)
    (source : Source) (names : List String) :
    Holds e contents (Store.importNames e source names s).2.2
      (log ++ importEvents source (Store.importNames e source names s).1) := by
  obtain ⟨libraries, failure, s', himport, hholds, hloads, -⟩ :=
    importNames_takes hlaw h source names
  rw [himport, importEvents_of_loads e.digest hloads]
  exact hholds

/-- Step lemma: whatever is done to a store, it holds what was last stored. -/
theorem perform (hlaw : e.Lawful contents progress) (h : Holds e contents s log) (action : Action) :
    Holds e contents (s.perform e action).1 (log ++ (s.perform e action).2) := by
  cases action with
  | put name library =>
      rw [Store.perform]
      rcases h.put hlaw name library with ⟨s', hput, hstored⟩ | ⟨s', failure, hput, hsame⟩
      · rw [hput]
        exact hstored
      · rw [hput, List.append_nil]
        exact hsame
  | delete name =>
      rw [Store.perform]
      rcases delete_cases hlaw s name with ⟨d, existed, hdelete, hexisted, hd⟩ |
        ⟨d, failure, hdelete, hd⟩
      · rw [hdelete]
        exact h.removed hexisted hd
      · rw [hdelete, List.append_nil]
        exact h.of_contents hd
  | importAll source =>
      rw [Store.perform, importAll]
      cases source.names with
      | error failure =>
          rw [importEvents, List.filterMap_nil, List.append_nil]
          exact h
      | ok names => exact h.importNames hlaw source names
  | close =>
      rw [Store.perform, List.append_nil]
      exact h.of_contents (hlaw.close_contents s.database)
  | reopen =>
      have hclosed : contents (s.close e).1.database = contents s.database :=
        hlaw.close_contents s.database
      rw [Store.perform, List.append_nil, reopen]
      cases hopened : Store.opened e (s.close e).1.database with
      | error left =>
          obtain ⟨d, failure⟩ := left
          exact h.of_contents ((opened_error hlaw hopened).trans hclosed)
      | ok s' => exact opened_ok hlaw (by rw [hclosed]; exact h.toAgrees) hopened

/-- Run lemma: after any history a store holds what was last stored. -/
theorem run (hlaw : e.Lawful contents progress) (h : Holds e contents s log)
    (history : List Action) :
    Holds e contents (s.run e history).1 (log ++ (s.run e history).2) := by
  induction history generalizing s log with
  | nil =>
      rw [Store.run, List.append_nil]
      exact h
  | cons action rest ih =>
      rw [run_cons, ← List.append_assoc]
      exact ih (h.perform hlaw action)

end Holds

/-! ### Any history -/

/-- A store on a database in memory that was just made. -/
def fresh : Store Database := ⟨{}, 0⟩

end Store

end RegisterVM.Library
