import RegisterVM.Proofs.OrderedRecords
import RegisterVM.Proofs.PackedFrames
import RegisterVM.Library.Store

/-!
# What a store may expect of its engine

An engine is lawful if its database is a transactional map from keys to bytes whose keys are
iterated in the order of their bytes, and if unpacking undoes packing. Nothing is said about when a
step fails: the laws only say what is there afterwards. A transaction that fails at any point, also
when it is committed, leaves the records as they were; one that succeeds has made all of its writes.

The database in memory is lawful (`Database.lawful_engine`), and on an open one nothing fails but a
write under a key that is too long.
-/

namespace RegisterVM.Library

/-- What a database holds under its keys. -/
abbrev Contents := Key → Option (List UInt8)

/-- What a write makes of contents. -/
def Write.change (c : Contents) : Write → Contents
  | set key value => Function.update c key (some value)
  | delete key => Function.update c key none

/-- What a transaction in progress amounts to: the contents it started from, those that it sees, and
whether a look-up in it has failed. How an engine keeps track of this is its own business. -/
structure Progress where
  base : Contents
  now : Contents
  misread : Prop

/-- The most bytes that a string can say it has. No engine takes a key that is longer. -/
def keyBound : Nat := 256 ^ 8

namespace Engine

variable {σ τ : Type} {e : Engine σ τ} {contents : σ → Contents} {progress : τ → Progress}

/-- A transactional map from keys to bytes, and a codec that loses nothing. A transaction in which a
look-up failed is not committed: a store goes on after such a look-up and could not know whether it
replaces a library. -/
structure Lawful (e : Engine σ τ) (contents : σ → Contents) (progress : τ → Progress) : Prop where
  opened_contents : ∀ d, contents (e.opened d).1 = contents d
  close_contents : ∀ d, contents (e.close d).1 = contents d
  get_eq : ∀ d key found, e.get d key = .ok found → found = contents d key
  keys_ordered : ∀ d mark keys, e.keys d mark = .ok keys → keys.Pairwise (· < ·)
  mem_keys : ∀ d mark keys, e.keys d mark = .ok keys →
    ∀ key, key ∈ keys ↔ mark <+: key ∧ (contents d key).isSome = true
  start_ok : ∀ d t, e.start d = .ok t →
    (progress t).base = contents d ∧ (progress t).now = contents d
  start_error : ∀ d d' cause, e.start d = .error (d', cause) → contents d' = contents d
  find_base : ∀ t key, (progress (e.find t key).1).base = (progress t).base
  find_ok : ∀ t key found, (e.find t key).2 = .ok found →
    found = (progress t).now key ∧ (progress (e.find t key).1).now = (progress t).now
  find_error : ∀ t key cause, (e.find t key).2 = .error cause → (progress (e.find t key).1).misread
  write_base : ∀ t w, (progress (e.write t w).1).base = (progress t).base
  write_ok : ∀ t w, (e.write t w).2 = .ok () →
    (progress (e.write t w).1).now = w.change (progress t).now ∧ w.key.length < keyBound
  write_misread : ∀ t w, (progress t).misread → (progress (e.write t w).1).misread
  commit_ok : ∀ t, (e.commit t).2 = .ok () →
    contents (e.commit t).1 = (progress t).now ∧ ¬ (progress t).misread
  commit_error : ∀ t cause, (e.commit t).2 = .error cause →
    contents (e.commit t).1 = (progress t).base
  discard_contents : ∀ t, contents (e.discard t) = (progress t).base
  unpack_pack : ∀ library : List UInt8, library.length ≤ slotSize →
    e.unpack (e.pack library) = .ok library

/-! ### Bodies of transactions -/

/-- What writing one after the other comes to: all writes were made, or one of them failed. In
either case the transaction still knows what it started from. -/
theorem Lawful.writeAll (h : e.Lawful contents progress) (t : τ) (writes : List Write) :
    (progress (e.writeAll t writes).1).base = (progress t).base ∧
      ((progress t).misread → (progress (e.writeAll t writes).1).misread) ∧
      ((e.writeAll t writes).2 = .ok () →
        (progress (e.writeAll t writes).1).now = writes.foldl Write.change (progress t).now ∧
          ∀ w ∈ writes, w.key.length < keyBound) := by
  induction writes generalizing t with
  | nil => exact ⟨rfl, id, fun _ => ⟨rfl, by simp⟩⟩
  | cons w rest ih =>
      have hbase := h.write_base t w
      have hmisread := h.write_misread t w
      have hok := h.write_ok t w
      rw [Engine.writeAll]
      rcases hwrite : e.write t w with ⟨t', cause | ⟨⟩⟩
      · rw [hwrite] at hbase hmisread
        exact ⟨hbase, hmisread, nofun⟩
      · rw [hwrite] at hbase hmisread hok
        obtain ⟨hnow, hkey⟩ := hok rfl
        obtain ⟨hrestBase, hrestMisread, hrestOk⟩ := ih t'
        refine ⟨hrestBase.trans hbase, hrestMisread ∘ hmisread, fun hdone => ?_⟩
        obtain ⟨hall, hkeys⟩ := hrestOk hdone
        exact ⟨by rw [hall, hnow]; rfl, List.forall_mem_cons.mpr ⟨hkey, hkeys⟩⟩

variable {α : Type} {body : τ → τ × Except Cause α} {d d' : σ}

/-- A transaction that fails leaves the contents as they were, wherever it failed. It may fail to
start, in its body or when it is committed. -/
theorem Lawful.update_error (h : e.Lawful contents progress)
    (hbody : ∀ t, (progress (body t).1).base = (progress t).base) {cause : Cause}
    (hfailed : e.update d body = (d', .error cause)) : contents d' = contents d := by
  rw [update] at hfailed
  cases hstart : e.start d with
  | error refusal =>
      obtain ⟨left, reason⟩ := refusal
      rw [hstart] at hfailed
      cases hfailed
      exact h.start_error d d' cause hstart
  | ok t =>
      have hbase : (progress (body t).1).base = contents d :=
        (hbody t).trans (h.start_ok d t hstart).1
      rw [hstart] at hfailed
      rcases hran : body t with ⟨t', reason | a⟩
      · rw [hran] at hbase
        simp only [hran] at hfailed
        cases hfailed
        exact (h.discard_contents t').trans hbase
      · rw [hran] at hbase
        simp only [hran] at hfailed
        rcases hcommit : e.commit t' with ⟨left, reason | ⟨⟩⟩
        · rw [hcommit] at hfailed
          cases hfailed
          have hkept := h.commit_error t' cause (by rw [hcommit])
          rw [hcommit] at hkept
          exact hkept.trans hbase
        · rw [hcommit] at hfailed
          cases hfailed

/-- A transaction that succeeds has run its body from the contents there were, and left what the
body saw at its end. -/
theorem Lawful.update_ok (h : e.Lawful contents progress) {a : α}
    (hdone : e.update d body = (d', .ok a)) :
    ∃ t t', (progress t).now = contents d ∧ body t = (t', .ok a) ∧
      contents d' = (progress t').now ∧ ¬ (progress t').misread := by
  rw [update] at hdone
  cases hstart : e.start d with
  | error refusal =>
      rw [hstart] at hdone
      cases hdone
  | ok t =>
      rw [hstart] at hdone
      rcases hran : body t with ⟨t', reason | a'⟩
      · simp only [hran] at hdone
        cases hdone
      · simp only [hran] at hdone
        rcases hcommit : e.commit t' with ⟨left, reason | ⟨⟩⟩
        · rw [hcommit] at hdone
          cases hdone
        · rw [hcommit] at hdone
          cases hdone
          have hkept := h.commit_ok t' (by rw [hcommit])
          rw [hcommit] at hkept
          exact ⟨t, t', (h.start_ok d t hstart).2, hran, hkept.1, hkept.2⟩

/-! ### Engines that refuse nothing -/

/-- In this state the engine refuses nothing but keys of more than `limit` bytes. The laws do not
promise this: they hold of an engine that fails all the time. -/
structure Obliging (e : Engine σ τ) (limit : Nat) (d : σ) : Prop where
  starts : ∃ t, e.start d = .ok t
  finds : ∀ t key, ∃ found, (e.find t key).2 = .ok found
  writes : ∀ t w, w.key.length ≤ limit → (e.write t w).2 = .ok ()
  commits : ∀ t, (e.commit t).2 = .ok ()

/-- All reads of this state are answered. -/
structure Readable (e : Engine σ τ) (d : σ) : Prop where
  get : ∀ key, ∃ found, e.get d key = .ok found
  keys : ∀ mark, ∃ keys, e.keys d mark = .ok keys

theorem Obliging.writeAll {limit : Nat} (h : e.Obliging limit d) (t : τ) {writes : List Write}
    (hkeys : ∀ w ∈ writes, w.key.length ≤ limit) : (e.writeAll t writes).2 = .ok () := by
  induction writes generalizing t with
  | nil => rfl
  | cons w rest ih =>
      obtain ⟨hfirst, hrest⟩ := List.forall_mem_cons.mp hkeys
      have hwrite := h.writes t w hfirst
      rw [Engine.writeAll]
      rcases hran : e.write t w with ⟨t', cause | ⟨⟩⟩
      · rw [hran] at hwrite
        cases hwrite
      · exact ih t' hrest

/-- Where nothing is refused, a transaction succeeds if its body does. -/
theorem Obliging.update {limit : Nat} (h : e.Obliging limit d)
    (hbody : ∀ t, ∃ a, (body t).2 = .ok a) : ∃ d' a, e.update d body = (d', .ok a) := by
  obtain ⟨t, hstart⟩ := h.starts
  obtain ⟨a, hran⟩ := hbody t
  rcases hresult : body t with ⟨t', result⟩
  rw [hresult] at hran
  have hcommit := h.commits t'
  rcases hend : e.commit t' with ⟨left, outcome⟩
  rw [hend] at hcommit
  refine ⟨left, a, ?_⟩
  simp only at hran hcommit
  rw [Engine.update, hstart]
  simp only [hresult, hran, hend, hcommit]

end Engine

/-! ### The database in memory -/

namespace Database

theorem whileOpen_ok {α : Type} {d : Database} {answer found : α}
    (h : d.whileOpen answer = .ok found) : d.isOpen = true ∧ found = answer := by
  rw [whileOpen] at h
  split at h
  next hopen =>
    cases h
    exact ⟨hopen, rfl⟩
  next => cases h

theorem whileOpen_of_open {α : Type} {d : Database} (h : d.isOpen = true) (answer : α) :
    d.whileOpen answer = .ok answer := by
  rw [whileOpen, if_pos h]

/-- A write to the records changes what they hold as a write to contents does. -/
theorem get?_apply (records : Records) (w : Write) :
    (w.apply records).get? = w.change records.get? := by
  cases w with
  | set key value => exact records.get?_insert key value
  | delete key => exact records.get?_erase key

/-- What a database in memory holds. -/
def contents (d : Database) : Contents := d.records.get?

/-- What a transaction on a database in memory amounts to; its look-ups do not fail. -/
def progress (t : Draft) : Progress := ⟨t.origin.records.get?, t.records.get?, False⟩

/-- The database in memory is a transactional map, and what is packed for it can be unpacked. So the
results over lawful engines are not about nothing. -/
theorem lawful_engine : engine.Lawful contents progress where
  opened_contents := fun _ => rfl
  close_contents := fun _ => rfl
  get_eq := fun _ _ _ h => (whileOpen_ok h).2
  keys_ordered := by
    intro d mark keys h
    rw [(whileOpen_ok h).2]
    exact d.records.pairwise_keysFrom mark
  mem_keys := by
    intro d mark keys h key
    rw [(whileOpen_ok h).2]
    exact Records.mem_keysFrom
  start_ok := by
    intro d t h
    by_cases hopen : d.isOpen = true
    · simp only [engine, whileOpen_of_open hopen] at h
      cases h
      exact ⟨rfl, rfl⟩
    · simp only [engine, whileOpen, if_neg hopen] at h
      cases h
  start_error := by
    intro d d' cause h
    by_cases hopen : d.isOpen = true
    · simp only [engine, whileOpen_of_open hopen] at h
      cases h
    · simp only [engine, whileOpen, if_neg hopen] at h
      cases h
      rfl
  find_base := fun _ _ => rfl
  find_ok := by
    intro t key found h
    exact ⟨(Except.ok.inj h).symm, rfl⟩
  find_error := by
    intro t key cause h
    cases h
  write_base := by
    intro t w
    simp only [engine]
    split <;> rfl
  write_ok := by
    intro t w h
    simp only [engine] at h ⊢
    split at h
    next => cases h
    next hfits =>
      rw [if_neg hfits]
      exact ⟨get?_apply t.records w, Nat.lt_of_le_of_lt (Nat.le_of_not_lt hfits) (by decide)⟩
  write_misread := fun _ _ h => h.elim
  commit_ok := fun _ _ => ⟨rfl, id⟩
  commit_error := by
    intro t cause h
    cases h
  discard_contents := fun _ => rfl
  unpack_pack := by
    intro library hsize
    have hslot : slotSize = 4194304 := rfl
    have hunpack := @Compression.Zstandard.unpack_pack library (by omega)
    simp only [engine, unpack, hunpack]
    rfl

/-- On an open database nothing fails but a write under a key that is too long. -/
theorem obliging_of_open {d : Database} (h : d.isOpen = true) : engine.Obliging maxKey d where
  starts := by
    simp only [engine, whileOpen_of_open h]
    exact ⟨_, rfl⟩
  finds := fun _ _ => ⟨_, rfl⟩
  writes := by
    intro t w hkey
    simp only [engine]
    rw [if_neg (Nat.not_lt.mpr hkey)]
  commits := fun _ => rfl

theorem readable_of_open {d : Database} (h : d.isOpen = true) : engine.Readable d where
  get := fun _ => ⟨_, whileOpen_of_open h _⟩
  keys := fun _ => ⟨_, whileOpen_of_open h _⟩

end Database

end RegisterVM.Library
