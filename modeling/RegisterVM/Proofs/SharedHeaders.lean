import RegisterVM.Proofs.HeaderCache
import RegisterVM.Processor.Trace

/-!
# Shared header caches

Processors that share a cache make their calls on it at the same time. A call for a header is two
atomic sections, the look-up and the insertion, with a read of memory between them, and between any
two of these the others may do what they like: drop the header, drop everything, or keep the same
header first. A session is a cache with the calls of its clients; a schedule says whose turn it is.

`Change` says what one turn can do to the cache, and all that is kept about caches follows from it.
What a client has read stays right while it waits, since the memory does not change. So every answer
is the one that reading memory without a cache gives, whatever the schedule.
-/

namespace RegisterVM.Debug

/-- A call on a cache. -/
inductive CacheCall where
  | header (w : UInt32)
  | resolve (w : UInt32) (pc : Int32)
  | erase (w : UInt32)
  | clear
  deriving DecidableEq, Repr

/-- What a call returns. -/
inductive CacheAnswer where
  | header (h : Header)
  | location (l : Location)
  | done
  deriving DecidableEq, Repr

/-- How far the call of a client is. The cache is used in turns from `idle` and from `loaded`, and
memory in a turn from `missed`. -/
inductive CacheStage where
  /-- It has not started. -/
  | idle
  /-- The header is not kept and has to be read. -/
  | missed
  /-- The header has been read, and is kept next if that was all of it. -/
  | loaded (found : Header × Option TextError)
  deriving DecidableEq

namespace CacheStage

/-- How many turns a call needs at most from here on. -/
def turnsLeft : CacheStage → Nat
  | idle => 3
  | missed => 2
  | loaded _ => 1

theorem turnsLeft_pos (stage : CacheStage) : 0 < stage.turnsLeft := by
  cases stage <;> exact Nat.succ_pos _

/-- What was read on the way is what the memory holds at an address. -/
def Fits (m : Memory) (w : UInt32) (stage : CacheStage) : Prop :=
  ∀ found, stage = loaded found → found = readHeader m w

theorem fits_idle (m : Memory) (w : UInt32) : idle.Fits m w := by
  intro found h
  cases h

theorem fits_missed (m : Memory) (w : UInt32) : missed.Fits m w := by
  intro found h
  cases h

theorem fits_loaded (m : Memory) (w : UInt32) : (loaded (readHeader m w)).Fits m w := by
  intro found h
  cases h
  rfl

end CacheStage

namespace CacheCall

/-- The address a call is about. -/
def address : CacheCall → UInt32
  | header w | resolve w _ | erase w => w
  | clear => 0

/-- What a call returns where no cache is used. This is what answers are compared with. -/
def answer (m : Memory) : CacheCall → CacheAnswer
  | header w => .header (readHeader m w).1
  | resolve w pc => .location (Debug.resolve m w pc)
  | erase _ | clear => .done

/-- A call that nobody interrupts. -/
def perform (m : Memory) (c : HeaderCache) : CacheCall → CacheAnswer × HeaderCache
  | header w => ((.header (c.header m w).1), (c.header m w).2)
  | resolve w pc => ((.location (c.resolve m w pc).1), (c.resolve m w pc).2)
  | erase w => (.done, c.erase w)
  | clear => (.done, c.clear)

/-- One turn on the way to a header: the look-up, the read of memory, or the insertion. -/
def fetchTurn (m : Memory) (c : HeaderCache) (w : UInt32) :
    CacheStage → HeaderCache × (CacheStage ⊕ Header)
  | .idle => (c, (c.find? w).elim (.inl .missed) .inr)
  | .missed => (c, .inl (.loaded (readHeader m w)))
  | .loaded found => (c.keep w found, .inr found.1)

/-- One turn of a call: the cache after it, and the next stage or the answer. -/
def turn (m : Memory) (c : HeaderCache) (stage : CacheStage) :
    CacheCall → HeaderCache × (CacheStage ⊕ CacheAnswer)
  | header w =>
      let (c, progress) := fetchTurn m c w stage
      (c, progress.map id .header)
  | resolve w pc =>
      if w = 0 then (c, .inr (.location {}))
      else
        let (c, progress) := fetchTurn m c w stage
        (c, progress.map id fun h => .location (h.resolve m w pc))
  | erase w => (c.erase w, .inr .done)
  | clear => (c.clear, .inr .done)

end CacheCall

/-! ### What a turn does to the cache -/

namespace HeaderCache

/-- All that one turn may do to a cache over a memory. Whatever is kept was read from that memory,
be it by this turn or by an earlier one. -/
inductive Change (m : Memory) (c : HeaderCache) : HeaderCache → Prop where
  | nothing : Change m c c
  | keep (w : UInt32) : Change m c (c.keep w (readHeader m w))
  | erase (w : UInt32) : Change m c (c.erase w)
  | clear : Change m c c.clear

namespace Change

variable {m : Memory} {c c' : HeaderCache}

theorem capacity_eq (h : Change m c c') : c'.capacity = c.capacity := by
  cases h with
  | nothing => rfl
  | keep w =>
      rcases hread : readHeader m w with ⟨found, _ | reason⟩
      · exact capacity_insert c w found
      · rfl
  | erase w => exact capacity_erase c w
  | clear => rfl

/-- No turn makes a cache incoherent. -/
theorem coherent (h : Change m c c') (hc : c.Coherent m) (hpos : 0 < c.capacity) :
    c'.Coherent m := by
  cases h with
  | nothing => exact hc
  | keep w => exact hc.keep hpos w
  | erase w => exact hc.erase w
  | clear => exact Coherent.clear m c

/-- Every turn keeps the order of age, with its newcomers added to the history. -/
theorem byAge (h : Change m c c') (hc : c.Coherent m) (hpos : 0 < c.capacity)
    {entered : List UInt32} (hage : c.ByAge entered) : c'.ByAge (entered ++ newcomers c c') := by
  have hsame : c.ByAge (entered ++ newcomers c c) := by
    rwa [hc.newcomers_eq_nil (List.Subset.refl _), List.append_nil]
  cases h with
  | nothing => exact hsame
  | keep w =>
      rcases hread : readHeader m w with ⟨found, _ | reason⟩
      · exact hage.insert hc hpos w found
      · exact hsame
  | erase w =>
      have hfewer : (c.erase w).order ⊆ c.order := by
        rw [hc.order_erase]
        exact List.filter_subset_self _
      rw [hc.newcomers_eq_nil hfewer, List.append_nil]
      exact hage.erase hc w
  | clear =>
      rw [hc.newcomers_eq_nil (List.nil_subset _), List.append_nil]
      exact ByAge.clear

end Change

/-! ### Using a coherent cache -/

namespace Coherent

variable {m : Memory} {c : HeaderCache}

/-- A coherent cache gives the header that memory gives, kept or not. -/
theorem header_eq (hc : c.Coherent m) (w : UInt32) : (c.header m w).1 = (readHeader m w).1 := by
  rw [header]
  split
  next h hkept => rw [hc.complete w h hkept]
  next => rfl

theorem change_header (c : HeaderCache) (m : Memory) (w : UInt32) :
    Change m c (c.header m w).2 := by
  rw [header]
  split
  · exact .nothing
  · exact .keep w

/-- Resolving through a coherent cache is resolving without one. -/
theorem resolve_eq (hc : c.Coherent m) (w : UInt32) (pc : Int32) :
    (c.resolve m w pc).1 = Debug.resolve m w pc := by
  rw [HeaderCache.resolve, Debug.resolve]
  split
  · rfl
  · show (c.header m w).1.resolve m w pc = _
    rw [hc.header_eq]

theorem change_resolve (c : HeaderCache) (m : Memory) (w : UInt32) (pc : Int32) :
    Change m c (c.resolve m w pc).2 := by
  rw [HeaderCache.resolve]
  split
  · exact .nothing
  · exact change_header c m w

end Coherent

end HeaderCache

/-! ### One turn of a call -/

/-- What a turn for an address gives: to the cache it does only what `Change` says; a call that goes
on is nearer to its end and has read what there is to read; one that ends has the right result. -/
structure TurnSpec {α : Type} (m : Memory) (c : HeaderCache) (w : UInt32) (stage : CacheStage)
    (result : HeaderCache × (CacheStage ⊕ α)) (expected : α) : Prop where
  change : HeaderCache.Change m c result.1
  goes_on : ∀ next, result.2 = .inl next → next.Fits m w ∧ next.turnsLeft < stage.turnsLeft
  ends : ∀ a, result.2 = .inr a → a = expected

namespace TurnSpec

variable {α β : Type} {m : Memory} {c : HeaderCache} {w : UInt32} {stage : CacheStage}

theorem of_answer {c' : HeaderCache} (h : HeaderCache.Change m c c') (a : α) :
    TurnSpec m c w stage (c', .inr a) a where
  change := h
  goes_on := by
    intro next hnext
    cases hnext
  ends := by
    intro b hb
    cases hb
    rfl

theorem of_stage {next : CacheStage} (hfits : next.Fits m w)
    (hless : next.turnsLeft < stage.turnsLeft) (expected : α) :
    TurnSpec m c w stage (c, .inl next) expected where
  change := .nothing
  goes_on := by
    intro later hlater
    cases hlater
    exact ⟨hfits, hless⟩
  ends := by
    intro a ha
    cases ha

/-- Working on the result changes nothing else. -/
theorem map {result : HeaderCache × (CacheStage ⊕ α)} {expected : α}
    (h : TurnSpec m c w stage result expected) (f : α → β) :
    TurnSpec m c w stage (result.1, result.2.map id f) (f expected) := by
  obtain ⟨c', next | a⟩ := result
  · obtain ⟨hfits, hless⟩ := h.goes_on next rfl
    refine ⟨h.change, ?_, ?_⟩
    · intro later hlater
      cases hlater
      exact ⟨hfits, hless⟩
    · intro b hb
      cases hb
  · rw [← h.ends a rfl]
    exact of_answer h.change (f a)

end TurnSpec

namespace CacheCall

variable {m : Memory} {c : HeaderCache} {stage : CacheStage}

/-- A turn on the way to a header meets the specification, from whichever stage it starts. That the
cache is coherent is needed only for the look-up. -/
theorem fetchTurn_spec (hc : c.Coherent m) {w : UInt32} (hstage : stage.Fits m w) :
    TurnSpec m c w stage (fetchTurn m c w stage) (readHeader m w).1 := by
  cases stage with
  | idle =>
      rcases hkept : c.find? w with _ | kept
      · rw [fetchTurn, hkept]
        exact .of_stage (CacheStage.fits_missed m w) (by decide) _
      · rw [fetchTurn, hkept, hc.complete w kept hkept]
        exact .of_answer .nothing kept
  | missed =>
      rw [fetchTurn]
      have hless : (CacheStage.loaded (readHeader m w)).turnsLeft < CacheStage.missed.turnsLeft :=
        Nat.lt_succ_self 1
      exact .of_stage (CacheStage.fits_loaded m w) hless _
  | loaded found =>
      -- Others may have kept or dropped the header since it was read: keeping it is right in any
      -- case.
      have hfound : found = readHeader m w := hstage found rfl
      subst hfound
      exact .of_answer (.keep w) _

/-- A turn of any call meets it. -/
theorem turn_spec (hc : c.Coherent m) {call : CacheCall} (hstage : stage.Fits m call.address) :
    TurnSpec m c call.address stage (call.turn m c stage) (call.answer m) := by
  cases call with
  | header w => exact (fetchTurn_spec hc hstage).map CacheAnswer.header
  | resolve w pc =>
      rw [turn, answer, Debug.resolve]
      split
      · exact .of_answer .nothing _
      · exact (fetchTurn_spec hc hstage).map fun h => CacheAnswer.location (h.resolve m w pc)
  | erase w => exact .of_answer (.erase w) _
  | clear => exact .of_answer .clear _

/-- The turns of a call on a cache that only this call uses: one that ends it, or a look-up that
finds nothing, the read and the insertion. -/
theorem turn_alone (m : Memory) (c : HeaderCache) (call : CacheCall) :
    call.turn m c .idle = ((call.perform m c).2, .inr (call.perform m c).1) ∨
      call.turn m c .idle = (c, .inl .missed) ∧
      ∃ found, call.turn m c .missed = (c, .inl (.loaded found)) ∧
        call.turn m c (.loaded found) = ((call.perform m c).2, .inr (call.perform m c).1) := by
  cases call with
  | header w =>
      rcases hkept : c.find? w with _ | kept
      · refine .inr ⟨?_, readHeader m w, rfl, ?_⟩
        · simp [turn, fetchTurn, hkept]
        · simp [turn, fetchTurn, perform, HeaderCache.header, hkept]
      · refine .inl ?_
        simp [turn, fetchTurn, perform, HeaderCache.header, hkept]
  | resolve w pc =>
      by_cases hw : w = 0
      · refine .inl ?_
        simp [turn, perform, HeaderCache.resolve, hw]
      · rcases hkept : c.find? w with _ | kept
        · refine .inr ⟨?_, readHeader m w, ?_, ?_⟩
          · simp [turn, fetchTurn, hw, hkept]
          · simp [turn, fetchTurn, hw]
          · simp [turn, fetchTurn, perform, HeaderCache.resolve, HeaderCache.header, hw, hkept]
        · refine .inl ?_
          simp [turn, fetchTurn, perform, HeaderCache.resolve, HeaderCache.header, hw, hkept]
  | erase w => exact .inl rfl
  | clear => exact .inl rfl

end CacheCall

/-! ### Clients -/

/-- A client of a cache: the calls it has still to make, with the one it is at first. -/
structure CacheClient where
  pending : List CacheCall
  stage : CacheStage := .idle
  answers : List CacheAnswer := []
  deriving DecidableEq

namespace CacheClient

/-- One turn of a client, and what it does to the cache. -/
def advance (m : Memory) (c : HeaderCache) (k : CacheClient) : HeaderCache × CacheClient :=
  match k.pending with
  | [] => (c, k)
  | call :: rest =>
      match call.turn m c k.stage with
      | (c, .inl stage) => (c, { k with stage })
      | (c, .inr a) => (c, { pending := rest, answers := k.answers ++ [a] })

section

variable {m : Memory} {c c' : HeaderCache} {k : CacheClient} {call : CacheCall}
    {rest : List CacheCall}

theorem advance_of_done (h : k.pending = []) : k.advance m c = (c, k) := by
  rw [advance, h]

theorem advance_of_stage (h : k.pending = call :: rest) {next : CacheStage}
    (hturn : call.turn m c k.stage = (c', .inl next)) :
    k.advance m c = (c', { k with stage := next }) := by
  simp only [advance, h, hturn]

theorem advance_of_answer (h : k.pending = call :: rest) {a : CacheAnswer}
    (hturn : call.turn m c k.stage = (c', .inr a)) :
    k.advance m c = (c', ⟨rest, .idle, k.answers ++ [a]⟩) := by
  simp only [advance, h, hturn]

end

/-- How many turns a client needs at most to make all its calls. -/
def turnsLeft (k : CacheClient) : Nat :=
  match k.pending with
  | [] => 0
  | _ :: rest => 3 * rest.length + k.stage.turnsLeft

/-- A client has got the right answers to those calls of its program that it has made, and what it
has read for the one it is at is still right. -/
structure Follows (m : Memory) (program : List CacheCall) (k : CacheClient) : Prop where
  answered : ∃ made, program = made ++ k.pending ∧ k.answers = made.map (·.answer m)
  fits : ∀ call ∈ k.pending.head?, k.stage.Fits m call.address

theorem follows_start (m : Memory) (program : List CacheCall) :
    Follows m program ⟨program, .idle, []⟩ where
  answered := ⟨[], rfl, rfl⟩
  fits := fun call _ => CacheStage.fits_idle m call.address

theorem turnsLeft_of_pending {k : CacheClient} {call : CacheCall} {rest : List CacheCall}
    (h : k.pending = call :: rest) : k.turnsLeft = 3 * rest.length + k.stage.turnsLeft := by
  rw [turnsLeft, h]

theorem turnsLeft_idle (pending : List CacheCall) (answers : List CacheAnswer) :
    turnsLeft ⟨pending, .idle, answers⟩ = 3 * pending.length := by
  cases pending with
  | nil => rfl
  | cons call rest => rfl

namespace Follows

variable {m : Memory} {program : List CacheCall} {c : HeaderCache} {k : CacheClient}

/-- Step lemma: a turn leaves the answers right, changes the cache only as a turn may, and brings
the client nearer to its end. -/
theorem advance (hc : c.Coherent m) (h : Follows m program k) :
    Follows m program (k.advance m c).2 ∧ HeaderCache.Change m c (k.advance m c).1 ∧
      (k.advance m c).2.turnsLeft ≤ k.turnsLeft - 1 := by
  obtain ⟨made, hprogram, hanswers⟩ := h.answered
  rcases hpending : k.pending with _ | ⟨call, rest⟩
  · rw [advance_of_done hpending, turnsLeft, hpending]
    exact ⟨h, .nothing, Nat.zero_le _⟩
  · have hturn := CacheCall.turn_spec hc (h.fits call (by rw [hpending]; rfl))
    have hleft := turnsLeft_of_pending hpending
    rcases hresult : call.turn m c k.stage with ⟨c', next | a⟩
    · -- The call goes on: nothing is answered, and the stage is one further.
      rw [hresult] at hturn
      rw [advance_of_stage hpending hresult]
      obtain ⟨hnext, hless⟩ := hturn.goes_on next rfl
      refine ⟨⟨⟨made, hprogram, hanswers⟩, ?_⟩, hturn.change, ?_⟩
      · intro same hsame
        have hcall : call = same := by simpa [hpending] using hsame
        exact hcall ▸ hnext
      · show turnsLeft { k with stage := next } ≤ k.turnsLeft - 1
        have hnew : turnsLeft { k with stage := next } = 3 * rest.length + next.turnsLeft :=
          turnsLeft_of_pending hpending
        omega
    · -- The call ends: its answer is the right one, and the next call starts from the beginning.
      rw [hresult] at hturn
      rw [advance_of_answer hpending hresult]
      refine ⟨⟨⟨made ++ [call], ?_, ?_⟩, ?_⟩, hturn.change, ?_⟩
      · rw [hprogram, hpending, List.append_assoc]
        rfl
      · rw [List.map_append, ← hanswers, hturn.ends a rfl]
        rfl
      · exact fun later _ => CacheStage.fits_idle m later.address
      · show turnsLeft ⟨rest, .idle, k.answers ++ [a]⟩ ≤ k.turnsLeft - 1
        rw [turnsLeft_idle]
        have hpos := k.stage.turnsLeft_pos
        omega

/-- The answers of a client are those of the calls at the front of its program, as many as it has
got. -/
theorem answers_eq (h : Follows m program k) :
    k.answers = (program.take k.answers.length).map (·.answer m) := by
  obtain ⟨made, hprogram, hanswers⟩ := h.answered
  rw [hprogram, hanswers, List.length_map, List.take_left]

/-- A client with no turn left has the answers to all of its program. -/
theorem answers_of_turnsLeft (h : Follows m program k) (hleft : k.turnsLeft = 0) :
    k.answers = program.map (·.answer m) := by
  obtain ⟨made, hprogram, hanswers⟩ := h.answered
  have hpending : k.pending = [] := by
    rcases hpending : k.pending with _ | ⟨call, rest⟩
    · rfl
    · rw [turnsLeft_of_pending hpending] at hleft
      have hpos := k.stage.turnsLeft_pos
      omega
  rw [hanswers, hprogram, hpending, List.append_nil]

end Follows

end CacheClient

/-! ### Sessions -/

/-- A cache and those who use it. -/
structure CacheSession where
  cache : HeaderCache
  clients : List CacheClient

namespace CacheSession

open HeaderCache (newcomers)

/-- An empty cache, and clients that are about to make the calls of their programs. -/
def start (capacity : Int) (programs : List (List CacheCall)) : CacheSession where
  cache := .empty capacity
  clients := programs.map fun program => { pending := program }

/-- Lets a client take a turn. Where there is none of that number nothing happens. -/
def advance (m : Memory) (s : CacheSession) (i : Nat) : CacheSession :=
  match s.clients[i]? with
  | none => s
  | some k => ⟨(k.advance m s.cache).1, s.clients.set i (k.advance m s.cache).2⟩

/-- Lets the clients take turns in the order of a schedule. -/
def follow (m : Memory) (s : CacheSession) (schedule : List Nat) : CacheSession :=
  schedule.foldl (advance m) s

/-- The addresses that come into the cache along a schedule, in order. One that has left may come in
again. -/
def entrances (m : Memory) (s : CacheSession) : List Nat → List UInt32
  | [] => []
  | i :: rest => newcomers s.cache (s.advance m i).cache ++ (s.advance m i).entrances m rest

theorem advance_of_none {m : Memory} {s : CacheSession} {i : Nat} (h : s.clients[i]? = none) :
    s.advance m i = s := by
  rw [advance, h]

theorem advance_of_some {m : Memory} {s : CacheSession} {i : Nat} {k : CacheClient}
    (h : s.clients[i]? = some k) :
    s.advance m i = ⟨(k.advance m s.cache).1, s.clients.set i (k.advance m s.cache).2⟩ := by
  rw [advance, h]

/-- What holds of a session all the time: the cache is coherent, in order of age, and as large as it
was made, and the clients have got the right answers. The programs come with the turns taken. -/
structure Sound (m : Memory) (capacity : Nat) (programs : List (List CacheCall))
    (entered : List UInt32) (turns : Nat → Nat) (s : CacheSession) : Prop where
  coherent : s.cache.Coherent m
  capacity_eq : s.cache.capacity = capacity
  byAge : s.cache.ByAge entered
  clients : ∀ i program, programs[i]? = some program → ∃ k, s.clients[i]? = some k ∧
    k.Follows m program ∧ k.turnsLeft ≤ 3 * program.length - turns i
  no_others : s.clients.length = programs.length

theorem sound_start (m : Memory) (capacity : Int) (programs : List (List CacheCall)) :
    Sound m (HeaderCache.empty capacity).capacity programs [] (fun _ => 0)
        (start capacity programs) where
  coherent := .empty m capacity
  capacity_eq := rfl
  byAge := rfl
  clients := by
    intro i program hprogram
    refine ⟨⟨program, .idle, []⟩, ?_, CacheClient.follows_start m program, ?_⟩
    · show (programs.map _)[i]? = _
      rw [List.getElem?_map, hprogram]
      rfl
    · exact (CacheClient.turnsLeft_idle program []).le
  no_others := List.length_map ..

/-- Step lemma: whoever takes a turn, the session stays sound. The client that moves meets its
specification, and the others do not depend on what the cache holds. -/
theorem Sound.advance {m : Memory} {capacity : Nat} {programs : List (List CacheCall)}
    {entered : List UInt32} {turns : Nat → Nat} {s : CacheSession} (hpos : 0 < capacity)
    (h : s.Sound m capacity programs entered turns) (i : Nat) :
    (s.advance m i).Sound m capacity programs (entered ++ newcomers s.cache (s.advance m i).cache)
      fun j => turns j + if j = i then 1 else 0 := by
  rcases hclient : s.clients[i]? with _ | k
  · -- There is no such client, and no program of that number either.
    rw [advance_of_none hclient, h.coherent.newcomers_eq_nil (List.Subset.refl _), List.append_nil]
    refine { h with clients := ?_ }
    intro j program hprogram
    obtain ⟨k, hk, hfollows, hleft⟩ := h.clients j program hprogram
    have hj : j ≠ i := by
      rintro rfl
      rw [hclient] at hk
      cases hk
    rw [if_neg hj]
    exact ⟨k, hk, hfollows, hleft⟩
  · obtain ⟨hlt, -⟩ := List.getElem?_eq_some_iff.mp hclient
    obtain ⟨program, hprogram⟩ : ∃ program, programs[i]? = some program :=
      ⟨_, List.getElem?_eq_getElem (h.no_others ▸ hlt)⟩
    obtain ⟨k', hk', hfollows, hleft⟩ := h.clients i program hprogram
    obtain rfl : k = k' := Option.some.inj (hclient.symm.trans hk')
    obtain ⟨hfollows', hchange, hless⟩ := hfollows.advance h.coherent
    have hroom : 0 < s.cache.capacity := h.capacity_eq ▸ hpos
    rw [advance_of_some hclient]
    refine ⟨hchange.coherent h.coherent hroom, hchange.capacity_eq.trans h.capacity_eq,
      hchange.byAge h.coherent hroom h.byAge, ?_, ?_⟩
    · intro j other hother
      by_cases hj : j = i
      · subst hj
        obtain rfl : program = other := Option.some.inj (hprogram.symm.trans hother)
        refine ⟨_, List.getElem?_set_self hlt, hfollows', ?_⟩
        rw [if_pos rfl]
        omega
      · obtain ⟨k', hk', hfollows', hleft'⟩ := h.clients j other hother
        refine ⟨k', ?_, hfollows', ?_⟩
        · rw [List.getElem?_set_ne (Ne.symm hj), hk']
        · rwa [if_neg hj]
    · rw [List.length_set, h.no_others]

/-- Run lemma: a sound session stays sound along every schedule. The induction is on the schedule,
with history and turns added up. -/
theorem Sound.follow {m : Memory} {capacity : Nat} {programs : List (List CacheCall)}
    (hpos : 0 < capacity) (schedule : List Nat) {entered : List UInt32} {turns : Nat → Nat}
    {s : CacheSession} (h : s.Sound m capacity programs entered turns) :
    (s.follow m schedule).Sound m capacity programs (entered ++ s.entrances m schedule)
      fun j => turns j + schedule.count j := by
  induction schedule generalizing s entered turns with
  | nil =>
      rw [entrances, List.append_nil]
      exact h
  | cons i rest ih =>
      have hnext := ih (h.advance hpos i)
      rw [List.append_assoc] at hnext
      have hturns : (fun j => turns j + (i :: rest).count j) =
          fun j => (turns j + if j = i then 1 else 0) + rest.count j := by
        funext j
        rw [List.count_cons]
        by_cases hj : j = i
        · simp [hj]
          omega
        · simp [hj, Ne.symm hj]
      rw [hturns]
      exact hnext

/-- Where nobody else takes a turn, the turns of a call are the operation of the cache. -/
theorem follow_uninterrupted {m : Memory} {s : CacheSession} {i : Nat} {call : CacheCall}
    {rest : List CacheCall} {answers : List CacheAnswer}
    (h : s.clients[i]? = some ⟨call :: rest, .idle, answers⟩) :
    ∃ n ≤ 3, s.follow m (List.replicate n i) =
      ⟨(call.perform m s.cache).2,
        s.clients.set i ⟨rest, .idle, answers ++ [(call.perform m s.cache).1]⟩⟩ := by
  obtain ⟨hlt, -⟩ := List.getElem?_eq_some_iff.mp h
  rcases call.turn_alone m s.cache with hfirst | ⟨hfirst, found, hsecond, hthird⟩
  · refine ⟨1, by decide, ?_⟩
    show s.advance m i = _
    rw [advance_of_some h, CacheClient.advance_of_answer rfl hfirst]
  · -- The look-up and the read leave the cache alone, so the insertion meets the one the call
    -- began with.
    refine ⟨3, le_refl 3, ?_⟩
    have hlooked : s.advance m i = ⟨s.cache, s.clients.set i ⟨call :: rest, .missed, answers⟩⟩ := by
      rw [advance_of_some h, CacheClient.advance_of_stage rfl hfirst]
    have hread : (s.advance m i).advance m i =
        ⟨s.cache, s.clients.set i ⟨call :: rest, .loaded found, answers⟩⟩ := by
      rw [hlooked, advance_of_some (List.getElem?_set_self hlt),
        CacheClient.advance_of_stage rfl hsecond, List.set_set]
    show ((s.advance m i).advance m i).advance m i = _
    rw [hread, advance_of_some (List.getElem?_set_self hlt),
      CacheClient.advance_of_answer rfl hthird, List.set_set]

end CacheSession

end RegisterVM.Debug

namespace RegisterVM

open Debug

/-! ### Traces -/

/-- The trace of a processor where no cache is used. -/
def Processor.uncachedTrace (p : Processor) (m : Memory) : List TraceElement :=
  p.frames.map fun f => f.element (Debug.resolve m f.whereIs f.relativePc)

/-- The calls that a processor makes for its trace. -/
def Processor.traceCalls (p : Processor) : List CacheCall :=
  p.frames.map fun f => .resolve f.whereIs f.relativePc

/-- The element of a frame from the answer to its call. -/
def Frame.elementOf (f : Frame) : CacheAnswer → TraceElement
  | .location l => f.element l
  | _ => f.element {}

/-- A trace through a coherent cache is the trace without one, although each frame may change the
cache for the next. -/
theorem Debug.HeaderCache.Coherent.traceFrames_eq {m : Memory} {c : HeaderCache} (hc : c.Coherent m)
    (hpos : 0 < c.capacity) (frames : List Frame) :
    (traceFrames m frames c).1 =
      frames.map fun f => f.element (Debug.resolve m f.whereIs f.relativePc) := by
  induction frames generalizing c with
  | nil => rfl
  | cons f rest ih =>
      have hchange := change_resolve c m f.whereIs f.relativePc
      have hrest := ih (hchange.coherent hc hpos) (hchange.capacity_eq ▸ hpos)
      rw [List.map_cons, ← hrest, ← hc.resolve_eq]
      rfl

theorem Processor.zipWith_traceCalls (p : Processor) (m : Memory) :
    List.zipWith Frame.elementOf p.frames (p.traceCalls.map (·.answer m)) = p.uncachedTrace m := by
  rw [traceCalls, List.map_map, List.zipWith_map_right, List.zipWith_self]
  rfl

namespace Debug.CacheSession

theorem capacity_empty_pos (capacity : Int) : 0 < (HeaderCache.empty capacity).capacity := by
  show 0 < if capacity ≤ 0 then HeaderCache.defaultCapacity else capacity.toNat
  split
  · decide
  · omega

/-- A session in which the cache is bounded and in order, and is not seen in any answer. -/
structure Transparent (m : Memory) (capacity : Int) (programs : List (List CacheCall))
    (schedule : List Nat) (s : CacheSession) : Prop where
  coherent : s.cache.Coherent m
  capacity_eq : s.cache.capacity = if capacity ≤ 0 then 256 else capacity.toNat
  /-- The oldest of the cache is the one that came in first of those that are still kept. -/
  byAge : s.cache.ByAge ((start capacity programs).entrances m schedule)
  dropsOldest : ∀ w h, s.cache.DropsOldest w h
  failed : ∀ w, (readHeader m w).2.isSome = true → s.cache.find? w = none
  /-- Every client has the right answers to the calls it has made, and every call returns: three
  turns are enough for it, whatever the others do meanwhile. -/
  answers : ∀ i program, programs[i]? = some program → ∃ k, s.clients[i]? = some k ∧
    k.answers = (program.take k.answers.length).map (·.answer m) ∧
    (3 * program.length ≤ schedule.count i → k.answers = program.map (·.answer m))
  /-- A client that nobody interrupts performs the operation of the cache. -/
  uninterrupted : ∀ (i : Nat) (call : CacheCall) (rest : List CacheCall)
    (answers : List CacheAnswer),
    s.clients[i]? = some ⟨call :: rest, .idle, answers⟩ →
      ∃ n ≤ 3, s.follow m (List.replicate n i) =
        ⟨(call.perform m s.cache).2,
          s.clients.set i ⟨rest, .idle, answers ++ [(call.perform m s.cache).1]⟩⟩
  header_eq : ∀ w, (s.cache.header m w).1 = (readHeader m w).1
  resolve_eq : ∀ w pc, (s.cache.resolve m w pc).1 = Debug.resolve m w pc
  trace_eq : ∀ p : Processor, (p.trace m s.cache).1 = p.uncachedTrace m
  /-- The same holds of a trace whose calls are interrupted by other clients. -/
  interrupted_trace_eq : ∀ (i : Nat) (p : Processor), programs[i]? = some p.traceCalls →
    3 * p.frames.length ≤ schedule.count i → ∃ k, s.clients[i]? = some k ∧
      List.zipWith Frame.elementOf p.frames k.answers = p.uncachedTrace m

/-- However the turns of its clients interleave, a shared cache is bounded, coherent and in order of
age, makes room by dropping its oldest header, and is not seen in any answer or trace.

The proof rests on what one turn may do (`Change`): each change keeps the cache coherent and in
order, and a coherent cache answers as memory does. That memory stays the same throughout is what
lets a client keep what it has read. -/
theorem shared_cache_transparent (m : Memory) (capacity : Int) (programs : List (List CacheCall))
    (schedule : List Nat) :
    Transparent m capacity programs schedule ((start capacity programs).follow m schedule) := by
  have hpos := capacity_empty_pos capacity
  have hsound := (sound_start m capacity programs).follow hpos schedule
  have hroom := hsound.capacity_eq ▸ hpos
  have hanswers : ∀ i program, programs[i]? = some program →
      ∃ k, ((start capacity programs).follow m schedule).clients[i]? = some k ∧
        k.answers = (program.take k.answers.length).map (·.answer m) ∧
        (3 * program.length ≤ schedule.count i → k.answers = program.map (·.answer m)) := by
    intro i program hprogram
    obtain ⟨k, hk, hfollows, hleft⟩ := hsound.clients i program hprogram
    refine ⟨k, hk, hfollows.answers_eq, ?_⟩
    intro henough
    exact hfollows.answers_of_turnsLeft (by omega)
  exact {
    coherent := hsound.coherent
    capacity_eq := hsound.capacity_eq
    byAge := hsound.byAge
    dropsOldest := hsound.coherent.dropsOldest hroom
    failed := fun w => hsound.coherent.find?_of_failure
    answers := hanswers
    uninterrupted := fun _ _ _ _ => follow_uninterrupted
    header_eq := hsound.coherent.header_eq
    resolve_eq := hsound.coherent.resolve_eq
    trace_eq := fun p => hsound.coherent.traceFrames_eq hroom p.frames
    interrupted_trace_eq := by
      intro i p hprogram henough
      obtain ⟨k, hk, -, hall⟩ := hanswers i p.traceCalls hprogram
      have hlength : p.traceCalls.length = p.frames.length := List.length_map ..
      refine ⟨k, hk, ?_⟩
      rw [hall (by omega), p.zipWith_traceCalls] }

/-- Memory in which every address up to some point has a header without names and tables. -/
def blankHeaders : Memory := .region (.ofBytes "code" 0 (List.replicate 32 0) ⟨true, false⟩)

/-- Three clients of a cache with room for one header. The first two miss the same header at the
same time and both keep it; the third takes its place and drops everything before the others are
done. -/
theorem shared_cache_transparent_racing :
    let programs :=
      [[.header 4, .resolve 8 1], [.resolve 4 0, .erase 4], [.header 6, .header 40, .clear]]
    let schedule := [0, 1, 0, 1, 1, 0, 2, 2, 2, 1, 0, 2, 2, 0, 2, 2, 0, 1, 1, 1, 2, 2, 2]
    let s := (start 1 programs).follow blankHeaders schedule
    (readHeader blankHeaders 40).2.isSome = true ∧ s.cache.find? 40 = none ∧
      (start 1 programs).entrances blankHeaders schedule = [4, 6, 8] ∧
      ∃ k, s.clients[1]? = some k ∧
        k.answers = [.location (Debug.resolve blankHeaders 4 0), .done] := by
  intro programs schedule s
  have htransparent := shared_cache_transparent blankHeaders 1 programs schedule
  have hfailed : (readHeader blankHeaders 40).2.isSome = true := by decide +kernel
  obtain ⟨k, hk, -, hall⟩ := htransparent.answers 1 _ rfl
  refine ⟨hfailed, htransparent.failed 40 hfailed, by decide +kernel, k, hk, ?_⟩
  exact hall (by decide)

end Debug.CacheSession

end RegisterVM
