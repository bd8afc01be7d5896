import RegisterVM.Proofs.EventCounts
import RegisterVM.Proofs.FirstFailure

/-!
# The accounts of events

Processors that share a set of metrics are started, take steps, end their runs and record them, in
any order. What an instrument shows is the sum of what all of them have contributed (`Balanced`),
whatever happens; once no run is in progress nothing is left to record, and the instruments show
what the processors have counted.

The runs of a processor by itself and those of a machine are such histories (`Processor.Runs`).
-/

namespace RegisterVM

/-! ### Runs of a processor -/

/-- What a run makes of a processor, and how it has ended, once it has. Every step is taken in a
memory of its own, since others may write to it in between. -/
inductive Processor.Runs (p : Processor) : Processor → Option Ending → Prop where
  | start : Runs p p none
  | step {q : Processor} (memory : Memory) (h : Runs p q none)
    (hstep : (q.step memory).2.2 = none) :
      Runs p (q.step memory).1 none
  | fault {q : Processor} {fault : Fault} (memory : Memory) (h : Runs p q none)
      (hstep : (q.step memory).2.2 = some fault) : Runs p (q.step memory).1 (some (.fault fault))
  | leave {q : Processor} (reason : Option StopReason) (h : Runs p q none) :
      Runs p q (some (reason.elim .finished .stopped))

namespace Processor.Runs

variable {σ : Type} {observer : Observer σ} {floor : Nat} {p : Processor}

/-- A turn takes a run one step further or ends it. -/
theorem turn {s : Session σ} (h : p.Runs s.processor none) (observer : Observer σ) (floor : Nat) :
    p.Runs (s.turn observer floor).1.processor (s.turn observer floor).2 := by
  rcases Nat.lt_or_ge floor s.processor.depth with hdepth | hdepth
  · rcases Session.turn_inv observer hdepth with
      ⟨reason, hturn⟩ | ⟨after, fault, hturn, hstep⟩ | ⟨after, hturn, hstep⟩
    · rw [hturn]
      exact .leave (some reason) h
    · rw [hturn]
      have hfault : p.Runs _ (some (.fault fault)) := .fault s.memory h (by rw [hstep])
      rwa [hstep] at hfault
    · rw [hturn]
      have hnext := Runs.step s.memory h (by rw [hstep])
      rwa [hstep] at hnext
  · rw [Session.turn_of_le observer floor hdepth]
    exact .leave none h

/-- A session that has ended was a run of its processor. -/
theorem session {s final : Session σ} {ending : Ending} {fuel : Nat} (h : p.Runs s.processor none)
    (hrun : s.run observer floor fuel = (final, ending)) (hended : ending ≠ .running) :
    p.Runs final.processor (some ending) := by
  induction fuel generalizing s with
  | zero =>
      cases hrun
      exact absurd rfl hended
  | succ fuel ih =>
      have hturn := h.turn observer floor
      cases hnext : s.turn observer floor with
      | mk after result =>
          rw [hnext] at hturn
          cases result with
          | none =>
              rw [Session.run_of_turn hnext] at hrun
              exact ih hturn hrun
          | some other =>
              rw [Session.run, hnext] at hrun
              cases hrun
              exact hturn

end Processor.Runs

namespace Machine.Round

variable {σ : Type} {r : Round σ} {before : Array Processor}

/-- A run of a machine is one of every processor, as far as its lane has come. -/
structure Runs (before : Array Processor) (r : Round σ) : Prop where
  size : r.machine.processors.size = before.size
  lanes : r.lanes.size = before.size
  runs : ∀ (i : Nat) (p : Processor) (lane : Lane),
    r.machine.processors[i]? = some p → r.lanes[i]? = some lane →
      ∃ first, before[i]? = some first ∧ first.Runs p lane.ending

theorem runs_start (m : Machine) (observed : σ) : Runs m.processors (m.start observed) where
  size := rfl
  lanes := Array.size_map
  runs := by
    intro i p lane hp hlane
    obtain ⟨_, -, rfl⟩ : ∃ p, m.processors[i]? = some p ∧ ({} : Lane) = lane := by
      simpa [Machine.start] using hlane
    exact ⟨p, hp, .start⟩

/-- Step lemma: a turn takes the run of one processor further. The others see memory change, which
their runs allow. -/
theorem Runs.turn (h : Runs before r) (observer : Observer σ) (i : Nat) :
    Runs before (r.turn observer i) := by
  by_cases hlane : ∃ patience, r.lanes[i]? = some ⟨patience, none⟩
  · obtain ⟨patience, hlane⟩ := hlane
    have hi : i < r.machine.processors.size := by
      rw [h.size, ← h.lanes]
      exact (Array.getElem?_eq_some_iff.mp hlane).1
    have hp := Array.getElem?_eq_getElem hi
    obtain ⟨first, hfirst, hruns⟩ := h.runs i _ _ hp hlane
    generalize r.machine.processors[i] = p at hp hruns
    let session : Session σ := ⟨p, r.machine.memory, r.observed, patience⟩
    have hturn :=
      Processor.Runs.turn (s := session) hruns (laneObserver observer r.failure.isSome) 0
    obtain ⟨after, ending, hsession⟩ : ∃ after ending,
        session.turn (laneObserver observer r.failure.isSome) 0 = (after, ending) := ⟨_, _, rfl⟩
    rw [hsession] at hturn
    obtain ⟨hlanes, hprocessors⟩ := turn_set hp hlane hsession
    exact {
      size := by rw [hprocessors, Array.size_setIfInBounds, h.size]
      lanes := by rw [hlanes, Array.size_setIfInBounds, h.lanes]
      runs := by
        intro j q lane hq hlane'
        rw [hprocessors, Array.getElem?_setIfInBounds] at hq
        rw [hlanes, Array.getElem?_setIfInBounds] at hlane'
        by_cases hj : i = j
        · subst hj
          simp only [if_true, hi] at hq
          simp only [if_true, (Array.getElem?_eq_some_iff.mp hlane).1] at hlane'
          cases hq
          cases hlane'
          exact ⟨first, hfirst, hturn⟩
        · rw [if_neg hj] at hq hlane'
          exact h.runs j q lane hq hlane' }
  · rwa [turn_of_ended (not_exists.mp hlane)]

theorem Runs.foldl_turn (h : Runs before r) (observer : Observer σ) (order : List Nat) :
    Runs before (order.foldl (·.turn observer) r) := by
  induction order generalizing r with
  | nil => exact h
  | cons i rest ih => exact ih (h.turn observer i)

theorem Runs.play (h : Runs before r) (observer : Observer σ) (fuel : Nat) :
    Runs before (r.play observer fuel) := by
  induction fuel generalizing r with
  | zero => exact h
  | succ fuel ih =>
      rw [Round.play]
      split
      · exact h
      · exact ih (h.foldl_turn observer _)

end Machine.Round

/-- In a run of a machine that has ended, every processor has had a run. The endings are in the
order of the processors, whatever order they ended in. -/
theorem Machine.run_runs {σ : Type} (observer : Observer σ) (fuel : Nat) (m : Machine)
    (observed : σ) (hended : .running ∉ (m.run observer fuel observed).endings) :
    ∃ results : List (Processor × Ending),
      (m.run observer fuel observed).machine.processors.toList = results.map Prod.fst ∧
      (m.run observer fuel observed).endings = results.map Prod.snd ∧
      List.Forall₂ (fun p result => p.Runs result.1 (some result.2))
        m.processors.toList results := by
  by_cases hempty : m.processors = #[]
  · have hrun : m.run observer fuel observed = ⟨m, observed, [], .error .noProcessors⟩ := by
      simp [run, hempty]
    refine ⟨[], ?_, ?_, ?_⟩ <;> simp [hrun, hempty]
  · have hplay := (Round.runs_start m observed).play observer fuel
    have hrun := run_eq observer fuel hempty observed
    dsimp only at hrun
    rw [hrun] at hended ⊢
    generalize (m.start observed).play observer fuel = r at hplay hended
    dsimp only at hended ⊢
    let endings := r.lanes.toList.map fun lane => lane.ending.getD .running
    have hsize : r.machine.processors.toList.length = m.processors.toList.length := by
      simp [hplay.size]
    have hlanes : endings.length = m.processors.toList.length := by simp [endings, hplay.lanes]
    refine ⟨r.machine.processors.toList.zip endings, ?_, ?_, ?_⟩
    · exact (List.map_fst_zip (hsize.trans hlanes.symm).le).symm
    · exact (List.map_snd_zip (hlanes.trans hsize.symm).le).symm
    · refine List.forall₂_iff_get.mpr ⟨by rw [List.length_zip]; omega, ?_⟩
      intro i hi hi'
      have hi₁ : i < r.machine.processors.size := hplay.size ▸ hi
      have hi₂ : i < r.lanes.size := hplay.lanes ▸ hi
      obtain ⟨first, hfirst, hruns⟩ :=
        hplay.runs i _ _ (Array.getElem?_eq_getElem hi₁) (Array.getElem?_eq_getElem hi₂)
      have hfirst' : m.processors[i] = first := (Array.getElem?_eq_some_iff.mp hfirst).2
      cases hending : r.lanes[i].ending with
      | none =>
          refine absurd (List.mem_map.mpr ⟨r.lanes[i], ?_, ?_⟩) hended
          · simp
          · simp [hending]
      | some ending =>
          rw [hending] at hruns
          simpa [endings, hfirst', hending] using hruns

namespace Telemetry

/-! ### Histories -/

namespace Member

variable {member : Member}

/-- What becomes of a processor to which things happen in order, and what is recorded meanwhile.
Actions that do not suit what it is doing have no effect. -/
def performAll (member : Member) : List Action → Member × List Change
  | [] => (member, [])
  | action :: rest =>
      let (next, changes) := member.perform action
      let (last, more) := next.performAll rest
      (last, changes ++ more)

theorem performAll_append (member : Member) (front back : List Action) :
    member.performAll (front ++ back) =
      (((member.performAll front).1.performAll back).1,
        (member.performAll front).2 ++ ((member.performAll front).1.performAll back).2) := by
  induction front generalizing member with
  | nil => rfl
  | cons action rest ih => simp only [List.cons_append, performAll, ih, List.append_assoc]

/-- A processor that has something to record records it all, one change at a time, and is idle
then. -/
theorem performAll_record (member : Member) (left : List Change)
    (h : member.activity = .recording left) :
    member.performAll (List.replicate (left.length + 1) .record) =
      ({ member with activity := .idle }, left) := by
  induction left generalizing member with
  | nil => simp [performAll, perform, h]
  | cons c left ih =>
      have hperform : member.perform .record =
          ({ member with activity := .recording left }, [c]) := by
        simp only [perform, h]
      rw [List.length_cons, List.replicate_succ, performAll, hperform]
      dsimp only
      rw [ih _ rfl]
      rfl

/-- A processor that has had a run and has recorded it. -/
def afterRun (member : Member) (q : Processor) (tally : Tally) (ending : Ending) : Member :=
  { member with processor := q, activity := .idle, tally, endings := member.endings ++ [ending] }

/-- When a run ends, all there is to record is recorded. -/
theorem performAll_close {member running closed : Member} {actions : List Action}
    {changes : List Change} {action : Action} {before : Stats} {ending : Ending}
    (hactions : member.performAll actions = (running, changes))
    (h : running.perform action = (closed.close before ending 0, [])) :
    ∃ more, member.performAll more =
      (closed.afterRun closed.processor closed.tally ending,
        changes ++ Change.ofEnding before closed.processor ending 0) := by
  let left := Change.ofEnding before closed.processor ending 0
  refine ⟨actions ++ action :: List.replicate (left.length + 1) .record, ?_⟩
  rw [performAll_append, hactions, performAll, h]
  dsimp only
  rw [performAll_record _ left rfl]
  rfl

/-- Every run of a processor can happen, by itself, to one that is idle. The induction is on the
run; while it goes on, only its start has been recorded. -/
theorem performAll_runs (hidle : member.activity = .idle) {q : Processor} {ending : Option Ending}
    (h : member.processor.Runs q ending) :
    ∃ actions tally, member.performAll actions =
      ending.elim
        ({ member with processor := q, activity := .running member.processor.stats, tally },
          [.ofStart])
        fun ending => (member.afterRun q tally ending,
          .ofStart :: Change.ofEnding member.processor.stats q ending 0) := by
  induction h with
  | start => exact ⟨[.start], member.tally, by simp [performAll, perform, hidle]⟩
  | @step q memory _ hstep ih =>
      obtain ⟨actions, tally, hactions⟩ := ih
      refine ⟨actions ++ [.step memory 0], (q.completion? memory).elim tally fun c =>
        tally.count c.effect, ?_⟩
      rw [performAll_append, hactions]
      simp [performAll, perform, Member.step, hstep]
  | @fault q fault memory _ hstep ih =>
      obtain ⟨actions, tally, hactions⟩ := ih
      let running : Member :=
        { member with processor := q, activity := .running member.processor.stats, tally }
      let tally' := (q.completion? memory).elim tally fun c => tally.count c.effect
      have hperform : running.perform (.step memory 0) =
          (({ running with processor := (q.step memory).1, tally := tally' } : Member).close
            member.processor.stats (.fault fault) 0, []) := by
        simp [running, tally', perform, Member.step, hstep]
      obtain ⟨more, hmore⟩ := performAll_close hactions hperform
      exact ⟨more, tally', hmore⟩
  | @leave q reason _ ih =>
      obtain ⟨actions, tally, hactions⟩ := ih
      let running : Member :=
        { member with processor := q, activity := .running member.processor.stats, tally }
      have hperform : running.perform (.leave reason 0) =
          (running.close member.processor.stats (reason.elim .finished .stopped) 0, []) := rfl
      obtain ⟨more, hmore⟩ := performAll_close hactions hperform
      exact ⟨more, tally, hmore⟩

end Member

/-- Processors that share a set of metrics. They need not share anything else. -/
structure Fleet where
  members : List Member
  metrics : Metrics := .standard

namespace Fleet

/-- New processors with a new set of metrics. -/
def ofOptions (options : List (Int × Int)) : Fleet where
  members := options.map fun (size, spill) => { processor := .ofOptions size spill }

/-- Lets something happen to a processor. What it records shows in the metrics at the same
moment. -/
def apply (fleet : Fleet) (event : Nat × Action) : Fleet :=
  fleet.members[event.1]?.elim fleet fun member =>
    { members := fleet.members.set event.1 (member.perform event.2).1
      metrics := fleet.metrics.applyAll (member.perform event.2).2 }

/-- Lets things happen in order. -/
def follow (fleet : Fleet) (history : List (Nat × Action)) : Fleet := history.foldl apply fleet

theorem follow_append (fleet : Fleet) (front back : List (Nat × Action)) :
    fleet.follow (front ++ back) = (fleet.follow front).follow back := List.foldl_append

/-- No run is in progress and nothing is left to record. -/
def Quiet (fleet : Fleet) : Prop := ∀ member ∈ fleet.members, member.activity = .idle

/-- How all runs have ended, processor by processor. -/
def endings (fleet : Fleet) : List Ending := fleet.members.flatMap Member.endings

variable {fleet : Fleet}

/-- What happens to one processor leaves the others alone. -/
theorem follow_map {i : Nat} {member : Member} (h : fleet.members[i]? = some member)
    (actions : List Action) :
    fleet.follow (actions.map (i, ·)) =
      { members := fleet.members.set i (member.performAll actions).1
        metrics := fleet.metrics.applyAll (member.performAll actions).2 } := by
  induction actions generalizing fleet member with
  | nil =>
      have hset : fleet.members.set i member = fleet.members := by
        obtain ⟨hi, rfl⟩ := List.getElem?_eq_some_iff.mp h
        exact List.set_getElem_self hi
      simp [follow, Member.performAll, Metrics.applyAll, hset]
  | cons action rest ih =>
      have hi : i < fleet.members.length := (List.getElem?_eq_some_iff.mp h).1
      have hnext : (fleet.apply (i, action)).members[i]? = some (member.perform action).1 := by
        simp only [apply, h, Option.elim_some]
        exact List.getElem?_set_self hi
      rw [List.map_cons, follow, List.foldl_cons, ← follow, ih hnext]
      simp [apply, h, Member.performAll, Metrics.applyAll]

/-- Every run of a processor is a history, and leaves the metrics as recording its ending does. -/
theorem follow_runs (fleet : Fleet) {i : Nat} {member : Member}
    (h : fleet.members[i]? = some member) (hidle : member.activity = .idle) {q : Processor}
    {ending : Ending} (hruns : member.processor.Runs q (some ending)) :
    ∃ history tally, fleet.follow history =
      { members := fleet.members.set i (member.afterRun q tally ending)
        metrics := fleet.metrics.recordEnding member.processor q ending } := by
  obtain ⟨actions, tally, hactions⟩ := Member.performAll_runs hidle hruns
  refine ⟨actions.map (i, ·), tally, ?_⟩
  rw [follow_map h, hactions]
  rfl

/-- The runs of several processors are a history. They happen one after the other here; `done` are
those that have had theirs. -/
theorem follow_runs_all {results : List (Processor × Ending)} (done todo : List Member)
    (metrics : Metrics) (h : List.Forall₂ (fun member result => member.activity = .idle ∧
      member.processor.Runs result.1 (some result.2)) todo results) :
    ∃ history after, follow ⟨done ++ todo, metrics⟩ history =
        ⟨done ++ after, metrics.recordEndings (todo.map Member.processor) (results.map Prod.fst)
          (results.map Prod.snd)⟩ ∧
      after.map Member.processor = results.map Prod.fst ∧
      after.map Member.endings = List.zipWith (fun member ending => member.endings ++ [ending]) todo
        (results.map Prod.snd) ∧
      after.map Member.entered = todo.map Member.entered ∧
      ∀ member ∈ after, member.activity = .idle := by
  induction h generalizing done metrics with
  | nil => exact ⟨[], [], rfl, rfl, rfl, rfl, by simp⟩
  | @cons member result todo results hfirst _ ih =>
      have hmember : (done ++ member :: todo)[done.length]? = some member := by simp
      obtain ⟨front, tally, hfront⟩ :=
        follow_runs ⟨done ++ member :: todo, metrics⟩ hmember hfirst.1
        hfirst.2
      have hset : (done ++ member :: todo).set done.length
        (member.afterRun result.1 tally result.2) =
          done ++ [member.afterRun result.1 tally result.2] ++ todo := by simp
      rw [hset] at hfront
      obtain ⟨back, after, hback, hprocessors, hendings, hentered, hidle⟩ :=
        ih (done ++ [member.afterRun result.1 tally result.2])
          (metrics.recordEnding member.processor result.1 result.2)
      refine ⟨front ++ back, member.afterRun result.1 tally result.2 :: after, ?_, ?_, ?_, ?_, ?_⟩
      · rw [follow_append, hfront, hback]
        simp [Metrics.recordEndings]
      · simp [hprocessors, Member.afterRun]
      · simp [hendings, Member.afterRun]
      · simp [hentered, Member.afterRun]
      · simpa [Member.afterRun] using hidle

/-! ### The balance -/

/-- A sum over a list changes by what one of its terms changes by. -/
theorem sum_map_set {α : Type} (f : α → UInt64) {xs : List α} {i : Nat} {x y : α} {delta : UInt64}
    (h : xs[i]? = some x) (hy : f y = f x + delta) :
    ((xs.set i y).map f).sum = (xs.map f).sum + delta := by
  induction xs generalizing i with
  | nil => simp at h
  | cons z rest ih =>
      cases i with
      | zero =>
          obtain rfl : z = x := by simpa using h
          simp only [List.set_cons_zero, List.map_cons, List.sum_cons, hy]
          grind
      | succ i =>
          have hrest := ih (i := i) (by simpa using h)
          simp only [List.set_cons_succ, List.map_cons, List.sum_cons, hrest, UInt64.add_assoc]

theorem sum_map_ofNat {α : Type} (f : α → Nat) (xs : List α) :
    (xs.map fun x => UInt64.ofNat (f x)).sum = UInt64.ofNat (xs.map f).sum := by
  induction xs with
  | nil => rfl
  | cons x rest ih => simp [ih]

/-- What an instrument shows is what all processors have contributed. It holds in the middle of runs
too, and while a run is being recorded. -/
structure Balanced (fleet : Fleet) : Prop where
  complete : fleet.metrics.Complete
  word : ∀ s ≠ Standard.frameDepth, fleet.metrics.word s = (fleet.members.map (Member.share s)).sum
  kept : ∀ member ∈ fleet.members, member.Kept

theorem balanced_ofOptions (options : List (Int × Int)) : (ofOptions options).Balanced where
  complete := Metrics.complete_standard
  word := by
    intro s _
    have hnew (size spill : Int) : Member.share s { processor := .ofOptions size spill } = 0 := by
      have hshown : Member.shown { processor := .ofOptions size spill } s = 0 := by cases s <;> rfl
      rw [Member.share, hshown]
      exact UInt64.sub_zero 0
    have hstandard : Metrics.standard.word s = 0 := by cases s <;> rfl
    have hsum : ((ofOptions options).members.map (Member.share s)).sum = 0 := by
      simp [ofOptions, Function.comp_def, hnew]
    exact hstandard.trans hsum.symm
  kept := by
    intro member hmember
    obtain ⟨⟨size, spill⟩, -, rfl⟩ := List.mem_map.mp hmember
    exact Member.kept_ofOptions size spill

/-- Step lemma: whatever happens to one processor, the balance is kept. Its share changes by just
what is recorded. -/
theorem Balanced.apply (h : fleet.Balanced) (event : Nat × Action) :
    (fleet.apply event).Balanced := by
  obtain ⟨i, action⟩ := event
  cases hmember : fleet.members[i]? with
  | none => simpa [Fleet.apply, hmember] using h
  | some member =>
      have hkept := h.kept member (List.mem_of_getElem? hmember)
      have happly : fleet.apply (i, action) =
          { members := fleet.members.set i (member.perform action).1
            metrics := fleet.metrics.applyAll (member.perform action).2 } := by
        simp only [Fleet.apply, hmember, Option.elim_some]
      rw [happly]
      exact {
        complete := h.complete.applyAll _
        word := by
          intro s hs
          have hword := Metrics.word_applyAll h.complete (hkept.suits_perform action) hs
          rw [hword, h.word s hs,
            sum_map_set (Member.share s) hmember (member.share_perform action s)]
        kept := by
          intro other hother
          rcases List.mem_or_eq_of_mem_set hother with hother | rfl
          · exact h.kept other hother
          · exact hkept.perform action }

/-- Run lemma: the balance is kept along every history. The induction is on the history. -/
theorem Balanced.follow (h : fleet.Balanced) (history : List (Nat × Action)) :
    (fleet.follow history).Balanced := by
  induction history generalizing fleet with
  | nil => exact h
  | cons event rest ih => exact ih (h.apply event)

/-! ### The accounts -/

/-- The sum of what all processors have counted, as far as it goes: an instrument has 64 bits. -/
def counted (fleet : Fleet) (count : Stats → UInt64) : Nat :=
  (fleet.members.map fun member => (count member.processor.stats).toNat).sum % 2 ^ 64

/-- The instruments show what the processors have counted, and how their runs have ended. Traps are
counted twice over, by the processors and by the endings of their runs, and both agree with the
instrument. -/
structure Accounted (fleet : Fleet) : Prop where
  steps : fleet.metrics.value .steps = fleet.counted Stats.steps
  invokes : fleet.metrics.value .invokes = fleet.counted Stats.invokes
  returns : fleet.metrics.value .returns = fleet.counted Stats.returns
  refills : fleet.metrics.value .refills = fleet.counted Stats.refills
  atomics : fleet.metrics.value .atomics = fleet.counted Stats.atomics
  traps : fleet.metrics.value .traps = fleet.counted Stats.traps
  trapped : fleet.metrics.value .traps = (fleet.endings.countP Ending.isTrap % 2 ^ 64 : Nat)
  faults : fleet.metrics.value .faults = (fleet.endings.countP Ending.isFatal % 2 ^ 64 : Nat)
  active : fleet.metrics.value .activeProcessors = 0
  durations : ∃ i h, fleet.metrics.instruments[Standard.runDuration.index]? = some i ∧
    i.reading = .histogram h ∧ h.count.toNat = fleet.endings.length % 2 ^ 64

/-- Once no run is in progress, an instrument amounts to what the processors have to show, since
nothing is left to record. -/
theorem Balanced.word_of_quiet (h : fleet.Balanced) (hquiet : fleet.Quiet) {s : Standard}
    (hs : s ≠ .frameDepth) {f : Member → Nat}
    (hf : ∀ member ∈ fleet.members, member.activity = .idle →
        member.shown s = UInt64.ofNat (f member)) :
    fleet.metrics.word s = UInt64.ofNat (fleet.members.map f).sum := by
  have hshare : ∀ member ∈ fleet.members, member.share s = UInt64.ofNat (f member) := by
    intro member hmember
    have hidle := hquiet member hmember
    rw [Member.share, hf member hmember hidle, Member.due, hidle, UInt64.sub_zero]
  rw [h.word s hs, List.map_congr_left hshare, sum_map_ofNat]

theorem Balanced.value_of_quiet (h : fleet.Balanced) (hquiet : fleet.Quiet) {s : Standard}
    (hs : s.kind = "counter") {f : Member → Nat}
    (hf : ∀ member ∈ fleet.members, member.activity = .idle →
        member.shown s = UInt64.ofNat (f member)) :
    fleet.metrics.value s = ((fleet.members.map f).sum % 2 ^ 64 : Nat) := by
  have hdepth : s ≠ .frameDepth := by
    rintro rfl
    simp [Standard.kind, Standard.index] at hs
  rw [h.complete.value_eq hs, h.word_of_quiet hquiet hdepth hf, UInt64.toNat_ofNat']

theorem Balanced.value_counted (h : fleet.Balanced) (hquiet : fleet.Quiet) {s : Standard}
    (hs : s.kind = "counter") {count : Stats → UInt64}
    (hcount : ∀ member : Member, member.shown s = count member.settled) :
    fleet.metrics.value s = fleet.counted count := by
  refine h.value_of_quiet hquiet hs fun member _ hidle => ?_
  rw [hcount member, Member.settled_of_idle hidle, UInt64.ofNat_toNat]

/-- A balance without runs in progress is an account. -/
theorem Balanced.accounted (h : fleet.Balanced) (hquiet : fleet.Quiet) : fleet.Accounted := by
  have hcountP (p : Ending → Bool) :
      (fleet.members.map fun member => member.endings.countP p).sum = fleet.endings.countP p := by
    rw [endings, List.countP_flatMap]
    rfl
  have hlength : (fleet.members.map fun member => member.endings.length).sum =
      fleet.endings.length := by
    rw [endings, List.length_flatMap]
  exact {
    steps := h.value_counted hquiet rfl fun _ => rfl
    invokes := h.value_counted hquiet rfl fun _ => rfl
    returns := h.value_counted hquiet rfl fun _ => rfl
    refills := h.value_counted hquiet rfl fun _ => rfl
    atomics := h.value_counted hquiet rfl fun _ => rfl
    traps := h.value_counted hquiet rfl fun _ => rfl
    trapped := by
      rw [← hcountP]
      refine h.value_of_quiet hquiet rfl fun member hmember hidle => ?_
      rw [Member.shown, Member.settled_of_idle hidle, (h.kept member hmember).traps]
    faults := by
      rw [← hcountP]
      exact h.value_of_quiet hquiet rfl fun member _ _ => rfl
    active := by
      have hshown : ∀ member ∈ fleet.members, member.activity = .idle →
          member.shown .activeProcessors = UInt64.ofNat 0 := by
        intro member _ hidle
        rw [Member.shown, Member.active, hidle]
        rfl
      refine h.complete.value_eq_zero rfl ?_
      rw [h.word_of_quiet hquiet (by simp) hshown]
      simp
    durations := by
      obtain ⟨i, hist, hi, hr, hcount⟩ := h.complete.exists_histogram (s := .runDuration) rfl
      refine ⟨i, hist, hi, hr, ?_⟩
      rw [hcount, h.word_of_quiet hquiet (by simp) fun _ _ _ => rfl, UInt64.toNat_ofNat', hlength] }

/-- What a run of a machine makes of its processors and their metrics. Every processor has one more
ending, and the metrics are those that recording the endings gives. -/
structure Ran {σ : Type} (fleet after : Fleet) (result : Machine.Result σ) : Prop where
  quiet : after.Quiet
  processors : after.members.map Member.processor = result.machine.processors.toList
  endings : after.members.map Member.endings =
    List.zipWith (fun member ending => member.endings ++ [ending]) fleet.members result.endings
  entered : after.members.map Member.entered = fleet.members.map Member.entered
  metrics : after.metrics = fleet.metrics.recordEndings (fleet.members.map Member.processor)
    result.machine.processors.toList result.endings

/-- A run of a machine whose processors share a set of metrics is a history. Only the state at its
end is compared, so the runs of the processors can be taken one after the other. -/
theorem follow_machine (hquiet : fleet.Quiet) {m : Machine}
    (hprocessors : fleet.members.map Member.processor = m.processors.toList) {σ : Type}
    (observer : Observer σ) (fuel : Nat) (observed : σ)
    (hended : .running ∉ (m.run observer fuel observed).endings) :
    ∃ history, fleet.Ran (fleet.follow history) (m.run observer fuel observed) := by
  obtain ⟨results, hafter, hendings, hruns⟩ := Machine.run_runs observer fuel m observed hended
  rw [← hprocessors, List.forall₂_map_left_iff] at hruns
  have hall : List.Forall₂ (fun member result => member.activity = .idle ∧
      member.processor.Runs result.1 (some result.2)) fleet.members results :=
    (List.forall₂_and_left _ _).mpr ⟨hquiet, hruns⟩
  obtain ⟨history, members, hfollow, hmembers, hrecorded, hentered, hidle⟩ :=
    follow_runs_all [] fleet.members fleet.metrics hall
  refine ⟨history, ?_⟩
  have hfollow' : fleet.follow history = ⟨members, fleet.metrics.recordEndings
      (fleet.members.map Member.processor) (results.map Prod.fst) (results.map Prod.snd)⟩ := hfollow
  rw [hfollow']
  exact {
    quiet := hidle
    processors := hmembers.trans hafter.symm
    endings := by rw [hendings, hrecorded]
    entered := hentered
    metrics := by rw [hafter, hendings] }

/-- Event accounting is exact along every history of new processors with a set of metrics: whenever
no run is in progress, the instruments show what the processors have counted and how their runs have
ended; at any time, the counts of a processor agree with its frames unless they have started over.
The runs of a processor and those of a machine, with what is then recorded of them, are such
histories.

The proof rests on one invariant, `Balanced`, which every action keeps; the account is what it says
when there is nothing left to record. -/
theorem events_accounted (options : List (Int × Int)) (history : List (Nat × Action)) :
    let fleet := (ofOptions options).follow history
    (fleet.Quiet → fleet.Accounted) ∧
    (∀ member ∈ fleet.members, member.tally.steps < 2 ^ 64 →
      let stats := member.processor.stats
      member.processor.depth + stats.returns.toNat = member.entered + stats.invokes.toNat ∧
        stats.invokes.toNat + stats.returns.toNat + stats.atomics.toNat ≤ stats.steps.toNat) ∧
    (∀ (i : Nat) (member : Member), fleet.members[i]? = some member → member.activity = .idle →
      ∀ (σ : Type) (observer : Observer σ) (floor fuel : Nat) (s final : Session σ)
        (ending : Ending),
        s.processor = member.processor → s.run observer floor fuel = (final, ending) →
          ending ≠ .running →
        ∃ more tally, (ofOptions options).follow (history ++ more) =
          { members := fleet.members.set i (member.afterRun final.processor tally ending)
            metrics := fleet.metrics.recordEnding member.processor final.processor ending }) ∧
    (fleet.Quiet → ∀ m : Machine, fleet.members.map Member.processor = m.processors.toList →
      ∀ (σ : Type) (observer : Observer σ) (fuel : Nat) (observed : σ),
        .running ∉ (m.run observer fuel observed).endings →
        ∃ more, fleet.Ran ((ofOptions options).follow (history ++ more))
          (m.run observer fuel observed)) := by
  intro fleet
  have hbalanced : fleet.Balanced := (balanced_ofOptions options).follow history
  simp only [follow_append]
  refine ⟨hbalanced.accounted, fun member hmember => (hbalanced.kept member hmember).frames, ?_, ?_⟩
  · intro i member hmember hidle σ observer floor fuel s final ending hs hrun hended
    have hstart : member.processor.Runs s.processor none := hs ▸ .start
    exact follow_runs fleet hmember hidle (hstart.session hrun hended)
  · intro hquiet m hprocessors σ observer fuel observed hended
    exact follow_machine hquiet hprocessors observer fuel observed hended

/-- Three processors with the frames of `Machine.dividing`. -/
def dividing : Fleet :=
  (ofOptions [(0, 0), (0, 0), (0, 0)]).follow
    [(0, .enter 0 []), (1, .enter 1 [1, 0]), (2, .enter 0 []), (2, .enter 0 [])]

/-- In the run of the machine one processor finishes, one traps, and one is stopped with a frame
left. A processor that has left one of two frames, and one that runs by itself, have their counts
right too. -/
theorem events_accounted_dividing :
    let m := Machine.dividing
    let result := m.run .none 5 ()
    let metrics :=
      Metrics.standard.recordEndings m.processors.toList result.machine.processors.toList
      result.endings
    let fault : Fault := ⟨.divisionByZero, 2, 3, 0⟩
    (result.endings = [.finished, .fault fault, .stopped .canceled] ∧
      metrics.value .steps = 3 ∧ metrics.value .returns = 2 ∧ metrics.value .traps = 1 ∧
      metrics.value .faults = 0 ∧ metrics.value .activeProcessors = 0) ∧
    (∀ member ∈ (dividing.follow [(2, .start), (2, .step m.memory 0)]).members,
      member.processor.depth + member.processor.stats.returns.toNat =
        member.entered + member.processor.stats.invokes.toNat) ∧
    let s : Session Unit := ⟨(Processor.ofOptions 0 0).enter 1 [1, 0], m.memory, (), 0⟩
    (s.run .none 0 5).2 = .fault fault ∧
      ∃ history, (dividing.follow history).metrics =
        Metrics.standard.recordEnding s.processor (s.run .none 0 5).1.processor (.fault fault) := by
  intro m result metrics fault
  let options : List (Int × Int) := [(0, 0), (0, 0), (0, 0)]
  let entering : List (Nat × Action) :=
    [(0, .enter 0 []), (1, .enter 1 [1, 0]), (2, .enter 0 []), (2, .enter 0 [])]
  have hquiet : dividing.Quiet := by
    simp [dividing, Quiet, ofOptions, follow, apply, Member.perform]
  obtain ⟨-, -, hsession, hmachine⟩ := events_accounted options entering
  refine ⟨?_, ?_, ?_⟩
  · have hendings : result.endings = [.finished, .fault fault, .stopped .canceled] := by
      decide +kernel
    have hended : .running ∉ result.endings := by
      rw [hendings]
      decide
    obtain ⟨more, hran⟩ := hmachine hquiet m rfl Unit .none 5 () hended
    have haccounted := (events_accounted options (entering ++ more)).1 hran.quiet
    generalize (ofOptions options).follow (entering ++ more) = after at hran haccounted
    have hmetrics : after.metrics = metrics := hran.metrics
    have hcounted (count : Stats → UInt64) : after.counted count =
        (result.machine.processors.toList.map fun p => (count p.stats).toNat).sum % 2 ^ 64 := by
      rw [counted, ← hran.processors, List.map_map]
      rfl
    have hall : after.endings = [.finished, .fault fault, .stopped .canceled] := by
      rw [endings, List.flatMap_def, hran.endings, hendings]
      rfl
    have hsteps := haccounted.steps
    have hreturns := haccounted.returns
    have htraps := haccounted.traps
    have hfaults := haccounted.faults
    have hactive := haccounted.active
    rw [hmetrics] at hsteps hreturns htraps hfaults hactive
    rw [hcounted] at hsteps hreturns htraps
    rw [hall] at hfaults
    refine ⟨hendings, hsteps.trans ?_, hreturns.trans ?_, htraps.trans ?_,
      hfaults.trans ?_, hactive⟩ <;>
      decide +kernel
  · have hfew : ∀ member ∈ (dividing.follow [(2, .start), (2, .step m.memory 0)]).members,
        member.tally.steps < 2 ^ 64 := by decide +kernel
    obtain ⟨-, hframes, -⟩ :=
      events_accounted options (entering ++ [(2, .start), (2, .step m.memory 0)])
    rw [follow_append] at hframes
    intro member hmember
    exact (hframes member hmember (hfew member hmember)).1
  · intro s
    have hending : (s.run .none 0 5).2 = .fault fault := by decide +kernel
    obtain ⟨more, tally, hfollow⟩ := hsession 1 { processor := s.processor, entered := 1 } rfl rfl
      Unit .none 0 5 s (s.run .none 0 5).1 (.fault fault) rfl (Prod.ext rfl hending) (by simp)
    have hdividing : (ofOptions options).follow entering = dividing := rfl
    have hmetrics : dividing.metrics = Metrics.standard := rfl
    rw [follow_append, hdividing, hmetrics] at hfollow
    refine ⟨hending, more, ?_⟩
    rw [hfollow]

end Fleet

end Telemetry

end RegisterVM
