import RegisterVM.Proofs.Cancellation
import RegisterVM.Proofs.WorkersReturn

/-!
# The first failure of a machine

A run of a machine lets its processors take turns. A turn is what the worker of that processor does
from one look at its frames to the next, with no other in between (`Mirrors.turn`), so that a run
is one of the interleavings of the workers (`run_came_about`). What holds in all of them holds of
it: it succeeds just if all processors ran to the end, and otherwise names one that has faulted.
-/

namespace RegisterVM

/-- Why a run ended before its frames were left. A run that goes on and one that has finished have
no such reason. -/
def Ending.stoppage? : Ending → Option Stoppage
  | finished | running => none
  | fault f => some (.fault f)
  | stopped reason => some (.stopped reason)

namespace Machine

/-! ### A worker by itself -/

namespace Group

variable {g : Group} {i : Nat} {p : Processor}

@[simp] theorem stages_put (stage : Stage) : (g.put i stage).stages i = stage :=
  Function.update_self ..

/-- One worker goes on, and no other. These are the stretches between two looks of a worker at its
frames. -/
def Passes (i : Nat) (g g' : Group) : Prop := ∃ n, g.follow (List.replicate n (.move i)) = g'

theorem Passes.refl (i : Nat) (g : Group) : Passes i g g := ⟨0, rfl⟩

theorem Passes.trans {g' g'' : Group} (h : Passes i g g') (h' : Passes i g' g'') :
    Passes i g g'' := by
  obtain ⟨m, rfl⟩ := h
  obtain ⟨n, rfl⟩ := h'
  exact ⟨m + n, by rw [List.replicate_add, follow_append]⟩

/-- A worker at a stage passes on from it. -/
theorem passes_move (hp : g.machine.processors[i]? = some p) {stage : Stage} {g' : Group}
    (h : (g.put i stage).moveFrom i p stage = g') : Passes i (g.put i stage) g' := by
  refine ⟨1, ?_⟩
  show (g.put i stage).move i = g'
  rw [move_eq (show (g.put i stage).machine.processors[i]? = some p from hp), stages_put, h]

/-- The group with another header cache. -/
def withHeaders (g : Group) (headers : Debug.HeaderCache) : Group :=
  { g with machine := { g.machine with headers } }

/-- The group with one more report. -/
def handIn (g : Group) (report : Report) : Group := { g with reports := g.reports ++ [report] }

/-- The group with its workers told to stop. -/
def cancel (g : Group) : Group := { g with inner := g.inner.or (some .canceled) }

/-- A worker looks up one frame after the other. The headers that it finds are kept for the
others. -/
theorem passes_tracing (hp : g.machine.processors[i]? = some p) (cause : Stoppage)
    (found : List TraceElement) (left : List Frame) :
    Passes i (g.put i (.tracing cause found left))
      ((g.withHeaders (traceFrames g.machine.memory left g.machine.headers).2).put i
        (.tracing cause (found ++ (traceFrames g.machine.memory left g.machine.headers).1)
          [])) := by
  induction left generalizing g found with
  | nil =>
      simp only [traceFrames, List.append_nil]
      exact .refl i _
  | cons f left ih =>
      have hfirst : Passes i (g.put i (.tracing cause found (f :: left)))
          ((g.withHeaders (f.locate g.machine.memory g.machine.headers).2).put i
            (.tracing cause (found ++ [(f.locate g.machine.memory g.machine.headers).1]) left)) :=
        passes_move hp (by simp [moveFrom, put, withHeaders])
      have hrest := @ih (g.withHeaders (f.locate g.machine.memory g.machine.headers).2) hp
        (found ++ [(f.locate g.machine.memory g.machine.headers).1])
      simp only [List.append_assoc] at hrest
      exact hfirst.trans hrest

/-- A worker hands in its report; the first one to do so tells all to stop. -/
theorem passes_reporting (hp : g.machine.processors[i]? = some p) (cause : Stoppage)
    (report : Report) :
    Passes i (g.put i (.reporting cause report))
      ((if g.reports.isEmpty then (g.handIn report).cancel else g.handIn report).put i
        (.returned (some cause))) := by
  by_cases hreports : g.reports = []
  · have hfirst : Passes i (g.put i (.reporting cause report))
        ((g.handIn report).put i (.cancelling cause)) :=
      passes_move hp (by simp [moveFrom, put, handIn, hreports])
    refine hfirst.trans
      (passes_move (show (g.handIn report).machine.processors[i]? = some p from hp) ?_)
    simp [moveFrom, put, cancel, hreports]
  · exact passes_move hp (by simp [moveFrom, put, handIn, hreports])

/-- The group after a worker whose processor has faulted has reported it: the trace is taken, the
report is handed in, and if it is the first, the others are told to stop. -/
def afterFault (g : Group) (i : Nat) (p : Processor) (fault : Fault) : Group :=
  let traced := p.trace g.machine.memory g.machine.headers
  let reported := (g.withHeaders traced.2).handIn (.failed ⟨i, .fault fault, traced.1⟩)
  (if g.reports.isEmpty then reported.cancel else reported).put i (.returned (some (.fault fault)))

theorem afterFault_put (stage : Stage) (fault : Fault) :
    (g.put i stage).afterFault i p fault = g.afterFault i p fault := by
  by_cases hreports : g.reports = [] <;>
    simp [afterFault, put, cancel, handIn, withHeaders, hreports]

/-- A worker whose processor has faulted comes to that by itself. -/
theorem passes_fault (hp : g.machine.processors[i]? = some p) (fault : Fault) :
    Passes i (g.put i (.ended (.fault fault))) (g.afterFault i p fault) := by
  have hdecide : Passes i (g.put i (.ended (.fault fault)))
      (g.put i (.tracing (.fault fault) [] p.frames)) :=
    passes_move hp (by simp [moveFrom, put])
  have htrace := passes_tracing hp (.fault fault) [] p.frames
  rw [List.nil_append] at htrace
  have hp' (headers : Debug.HeaderCache) :
    (g.withHeaders headers).machine.processors[i]? = some p := hp
  have hreport :=
    passes_reporting (hp' (p.trace g.machine.memory g.machine.headers).2) (.fault fault)
    (.failed ⟨i, .fault fault, (p.trace g.machine.memory g.machine.headers).1⟩)
  refine (hdecide.trans htrace).trans (Passes.trans ?_ hreport)
  exact passes_move (hp' _) (by simp [moveFrom, put, Processor.trace])

/-- A worker that is told to stop, for the failure of another, reports no failure. It takes no trace
and leaves the headers alone. -/
theorem passes_stopped (hp : g.machine.processors[i]? = some p) (houter : g.outer = none)
    (hreports : g.reports ≠ []) :
    Passes i (g.put i (.ended (.stopped .canceled)))
      ((g.handIn (.interrupted .canceled)).put i (.returned (some (.stopped .canceled)))) := by
  have hdecide : Passes i (g.put i (.ended (.stopped .canceled)))
      (g.put i (.reporting (.stopped .canceled) (.interrupted .canceled))) :=
    passes_move hp (by simp [moveFrom, put, houter])
  have hreport := passes_reporting hp (.stopped .canceled) (.interrupted .canceled)
  rw [if_neg (by simpa using hreports)] at hreport
  exact hdecide.trans hreport

end Group

/-! ### Turns of a run -/

/-- The stage of the worker of a processor between two turns: it looks at its frames, or has
returned. -/
def Lane.stage (lane : Lane) : Stage :=
  lane.ending.elim (.looping lane.patience) fun e => .returned e.stoppage?

variable {σ : Type} {observer : Observer σ}

/-- A run between two turns, as a group of workers. The first report of the group is the failure of
the run; later reports, which a run does not keep, are left open. -/
structure Mirrors (r : Round σ) (g : Group) : Prop where
  size : r.lanes.size = r.machine.processors.size
  machine : g.machine = r.machine
  outer : g.outer = none
  inner : g.inner = if r.failure.isSome then some .canceled else none
  first : g.reports.head? = r.failure.map .failed
  stages : ∀ i lane, r.lanes[i]? = some lane → g.stages i = lane.stage

namespace Round

/-- The run with one processor and its lane changed. A turn comes to this before its ending, if it
has one, is dealt with. -/
def update (r : Round σ) (i : Nat) (p : Processor) (memory : Memory) (observed : σ)
    (lane : Lane) : Round σ :=
  { r with
    machine := { r.machine with memory, processors := r.machine.processors.setIfInBounds i p }
    lanes := r.lanes.setIfInBounds i lane
    observed }

theorem update_self {r : Round σ} {i : Nat} {p : Processor} {lane : Lane}
    (hp : r.machine.processors[i]? = some p) (hlane : r.lanes[i]? = some lane) :
    r.update i p r.machine.memory r.observed lane = r := by
  rw [update, Array.setIfInBounds_eq_self hp, Array.setIfInBounds_eq_self hlane]

/-- A turn of a processor whose run has not ended is a turn of its session, under an observer that
also stops for a failure. -/
theorem turn_eq {r : Round σ} {i : Nat} {p : Processor} {patience : Nat}
    (hp : r.machine.processors[i]? = some p) (hlane : r.lanes[i]? = some ⟨patience, none⟩)
    {after : Session σ} {ending : Option Ending}
    (h : Session.turn (laneObserver observer r.failure.isSome) 0
      ⟨p, r.machine.memory, r.observed, patience⟩ = (after, ending)) :
    r.turn observer i =
      let next := r.update i after.processor after.memory after.observed ⟨after.patience, none⟩
      ending.elim next (next.close observer i) := by
  obtain ⟨⟨memory, processors, headers, cacheSize, cacheSpill⟩, lanes, observed, failure⟩ := r
  simp only [turn, hp, hlane, h]
  cases ending <;> rfl

theorem turn_of_ended {r : Round σ} {i : Nat}
    (h : ∀ patience, r.lanes[i]? ≠ some ⟨patience, none⟩) : r.turn observer i = r := by
  obtain ⟨⟨memory, processors, headers, cacheSize, cacheSpill⟩, lanes, observed, failure⟩ := r
  unfold turn
  dsimp only
  split
  · rename_i hlane
    exact absurd hlane (h _)
  · rfl

theorem lanes_close (observer : Observer σ) (r : Round σ) (i : Nat) (ending : Ending) :
    (r.close observer i ending).lanes = r.lanes.modify i fun lane =>
        { lane with ending := some ending } := by
  unfold close
  dsimp only
  cases ending with
  | finished | running => rfl
  | fault f =>
      dsimp only
      split <;> rfl
  | stopped reason =>
      dsimp only
      split
      · split <;> rfl
      · rfl

/-- A turn of a processor changes nothing of the others, and notes how its run ended, if it has. -/
theorem turn_set {r : Round σ} {i : Nat} {p : Processor} {patience : Nat}
    (hp : r.machine.processors[i]? = some p) (hlane : r.lanes[i]? = some ⟨patience, none⟩)
    {after : Session σ} {ending : Option Ending}
    (h : Session.turn (laneObserver observer r.failure.isSome) 0
      ⟨p, r.machine.memory, r.observed, patience⟩ = (after, ending)) :
    (r.turn observer i).lanes = r.lanes.setIfInBounds i ⟨after.patience, ending⟩ ∧
      (r.turn observer i).machine.processors =
        r.machine.processors.setIfInBounds i after.processor := by
  rw [turn_eq hp hlane h]
  cases ending with
  | none => exact ⟨rfl, rfl⟩
  | some ending =>
      refine ⟨?_, (close_sameState observer _ i ending).processors⟩
      have hnext : (r.lanes.setIfInBounds i ⟨after.patience, none⟩)[i]? =
          some ⟨after.patience, none⟩ := by
        simp [(Array.getElem?_eq_some_iff.mp hlane).1]
      simp only [Option.elim_some, lanes_close, update]
      rw [Array.modify_eq_setIfInBounds hnext, Array.setIfInBounds_setIfInBounds]

end Round

namespace Mirrors

variable {r r' : Round σ} {g g' : Group} {i : Nat}

/-- A run of which one lane has changed is mirrored by a group of which one stage has. All three
kinds of endings and the plain step use it. -/
theorem put (h : Mirrors r g) (lane : Lane) (hlanes : r'.lanes = r.lanes.setIfInBounds i lane)
    (hsize : r'.machine.processors.size = r.machine.processors.size)
    (hmachine : g'.machine = r'.machine) (houter : g'.outer = g.outer)
    (hinner : g'.inner = if r'.failure.isSome then some .canceled else none)
    (hfirst : g'.reports.head? = r'.failure.map .failed) (hstages : g'.stages = g.stages) :
    Mirrors r' (g'.put i lane.stage) where
  size := by rw [hlanes, hsize, Array.size_setIfInBounds, h.size]
  machine := hmachine
  outer := houter.trans h.outer
  inner := hinner
  first := hfirst
  stages := by
    intro j other hother
    rw [hlanes, Array.getElem?_setIfInBounds] at hother
    by_cases hj : i = j
    · subst hj
      rw [if_pos rfl] at hother
      split at hother
      · obtain rfl := Option.some.inj hother
        exact Group.stages_put _
      · cases hother
    · rw [if_neg hj] at hother
      rw [← h.stages j other hother, ← hstages]
      exact Function.update_of_ne (Ne.symm hj) ..

theorem processor {p : Processor} (h : Mirrors r g) (hp : r.machine.processors[i]? = some p) :
    g.machine.processors[i]? = some p := by
  rw [h.machine, hp]

theorem put_looping {patience : Nat} (h : Mirrors r g)
    (hlane : r.lanes[i]? = some ⟨patience, none⟩) : g.put i (.looping patience) = g := by
  have hlooping : g.stages i = .looping patience := h.stages i _ hlane
  rw [Group.put, ← hlooping, Function.update_eq_self]

theorem reports_eq_nil_iff (h : Mirrors r g) : g.reports = [] ↔ r.failure = none := by
  rw [← List.head?_eq_none_iff, h.first, Option.map_eq_none_iff]

/-! Endings. -/

theorem close_finished (observer : Observer σ) {lane : Lane} (h : Mirrors r g)
    (hlane : r.lanes[i]? = some lane) :
    Mirrors (r.close observer i .finished) (g.put i (.returned none)) := by
  have hlanes := Array.modify_eq_setIfInBounds hlane fun lane =>
    { lane with ending := some .finished }
  exact h.put { lane with ending := some .finished } hlanes rfl h.machine rfl h.inner h.first rfl

/-- Where nothing stops the machine, a processor that stops does so for the failure of another. -/
theorem close_stopped {lane : Lane} (hstop : ∀ notes, observer.stop? notes = none) (h : Mirrors r g)
    (hlane : r.lanes[i]? = some lane) (hreports : g.reports ≠ []) :
    Mirrors (r.close observer i (.stopped .canceled))
      ((g.handIn (.interrupted .canceled)).put i (.returned (some (.stopped .canceled)))) := by
  have hclose : r.close observer i (.stopped .canceled) = { r with
      lanes := r.lanes.modify i fun lane =>
        { lane with ending := some (.stopped .canceled) } } := by
    simp [Round.close, hstop]
  have hlanes := Array.modify_eq_setIfInBounds hlane fun lane =>
    { lane with ending := some (.stopped .canceled) }
  rw [hclose]
  refine h.put { lane with ending := some (.stopped .canceled) } hlanes rfl h.machine rfl
    h.inner ?_ rfl
  rw [← h.first]
  exact List.head?_append_of_ne_nil _ hreports

/-- The first fault is kept, and with it the workers are told to stop. A later one is traced and
reported all the same. -/
theorem close_fault (observer : Observer σ) {lane : Lane} {p : Processor} (h : Mirrors r g)
    (hlane : r.lanes[i]? = some lane)
    (hp : r.machine.processors[i]? = some p) (fault : Fault) :
    Mirrors (r.close observer i (.fault fault)) (g.afterFault i p fault) := by
  have hclose : r.close observer i (.fault fault) = { r with
      machine := { r.machine with headers := (p.trace r.machine.memory r.machine.headers).2 }
      lanes := r.lanes.modify i fun lane => { lane with ending := some (.fault fault) }
      failure := r.failure.or
        (some ⟨i, .fault fault, (p.trace r.machine.memory r.machine.headers).1⟩) } := by
    simp [Round.close, hp]
  have hlanes := Array.modify_eq_setIfInBounds hlane fun lane =>
    { lane with ending := some (.fault fault) }
  rw [hclose, Group.afterFault, h.machine]
  cases hfailure : r.failure with
  | none =>
      have hreports : g.reports = [] := h.reports_eq_nil_iff.mpr hfailure
      have hinner : g.inner = none := by simp [h.inner, hfailure]
      rw [if_pos (by simp [hreports])]
      refine h.put { lane with ending := some (.fault fault) } hlanes rfl ?_ rfl ?_ ?_ rfl
      · simp [Group.cancel, Group.handIn, Group.withHeaders, h.machine]
      · simp [Group.cancel, Group.handIn, Group.withHeaders, hinner]
      · simp [Group.cancel, Group.handIn, Group.withHeaders, hreports]
  | some failure =>
      have hreports : g.reports ≠ [] := by simp [h.reports_eq_nil_iff, hfailure]
      rw [if_neg (by simpa using hreports)]
      refine h.put { lane with ending := some (.fault fault) } hlanes rfl ?_ rfl ?_ ?_ rfl
      · simp [Group.handIn, Group.withHeaders, h.machine]
      · simp [Group.handIn, Group.withHeaders, h.inner, hfailure]
      · rw [Option.some_or, ← hfailure, ← h.first]
        exact List.head?_append_of_ne_nil _ hreports

/-! Turns. -/

section

variable {p : Processor} {patience : Nat} (h : Mirrors r g) (hp : r.machine.processors[i]? = some p)
  (hlane : r.lanes[i]? = some ⟨patience, none⟩)

include h hp hlane

/-- The worker finds that no frames are left, and returns. -/
theorem turn_finished (hframes : p.frames = []) :
    ∃ g', Group.Passes i g g' ∧ Mirrors (r.turn observer i) g' := by
  have hturn : Session.turn (laneObserver observer r.failure.isSome) 0
      ⟨p, r.machine.memory, r.observed, patience⟩ =
        (⟨p, r.machine.memory, r.observed, patience⟩, some .finished) :=
    Session.turn_of_le _ _ (by simp [Processor.depth, hframes])
  refine ⟨g.put i (.returned none), ?_, ?_⟩
  · have hpass : Group.Passes i (g.put i (.looping patience)) (g.put i (.returned none)) :=
      Group.passes_move (h.processor hp) (by simp [Group.moveFrom, Group.put, hframes])
    rwa [h.put_looping hlane] at hpass
  · rw [Round.turn_eq hp hlane hturn, Round.update_self hp hlane]
    exact h.close_finished observer hlane

/-- The worker finds that another has failed. It asks only when its patience is used up. -/
theorem turn_stopped (hstop : ∀ notes, observer.stop? notes = none) (hframes : p.frames ≠ [])
    (hpatience : patience = 0) (hfailed : r.failure ≠ none) :
    ∃ g', Group.Passes i g g' ∧ Mirrors (r.turn observer i) g' := by
  subst hpatience
  obtain ⟨f, rest, hframes⟩ := List.exists_cons_of_ne_nil hframes
  obtain ⟨failure, hfailure⟩ := Option.ne_none_iff_exists'.mp hfailed
  have hnext : Session.next (laneObserver observer r.failure.isSome) 0
      ⟨p, r.machine.memory, r.observed, 0⟩ = .error (.stopped .canceled) := by
    simp [Session.next, hframes, Processor.depth, laneObserver, hstop, hfailure]
  have hturn : Session.turn (laneObserver observer r.failure.isSome) 0
      ⟨p, r.machine.memory, r.observed, 0⟩ =
        (⟨p, r.machine.memory, r.observed, 0⟩, some (.stopped .canceled)) := by
    rw [Session.turn_eq, hnext]
  have hreports : g.reports ≠ [] := by rwa [Ne, h.reports_eq_nil_iff]
  have hinner : g.inner = some .canceled := by simp [h.inner, hfailure]
  refine ⟨(g.handIn (.interrupted .canceled)).put i (.returned (some (.stopped .canceled))), ?_, ?_⟩
  · have hpass : Group.Passes i (g.put i (.looping 0)) (g.put i (.ended (.stopped .canceled))) :=
      Group.passes_move (h.processor hp) (by simp [Group.moveFrom, Group.put, hframes, hinner])
    rw [h.put_looping hlane] at hpass
    exact hpass.trans (Group.passes_stopped (h.processor hp) h.outer hreports)
  · rw [Round.turn_eq hp hlane hturn, Round.update_self hp hlane]
    exact h.close_stopped hstop hlane hreports

/-- The worker takes a step; if that fails it reports it. How it came to take the step, asked or
not, is left to the caller. -/
theorem turn_executed {f : Frame} {rest : List Frame} (hframes : p.frames = f :: rest) (left : Nat)
    (hnext : Session.next (laneObserver observer r.failure.isSome) 0
      ⟨p, r.machine.memory, r.observed, patience⟩ = .ok (f, left))
    (hpass : Group.Passes i (g.put i (.looping patience)) (g.put i (.stepping left))) :
    ∃ g', Group.Passes i g g' ∧ Mirrors (r.turn observer i) g' := by
  rw [h.put_looping hlane] at hpass
  obtain ⟨hi, -⟩ := Array.getElem?_eq_some_iff.mp hp
  let s : Session σ := ⟨p, r.machine.memory, r.observed, patience⟩
  let after := s.execute (laneObserver observer r.failure.isSome) f left
  have hturn : s.turn (laneObserver observer r.failure.isSome) 0 =
      (after.1, after.2.map .fault) := by
    rw [Session.turn_eq, hnext]
  obtain ⟨hprocessor, hmemory, hfault⟩ :=
    Session.execute_step (laneObserver observer r.failure.isSome) (s := s) hframes left
  -- the run and the group after the step, before a failure is dealt with
  let next := r.update i after.1.processor after.1.memory after.1.observed ⟨after.1.patience, none⟩
  let stepped : Group := { g with machine := g.machine.advance i, taken := g.taken ++ [i] }
  have hmachine : stepped.machine = next.machine := by
    show g.machine.advance i = { r.machine with
      memory := after.1.memory,
      processors := r.machine.processors.setIfInBounds i after.1.processor }
    rw [h.machine, Machine.advance, hp, hprocessor, hmemory]
  have hmirrors : Mirrors next (stepped.put i (.looping after.1.patience)) :=
    h.put ⟨after.1.patience, none⟩ rfl Array.size_setIfInBounds hmachine rfl h.inner h.first rfl
  have hq : next.machine.processors[i]? = some after.1.processor := by
    show (r.machine.processors.setIfInBounds i after.1.processor)[i]? = _
    simp [hi]
  have hnextLane : next.lanes[i]? = some ⟨after.1.patience, none⟩ := by
    show (r.lanes.setIfInBounds i _)[i]? = _
    simp [h.size, hi]
  rw [Round.turn_eq hp hlane hturn]
  show ∃ g', Group.Passes i g g' ∧
    Mirrors ((after.2.map .fault).elim next (next.close observer i)) g'
  rw [hfault]
  cases hresult : (p.step r.machine.memory).2.2 with
  | none =>
      refine ⟨_, hpass.trans (Group.passes_move (h.processor hp) ?_), hmirrors⟩
      have hpatience :=
        Session.patience_execute (laneObserver observer r.failure.isSome) (s := s) hframes left
          hresult
      simp [Group.moveFrom, Group.put, stepped, h.machine, hresult, after, hpatience, s]
  | some fault =>
      have hfails : Group.Passes i (g.put i (.stepping left))
          (stepped.put i (.ended (.fault fault))) :=
        Group.passes_move (h.processor hp)
          (by simp [Group.moveFrom, Group.put, stepped, h.machine, hresult])
      have hq' : stepped.machine.processors[i]? = some after.1.processor := by rw [hmachine, hq]
      refine ⟨_, (hpass.trans hfails).trans (Group.passes_fault hq' fault), ?_⟩
      rw [← Group.afterFault_put]
      exact hmirrors.close_fault observer hnextLane hq fault

end

/-- A turn of a processor is what its worker does by itself. The cases are those of a turn: no
frames, told to stop, and a step with or without a question before. -/
theorem turn (hstop : ∀ notes, observer.stop? notes = none) (h : Mirrors r g) (i : Nat) :
    ∃ g', Group.Passes i g g' ∧ Mirrors (r.turn observer i) g' := by
  by_cases hlane : ∃ patience, r.lanes[i]? = some ⟨patience, none⟩
  swap
  · rw [Round.turn_of_ended fun patience hl => hlane ⟨patience, hl⟩]
    exact ⟨g, .refl i g, h⟩
  obtain ⟨patience, hlane⟩ := hlane
  obtain ⟨hi, -⟩ := Array.getElem?_eq_some_iff.mp hlane
  rw [h.size] at hi
  obtain ⟨p, hp⟩ : ∃ p, r.machine.processors[i]? = some p := ⟨_, Array.getElem?_eq_getElem hi⟩
  cases hframes : p.frames with
  | nil => exact h.turn_finished hp hlane hframes
  | cons f rest =>
      cases patience with
      | succ patience =>
          refine h.turn_executed hp hlane hframes patience ?_ ?_
          · simp [Session.next, hframes, Processor.depth]
          · exact Group.passes_move (h.processor hp) (by simp [Group.moveFrom, Group.put, hframes])
      | zero =>
          cases hfailure : r.failure with
          | some failure =>
              exact h.turn_stopped hp hlane hstop (by simp [hframes]) rfl (by simp [hfailure])
          | none =>
              refine h.turn_executed hp hlane hframes (checkInterval - 1) ?_ ?_
              · simp [Session.next, hframes, Processor.depth, laneObserver, hstop, hfailure]
              · have hinner : g.inner = none := by simp [h.inner, hfailure]
                exact Group.passes_move (h.processor hp)
                  (by simp [Group.moveFrom, Group.put, hframes, hinner])

/-- Run lemma: turns in any order are an interleaving, one in which the host does not intervene. -/
theorem foldl_turn (hstop : ∀ notes, observer.stop? notes = none) (h : Mirrors r g)
    (order : List Nat) :
    ∃ events, (∀ reason, .stop reason ∉ events) ∧
      Mirrors (order.foldl (·.turn observer) r) (g.follow events) := by
  induction order generalizing r g with
  | nil => exact ⟨[], by simp, h⟩
  | cons i rest ih =>
      obtain ⟨g', ⟨n, rfl⟩, hturn⟩ := h.turn hstop i
      obtain ⟨events, hevents, hrest⟩ := ih hturn
      refine ⟨List.replicate n (.move i) ++ events, ?_, ?_⟩
      · simp [List.mem_replicate, hevents]
      · rw [Group.follow_append]
        exact hrest

theorem play (hstop : ∀ notes, observer.stop? notes = none) (h : Mirrors r g) (fuel : Nat) :
    ∃ events, (∀ reason, .stop reason ∉ events) ∧
      Mirrors (r.play observer fuel) (g.follow events) := by
  induction fuel generalizing r g with
  | zero => exact ⟨[], by simp, h⟩
  | succ fuel ih =>
      rw [Round.play]
      split
      · exact ⟨[], by simp, h⟩
      · obtain ⟨front, hfront, hturns⟩ := h.foldl_turn hstop (List.range r.lanes.size)
        obtain ⟨back, hback, hrest⟩ := ih hturns
        refine ⟨front ++ back, ?_, ?_⟩
        · simp [hfront, hback]
        · rw [Group.follow_append]
          exact hrest

theorem start (m : Machine) (observed : σ) : Mirrors (m.start observed) (Group.ofMachine m) where
  size := Array.size_map
  machine := rfl
  outer := rfl
  inner := rfl
  first := rfl
  stages := by
    intro i lane hlane
    obtain ⟨p, -, rfl⟩ : ∃ p, m.processors[i]? = some p ∧ ({} : Lane) = lane := by
      simpa [Machine.start] using hlane
    rfl

end Mirrors

/-! ### Turns that end a run -/

namespace Round

/-- Every processor has a lane, and a lane that has ended says how. -/
structure Staffed (r : Round σ) : Prop where
  size : r.lanes.size = r.machine.processors.size
  ended : ∀ (i patience : Nat), r.lanes[i]? ≠ some ⟨patience, some .running⟩

/-- Lanes that go on have less patience than is given for each. The bound is a function, so that
turns can be counted lane by lane. -/
def Bounded (bound : Nat → Nat) (r : Round σ) : Prop :=
  ∀ i patience, r.lanes[i]? = some ⟨patience, none⟩ → patience < bound i

theorem failure_close (observer : Observer σ) {r : Round σ} {failure : ProcessorFailure}
    (h : r.failure = some failure) (i : Nat) (ending : Ending) :
    (r.close observer i ending).failure = some failure := by
  unfold close
  dsimp only
  cases ending with
  | finished | running => exact h
  | fault f =>
      dsimp only
      split <;> simp [h]
  | stopped reason =>
      dsimp only
      split
      · split <;> simp [h]
      · exact h

/-- Once there is a failure, a lane that goes on had patience left: one that is asked finds the
failure and ends. -/
theorem patience_pos_of_goes_on {observer : Observer σ} {s after : Session σ}
    (h : s.turn (laneObserver observer true) 0 = (after, none)) : 0 < s.patience := by
  obtain ⟨-, hended⟩ | ⟨-, reason, -, hended⟩ | ⟨f, rest, left, -, hleft, -⟩ :=
    Session.turn_alternatives (laneObserver observer true) 0 s
  · rw [h] at hended
    cases hended
  · rw [h] at hended
    cases hended
  · rcases hleft with hleft | ⟨-, hgo, -⟩
    · exact Nat.lt_of_lt_of_eq (Nat.succ_pos left) hleft.symm
    · simp [laneObserver] at hgo

/-- All that a turn can do to the lanes. It changes one at most; where that goes on, it has used up
some patience or was asked whether to stop, which it is not once a failure is there. A failure is
kept. -/
structure Turned (i : Nat) (r r' : Round σ) : Prop where
  staffed : r'.Staffed
  size : r'.lanes.size = r.lanes.size
  others : ∀ j, j ≠ i → r'.lanes[j]? = r.lanes[j]?
  failure : ∀ failure, r.failure = some failure → r'.failure = some failure
  own : ∀ after, r'.lanes[i]? = some ⟨after, none⟩ → ∃ before, r.lanes[i]? = some ⟨before, none⟩ ∧
    (after = 0 ∨ before = after + 1 ∨ before = 0 ∧ after = checkInterval - 1) ∧
    (r.failure.isSome = true → 0 < before)

theorem turned (observer : Observer σ) {r : Round σ} (hstaffed : r.Staffed) (i : Nat) :
    Turned i r (r.turn observer i) := by
  by_cases hlane : ∃ patience, r.lanes[i]? = some ⟨patience, none⟩
  swap
  · rw [turn_of_ended fun patience hl => hlane ⟨patience, hl⟩]
    exact ⟨hstaffed, rfl, fun _ _ => rfl, fun _ h => h, fun after h => absurd ⟨after, h⟩ hlane⟩
  obtain ⟨patience, hlane⟩ := hlane
  obtain ⟨hi, -⟩ := Array.getElem?_eq_some_iff.mp hlane
  obtain ⟨p, hp⟩ : ∃ p, r.machine.processors[i]? = some p :=
    ⟨_, Array.getElem?_eq_getElem (hstaffed.size ▸ hi)⟩
  let s : Session σ := ⟨p, r.machine.memory, r.observed, patience⟩
  obtain ⟨⟨after, ending⟩, hturn⟩ :
      ∃ result, s.turn (laneObserver observer r.failure.isSome) 0 = result := ⟨_, rfl⟩
  obtain ⟨hlanes, hprocessors⟩ := turn_set hp hlane hturn
  refine ⟨⟨?_, ?_⟩, ?_, ?_, ?_, ?_⟩
  · rw [hlanes, hprocessors, Array.size_setIfInBounds, Array.size_setIfInBounds, hstaffed.size]
  · intro j patience hrunning
    rw [hlanes, Array.getElem?_setIfInBounds] at hrunning
    by_cases hj : i = j
    · rw [if_pos hj, if_pos hi, Option.some.injEq, Lane.mk.injEq] at hrunning
      refine Session.turn_ne_running (laneObserver observer r.failure.isSome) 0 s ?_
      rw [hturn, hrunning.2]
    · rw [if_neg hj] at hrunning
      exact hstaffed.ended j patience hrunning
  · rw [hlanes, Array.size_setIfInBounds]
  · intro j hj
    rw [hlanes, Array.getElem?_setIfInBounds, if_neg hj.symm]
  · intro failure hfailure
    rw [turn_eq hp hlane hturn]
    cases ending with
    | none => exact hfailure
    | some ending =>
        refine failure_close observer ?_ i ending
        exact hfailure
  · intro left hleft
    rw [hlanes, Array.getElem?_setIfInBounds, if_pos rfl, if_pos hi, Option.some.injEq,
      Lane.mk.injEq] at hleft
    obtain ⟨rfl, rfl⟩ := hleft
    refine ⟨patience, hlane, (Session.patience_turn hturn).1, fun hfailed => ?_⟩
    rw [hfailed] at hturn
    exact patience_pos_of_goes_on hturn

/-- What all turns keep: the number of lanes, a failure, and that no lane waits too long to be
asked. -/
structure Continues (r r' : Round σ) : Prop where
  staffed : r'.Staffed
  size : r'.lanes.size = r.lanes.size
  failure : ∀ failure, r.failure = some failure → r'.failure = some failure
  patient : r.Bounded (fun _ => checkInterval) → r'.Bounded fun _ => checkInterval

theorem Continues.refl {r : Round σ} (h : r.Staffed) : Continues r r := ⟨h, rfl, fun _ => id, id⟩

theorem Continues.trans {r r' r'' : Round σ} (h : Continues r r') (h' : Continues r' r'') :
    Continues r r'' :=
  ⟨h'.staffed, h'.size.trans h.size, fun failure hf => h'.failure failure (h.failure failure hf),
    h'.patient ∘ h.patient⟩

/-- **Step lemma.** Once a failure is there, a turn uses up patience of a lane, or ends it. Other
lanes keep theirs. -/
theorem Turned.bounded {bound : Nat → Nat} {i : Nat} {r r' : Round σ} (h : Turned i r r')
    (hfailed : r.failure.isSome = true) (hbound : r.Bounded bound) :
    r'.Bounded fun j => bound j - [i].count j := by
  intro j patience hlane
  by_cases hj : j = i
  · subst hj
    obtain ⟨before, hlane, hpatience, hasked⟩ := h.own patience hlane
    have hless := hbound j before hlane
    have hpos := hasked hfailed
    simp only [List.count_singleton_self]
    omega
  · rw [h.others j hj] at hlane
    simpa [Ne.symm hj] using hbound j patience hlane

end Round

/-! ### Runs -/

/-- A run of a machine came about by events: the machine is the same afterwards, what is returned is
the same, and the workers whose runs have ended have returned for the same cause. -/
structure CameAbout (g : Group) (result : Result σ) : Prop where
  machine : g.machine = result.machine
  outcome : (result.outcome = .ok () ∧ g.outcome = .ok ()) ∨
    ∃ failure, result.outcome = .error (.failed failure) ∧ g.outcome = .error (.failed failure)
  size : result.endings.length = g.machine.processors.size
  endings : ∀ i ending, result.endings[i]? = some ending → ending ≠ .running →
    g.stages i = .returned ending.stoppage?

theorem CameAbout.returned {g : Group} {result : Result σ} (h : CameAbout g result)
    (hended : .running ∉ result.endings) : g.Returned := by
  intro i hi
  have hi' : i < result.endings.length := h.size ▸ hi
  refine ⟨_, h.endings i _ (List.getElem?_eq_getElem hi') ?_⟩
  intro hrunning
  exact hended (hrunning ▸ List.getElem_mem hi')

/-- What a run returns, by the round that it has come to. Lanes that have not ended when the fuel is
used up count as running. -/
theorem run_eq (observer : Observer σ) (fuel : Nat) {m : Machine} (hsome : m.processors ≠ #[])
    (observed : σ) :
    let r := (m.start observed).play observer fuel
    m.run observer fuel observed =
      ⟨r.machine, r.observed, r.lanes.toList.map fun lane => lane.ending.getD .running,
        r.failure.elim (.ok ()) fun failure => .error (.failed failure)⟩ := by
  rw [run, if_neg (by simpa using hsome)]
  dsimp only
  cases ((m.start observed).play observer fuel).failure <;> rfl

/-- Three processors: one returns, one divides by zero in its second step, and one has a frame left
when it is told to stop. -/
def dividing : Machine where
  memory := .region (.ofBytes "code" 0 [0x49, 0x4A, 0x03, 12, 13, 1] ⟨true, false⟩)
  processors :=
    #[(Processor.ofOptions 0 0).enter 0 [], (Processor.ofOptions 0 0).enter 1 [1, 0],
      ((Processor.ofOptions 0 0).enter 0 []).enter 0 []]
  headers := .empty 1

end Machine

end RegisterVM
