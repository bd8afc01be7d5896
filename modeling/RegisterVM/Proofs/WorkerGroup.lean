import RegisterVM.Proofs.FaultAtomicity
import RegisterVM.Proofs.Interleaving

/-!
# A group of workers

Every processor of a machine has a worker that runs it. Workers go on by themselves, each from one
point to the next at which it could be held up: it looks whether there are frames left and, if it is
time to, whether it should stop; it takes a step; once its run has failed it decides what to report,
looks up the source location of one frame after the other, hands its report in, and, if that was the
first, tells all workers to stop. `move` is one such point, and a sequence of events is an arbitrary
interleaving of them with each other and with a host that may stop the machine as a whole.

`Sound` is what all interleavings have in common as long as the host does not: a worker is told to
stop only after a report was handed in, and only a fault can have led to the first one.
-/

namespace RegisterVM

/-! ### Steps that fail -/

/-- A step that fails leaves the frames where they are, and says where that is. Only the note of the
last instruction in the innermost frame has changed. -/
theorem Processor.step_fault {p : Processor} {m : Memory} {f : Frame} {rest : List Frame}
    {fault : Fault} (hframes : p.frames = f :: rest) (h : (p.step m).2.2 = some fault) :
    (p.step m).1.frames = { f with last := f.pc } :: rest ∧ fault.pc = f.pc := by
  have hfloor : 0 < p.depth := by
    rw [depth, hframes]
    exact Nat.succ_pos _
  let s : Session Unit := ⟨p, m, (), 0⟩
  obtain ⟨hprocessor, -, hending⟩ := Session.turn_of_lt .none 0 (s := s) hfloor rfl
  rw [h] at hending
  obtain ⟨f', rest', n, hframes', hmemory, hafter, hcause⟩ :=
    Session.turn_fault_inv (Prod.ext rfl hending)
  obtain ⟨rfl, rfl⟩ := List.cons.inj (hframes'.symm.trans hframes)
  refine ⟨?_, ?_⟩
  · rw [← hprocessor]
    exact (Session.stuck_of_noteFault hframes' hmemory hafter).frames
  · rcases hcause with hfetch | ⟨inst, -, hplan⟩
    · exact fetch_fault_pc hfetch
    · exact (plan_fault (congrArg Processor.frames (p.markStart_eq hframes')) hplan).1

namespace Machine

/-- Every step that a processor takes along a schedule is completed. The steps of others may
fail. -/
def CompletesAll (m : Machine) (i : Nat) : List Nat → Prop
  | [] => True
  | j :: rest => (j = i → (m.completion? j).isSome = true) ∧ (m.advance j).CompletesAll i rest

theorem completesAll_append {m : Machine} {i : Nat} {front back : List Nat} :
    m.CompletesAll i (front ++ back) ↔
      m.CompletesAll i front ∧ (m.follow front).CompletesAll i back := by
  induction front generalizing m with
  | nil => simp [CompletesAll]
  | cons j rest ih => simp only [List.cons_append, CompletesAll, ih, follow_cons, and_assoc]

theorem completesAll_concat {m : Machine} {i j : Nat} {schedule : List Nat} :
    m.CompletesAll i (schedule ++ [j]) ↔
      m.CompletesAll i schedule ∧ (j = i → ((m.follow schedule).completion? j).isSome = true) := by
  simp [completesAll_append, CompletesAll]

/-- A processor has faulted: its last step along a schedule failed, all others were completed, and
it stands where the step failed, with its frames. Others may have gone on since. -/
def Faulted (m : Machine) (schedule : List Nat) (i : Nat) (fault : Fault) (p : Processor) : Prop :=
  ∃ front back before f rest, schedule = front ++ i :: back ∧ i ∉ back ∧ m.CompletesAll i front ∧
    (m.follow front).processors[i]? = some before ∧
    (before.step (m.follow front).memory).2.2 = some fault ∧ before.frames = f :: rest ∧
    p.frames = { f with last := f.pc } :: rest ∧ fault.pc = f.pc

/-! ### Workers -/

/-- What a worker hands in. A worker that has run to the end hands in nothing. -/
inductive Report where
  | failed (failure : ProcessorFailure)
  /-- It was told to stop, and nothing is wrong with its processor. -/
  | interrupted (reason : StopReason)
  deriving DecidableEq, Repr

/-- How far a worker is. Between two stages a worker does one thing that others could notice. -/
inductive Stage where
  /-- About to look whether there are frames left; so many steps may pass before it asks to stop. -/
  | looping (patience : Nat)
  /-- About to take a step. -/
  | stepping (patience : Nat)
  /-- About to decide what to report. -/
  | ended (cause : Stoppage)
  /-- About to look up the location of the next frame that is left. -/
  | tracing (cause : Stoppage) (found : List TraceElement) (left : List Frame)
  /-- About to hand in a report. -/
  | reporting (cause : Stoppage) (report : Report)
  /-- About to tell all workers to stop. -/
  | cancelling (cause : Stoppage)
  /-- Done; without a cause if it ran to the end. -/
  | returned (cause : Option Stoppage)

/-- The workers of a machine. What they share are the machine, the reports and the word to stop. -/
structure Group where
  machine : Machine
  stages : Nat → Stage := fun _ => .looping 0
  /-- The reports in the order in which they were handed in. -/
  reports : List Report := []
  /-- Why the host has stopped the machine, once it has. -/
  outer : Option StopReason := none
  /-- Why workers are to stop, once they are. -/
  inner : Option StopReason := none
  /-- Which processors have taken steps, in order. -/
  taken : List Nat := []

/-- What can happen next. The host may stop the machine at any time. -/
inductive Event where
  | move (worker : Nat)
  | stop (reason : StopReason)
  deriving DecidableEq

namespace Group

/-- The workers of a machine, all at the start of their runs. -/
def ofMachine (m : Machine) : Group := { machine := m }

/-- Brings a worker to a stage. -/
def put (g : Group) (i : Nat) (stage : Stage) : Group :=
  { g with stages := Function.update g.stages i stage }

/-- What the worker of a processor does next. Only a step touches memory, and only looking up
locations touches the headers. -/
def moveFrom (g : Group) (i : Nat) (p : Processor) : Stage → Group
  | .looping patience =>
      g.put i <|
        if p.frames.isEmpty then .returned none
        else if 0 < patience then .stepping (patience - 1)
        else g.inner.elim (.stepping (checkInterval - 1)) fun reason => .ended (.stopped reason)
  | .stepping patience =>
      let after := p.step g.machine.memory
      { g with machine := g.machine.advance i, taken := g.taken ++ [i] }.put i <|
        after.2.2.elim (.looping (if after.1.depth = p.depth then patience else 0)) fun fault =>
          .ended (.fault fault)
  | .ended cause =>
      g.put i <|
        if cause = .stopped .canceled ∧ g.outer = none then
          .reporting cause (.interrupted .canceled)
        else .tracing cause [] p.frames
  | .tracing cause found [] => g.put i (.reporting cause (.failed ⟨i, cause, found⟩))
  | .tracing cause found (f :: left) =>
      let located := f.locate g.machine.memory g.machine.headers
      { g with machine := { g.machine with headers := located.2 } }.put i <|
        .tracing cause (found ++ [located.1]) left
  | .reporting cause report =>
      { g with reports := g.reports ++ [report] }.put i <|
        if g.reports.isEmpty then .cancelling cause else .returned (some cause)
  | .cancelling cause =>
      { g with inner := g.inner.or (some .canceled) }.put i (.returned (some cause))
  | .returned _ => g

/-- Lets a worker go on to its next point. Where there is no processor there is no worker. -/
def move (g : Group) (i : Nat) : Group :=
  g.machine.processors[i]?.elim g fun p => g.moveFrom i p (g.stages i)

/-- Lets something happen. -/
def apply (g : Group) : Event → Group
  | .move i => g.move i
  | .stop reason => { g with outer := g.outer.or (some reason), inner := g.inner.or (some reason) }

/-- Lets things happen in order. -/
def follow (g : Group) (events : List Event) : Group := events.foldl apply g

/-- Whether every worker is done. The group as a whole returns only then. -/
def Returned (g : Group) : Prop :=
  ∀ i < g.machine.processors.size, ∃ cause, g.stages i = .returned cause

/-- What the group as a whole returns: the first report that was handed in, if there is one. It need
not be that of the first fault. -/
def outcome (g : Group) : Except Report Unit := g.reports.head?.elim (.ok ()) .error

theorem follow_append (g : Group) (front back : List Event) :
    g.follow (front ++ back) = (g.follow front).follow back := List.foldl_append

theorem follow_concat (g : Group) (events : List Event) (e : Event) :
    g.follow (events ++ [e]) = (g.follow events).apply e := by
  rw [follow_append]
  rfl

theorem move_eq {g : Group} {i : Nat} {p : Processor} (h : g.machine.processors[i]? = some p) :
    g.move i = g.moveFrom i p (g.stages i) := by
  rw [move, h]
  rfl

theorem move_of_none {g : Group} {i : Nat} (h : g.machine.processors[i]? = none) :
    g.move i = g := by
  rw [move, h]
  rfl

end Group

/-! ### What holds in every interleaving -/

/-- The location of a frame, as it was found at some moment. Memory may have changed since, and
headers may have come and gone. -/
def Located (m : Machine) (events : List Event) (f : Frame) (e : TraceElement) : Prop :=
  ∃ front, front <+: events ∧
    e = (f.locate ((Group.ofMachine m).follow front).machine.memory
      ((Group.ofMachine m).follow front).machine.headers).1

theorem Located.extend {m : Machine} {events : List Event} {f : Frame} {e : TraceElement}
    (h : Located m events f e) (more : List Event) : Located m (events ++ more) f e := by
  obtain ⟨front, hfront, he⟩ := h
  exact ⟨front, hfront.trans (List.prefix_append events more), he⟩

/-- How a processor stands whose run has ended for a cause. A worker that was told to stop was so
after a report was handed in. -/
def EndedBy (m : Machine) (g : Group) (i : Nat) (p : Processor) : Stoppage → Prop
  | .fault fault => m.Faulted g.taken i fault p
  | .stopped reason =>
      m.CompletesAll i g.taken ∧ p.frames ≠ [] ∧ reason = .canceled ∧ g.reports ≠ []

/-- How a processor stands whose worker is at a stage. This is the invariant of a single worker;
`Sound` has it for all of them. -/
def StandsAt (m : Machine) (events : List Event) (g : Group) (i : Nat)
    (p : Processor) : Stage → Prop
  | .looping _ => m.CompletesAll i g.taken
  | .stepping _ => m.CompletesAll i g.taken ∧ p.frames ≠ []
  | .ended cause => EndedBy m g i p cause
  | .tracing cause found left => EndedBy m g i p cause ∧ (∃ fault, cause = .fault fault) ∧
      ∃ front, p.frames = front ++ left ∧ List.Forall₂ (Located m events) front found
  | .reporting cause report => EndedBy m g i p cause ∧
      ((∃ reason, cause = .stopped reason) ∨ ∃ fault trace, cause = .fault fault ∧
        report = .failed ⟨i, cause, trace⟩ ∧ List.Forall₂ (Located m events) p.frames trace)
  | .cancelling cause => EndedBy m g i p cause ∧ g.reports ≠ []
  | .returned none => m.CompletesAll i g.taken ∧ p.frames = []
  | .returned (some cause) => EndedBy m g i p cause ∧ g.reports ≠ []

/-- What the first report says: its processor has faulted, and its worker is past reporting. -/
def FirstReport (m : Machine) (events : List Event) (g : Group) (report : Report) : Prop :=
  ∃ i fault trace p, report = .failed ⟨i, .fault fault, trace⟩ ∧ g.machine.processors[i]? = some p ∧
    (g.stages i = .cancelling (.fault fault) ∨ g.stages i = .returned (some (.fault fault))) ∧
    List.Forall₂ (Located m events) p.frames trace

/-- What all interleavings have in common while the host does not stop the machine. The machine is
where whole steps have brought it, and no worker is told to stop before a report is there. -/
structure Sound (m : Machine) (events : List Event) (g : Group) : Prop where
  state : g.machine.SameState (m.follow g.taken)
  outer : g.outer = none
  inner : ∀ reason, g.inner = some reason → reason = .canceled ∧ g.reports ≠ []
  stands : ∀ i p, g.machine.processors[i]? = some p → StandsAt m events g i p (g.stages i)
  first : ∀ report, g.reports.head? = some report → FirstReport m events g report

section

variable {m : Machine} {events : List Event} {g g' : Group} {i : Nat} {p : Processor}

theorem completesAll_extend {more : List Nat} (h : m.CompletesAll i g.taken) (hmore : i ∉ more) :
    m.CompletesAll i (g.taken ++ more) := by
  refine completesAll_append.mpr ⟨h, ?_⟩
  generalize m.follow g.taken = n
  induction more generalizing n with
  | nil => trivial
  | cons j rest ih =>
      rw [List.mem_cons, not_or] at hmore
      exact ⟨fun hj => absurd hj.symm hmore.1, ih hmore.2 (n.advance j)⟩

theorem Faulted.extend {schedule more : List Nat} {fault : Fault} (h : m.Faulted schedule i fault p)
    (hmore : i ∉ more) : m.Faulted (schedule ++ more) i fault p := by
  obtain ⟨front, back, before, f, rest, rfl, hback, hrest⟩ := h
  refine ⟨front, back ++ more, before, f, rest, by simp, ?_, hrest⟩
  simp [hback, hmore]

/-- What holds of a worker keeps holding while others go on. They take no steps of its processor,
and reports are not taken back. -/
theorem EndedBy.extend {cause : Stoppage} (h : EndedBy m g i p cause) (g' : Group) {more : List Nat}
    (htaken : g'.taken = g.taken ++ more) (hmore : i ∉ more)
    (hreports : g.reports ≠ [] → g'.reports ≠ []) :
    EndedBy m g' i p cause := by
  cases cause with
  | fault fault =>
      rw [EndedBy, htaken]
      exact Faulted.extend h hmore
  | stopped reason =>
      obtain ⟨hall, hframes, hreason, hreported⟩ := h
      refine ⟨?_, hframes, hreason, hreports hreported⟩
      rw [htaken]
      exact completesAll_extend hall hmore

theorem StandsAt.extend {stage : Stage} (h : StandsAt m events g i p stage) (e : Event) (g' : Group)
    {more : List Nat} (htaken : g'.taken = g.taken ++ more) (hmore : i ∉ more)
    (hreports : g.reports ≠ [] → g'.reports ≠ []) :
    StandsAt m (events ++ [e]) g' i p stage := by
  have hall (h : m.CompletesAll i g.taken) : m.CompletesAll i g'.taken := by
    rw [htaken]
    exact completesAll_extend h hmore
  have hended {cause : Stoppage} (h : EndedBy m g i p cause) : EndedBy m g' i p cause :=
    h.extend g' htaken hmore hreports
  have hlocated {frames : List Frame} {trace : List TraceElement}
      (h : List.Forall₂ (Located m events) frames trace) :
      List.Forall₂ (Located m (events ++ [e])) frames trace := h.imp fun _ _ hf => hf.extend [e]
  cases stage with
  | looping patience => exact hall h
  | stepping patience => exact ⟨hall h.1, h.2⟩
  | ended cause => exact hended h
  | tracing cause found left =>
      obtain ⟨hcause, hfault, front, hfront, htrace⟩ := h
      exact ⟨hended hcause, hfault, front, hfront, hlocated htrace⟩
  | reporting cause report =>
      obtain ⟨hcause, hstopped | ⟨fault, trace, hfault, hreport, htrace⟩⟩ := h
      · exact ⟨hended hcause, .inl hstopped⟩
      · exact ⟨hended hcause, .inr ⟨fault, trace, hfault, hreport, hlocated htrace⟩⟩
  | cancelling cause => exact ⟨hended h.1, hreports h.2⟩
  | returned cause =>
      cases cause with
      | none => exact ⟨hall h.1, h.2⟩
      | some cause => exact ⟨hended h.1, hreports h.2⟩

theorem FirstReport.extend {report : Report} (h : FirstReport m events g report) (e : Event)
    (hprocessors : ∀ j, j ≠ i → g'.machine.processors[j]? = g.machine.processors[j]?)
    (hstages : ∀ j, j ≠ i → g'.stages j = g.stages j)
    (hself : ∀ fault, g.stages i = .cancelling (.fault fault) ∨
      g.stages i = .returned (some (.fault fault)) →
      g'.machine.processors[i]? = g.machine.processors[i]? ∧
        g'.stages i = .returned (some (.fault fault))) :
    FirstReport m (events ++ [e]) g' report := by
  obtain ⟨j, fault, trace, p, hreport, hp, hstage, htrace⟩ := h
  have htrace' := htrace.imp fun _ _ hf => Located.extend hf [e]
  by_cases hj : j = i
  · subst hj
    obtain ⟨hsame, hreturned⟩ := hself fault hstage
    exact ⟨j, fault, trace, p, hreport, hsame.trans hp, .inr hreturned, htrace'⟩
  · refine ⟨j, fault, trace, p, hreport, (hprocessors j hj).trans hp, ?_, htrace'⟩
    rwa [hstages j hj]

/-- A worker that goes on to a stage leaves the others where they are. The moves below differ in
what they have to show of the worker itself. -/
theorem Sound.put (h : Sound m events g) (e : Event) {stage : Stage} (more : List Nat)
    (hstate : g'.machine.SameState (m.follow g'.taken)) (houter : g'.outer = g.outer)
    (hinner : ∀ reason, g'.inner = some reason → reason = .canceled ∧ g'.reports ≠ [])
    (hprocessors : ∀ j, j ≠ i → g'.machine.processors[j]? = g.machine.processors[j]?)
    (hstages : g'.stages = g.stages) (htaken : g'.taken = g.taken ++ more)
    (hmore : ∀ j ∈ more, j = i) (hreports : g.reports ≠ [] → g'.reports ≠ [])
    (hself : ∀ q, g'.machine.processors[i]? = some q → StandsAt m (events ++ [e]) g' i q stage)
    (hfirst : ∀ report, g'.reports.head? = some report →
      FirstReport m (events ++ [e]) (g'.put i stage) report) :
    Sound m (events ++ [e]) (g'.put i stage) where
  state := hstate
  outer := houter.trans h.outer
  inner := hinner
  stands := by
    intro j q hq
    by_cases hj : j = i
    · subst hj
      have hstage : (g'.put j stage).stages j = stage := Function.update_self ..
      rw [hstage]
      exact hself q hq
    · have hstage : (g'.put i stage).stages j = g.stages j := by
        rw [← hstages]
        exact Function.update_of_ne hj ..
      rw [hstage]
      have hsame := h.stands j q ((hprocessors j hj).symm.trans hq)
      exact hsame.extend e (g'.put i stage) htaken (fun hmem => hj (hmore j hmem)) hreports
  first := hfirst

/-- A worker before its report goes on and touches nothing but, at most, the header cache. -/
theorem Sound.goOn (h : Sound m events g) (hp : g.machine.processors[i]? = some p) (e : Event)
    (headers : Debug.HeaderCache) {stage : Stage}
    (hbefore : ∀ cause, g.stages i ≠ .cancelling cause ∧ g.stages i ≠ .returned (some cause))
    (hself : StandsAt m (events ++ [e]) g i p stage) :
    Sound m (events ++ [e]) ({ g with machine := { g.machine with headers } }.put i stage) := by
  refine h.put e [] ⟨h.state.memory, h.state.processors⟩ rfl h.inner (fun _ _ => rfl) rfl
    (List.append_nil _).symm (by simp) id ?_ ?_
  · intro q hq
    obtain rfl := Option.some.inj (hp.symm.trans hq)
    exact hself
  · intro report hreport
    refine (h.first report hreport).extend (i := i) e (fun _ _ => rfl)
      (fun j hj => Function.update_of_ne hj ..) ?_
    rintro fault (hstage | hstage)
    · exact absurd hstage (hbefore _).1
    · exact absurd hstage (hbefore _).2

end

namespace Sound

variable {m : Machine} {events : List Event} {g : Group} {i : Nat} {p : Processor}

theorem ofMachine (m : Machine) : Sound m [] (Group.ofMachine m) where
  state := ⟨rfl, rfl⟩
  outer := rfl
  inner := by
    intro reason h
    cases h
  stands := by
    intro i p _
    trivial
  first := by
    intro report h
    cases h

/-- A worker that looks at its frames returns, takes a step next, or finds that it was told to
stop. -/
theorem looping (h : Sound m events g) (hp : g.machine.processors[i]? = some p) {patience : Nat}
    (hstage : g.stages i = .looping patience) :
    Sound m (events ++ [.move i]) (g.moveFrom i p (.looping patience)) := by
  have hall : m.CompletesAll i g.taken := by simpa [hstage, StandsAt] using h.stands i p hp
  refine h.goOn hp _ g.machine.headers (by simp [hstage]) ?_
  by_cases hframes : p.frames = []
  · simpa [hframes, StandsAt] using hall
  · by_cases hpatience : 0 < patience
    · simpa [hframes, hpatience, StandsAt] using hall
    · cases hinner : g.inner with
      | none => simpa [hframes, hpatience, StandsAt] using hall
      | some reason =>
          -- it is told to stop, so a report is there
          obtain ⟨hreason, hreports⟩ := h.inner reason hinner
          simpa [hframes, hpatience, StandsAt, EndedBy, hreason, hreports] using hall

/-- A worker takes a step; if it fails, the processor has faulted. -/
theorem stepping (h : Sound m events g) (hp : g.machine.processors[i]? = some p) {patience : Nat}
    (hstage : g.stages i = .stepping patience) :
    Sound m (events ++ [.move i]) (g.moveFrom i p (.stepping patience)) := by
  obtain ⟨hall, hframes⟩ : m.CompletesAll i g.taken ∧ p.frames ≠ [] := by
    simpa [hstage, StandsAt] using h.stands i p hp
  obtain ⟨f, rest, hframes⟩ := List.exists_cons_of_ne_nil hframes
  have hp' : (m.follow g.taken).processors[i]? = some p := by rw [← h.state.processors, hp]
  have hadvance : (g.machine.advance i).processors[i]? = some (p.step g.machine.memory).1 :=
    processors_advance_self _ hp
  refine h.put _ [i] ?_ rfl h.inner (fun j hj => processors_advance_of_ne _ hj) rfl rfl (by simp) id
    ?_ ?_
  · show (g.machine.advance i).SameState (m.follow (g.taken ++ [i]))
    rw [follow_append]
    exact h.state.advance i
  · intro q hq
    obtain rfl := Option.some.inj (hadvance.symm.trans hq)
    cases hfault : (p.step g.machine.memory).2.2 with
    | some fault =>
        obtain ⟨hafter, hpc⟩ := Processor.step_fault hframes hfault
        rw [h.state.memory] at hfault
        exact ⟨g.taken, [], p, f, rest, rfl, by simp, hall, hp', hfault, hframes, hafter, hpc⟩
    | none =>
        refine completesAll_concat.mpr ⟨hall, fun _ => ?_⟩
        rw [Machine.completion?, hp', ← h.state.memory]
        obtain ⟨c, hcompletes⟩ := Processor.completes_of_step hframes hfault
        rw [Option.bind_some, hcompletes.completion?_eq, Option.isSome_some]
  · intro report hreport
    refine (h.first report hreport).extend (i := i) _ (fun j hj => processors_advance_of_ne _ hj)
      (fun j hj => Function.update_of_ne hj ..) ?_
    simp [hstage]

/-- A worker whose run has ended decides what to report. Without the host, one that was told to stop
has nothing to report but that. -/
theorem ended (h : Sound m events g) (hp : g.machine.processors[i]? = some p) {cause : Stoppage}
    (hstage : g.stages i = .ended cause) :
    Sound m (events ++ [.move i]) (g.moveFrom i p (.ended cause)) := by
  have hended : EndedBy m g i p cause := by simpa [hstage, StandsAt] using h.stands i p hp
  refine h.goOn hp _ g.machine.headers (by simp [hstage]) ?_
  cases cause with
  | fault fault =>
      rw [if_neg (by simp)]
      exact ⟨hended, ⟨fault, rfl⟩, [], rfl, .nil⟩
  | stopped reason =>
      -- the host has not stopped the machine, so this is for another's failure
      obtain ⟨hall, hframes, rfl, hreports⟩ := hended
      rw [if_pos ⟨rfl, h.outer⟩]
      exact ⟨⟨hall, hframes, rfl, hreports⟩, .inl ⟨_, rfl⟩⟩

/-- A worker looks up one more frame, or has looked up all. -/
theorem tracing (hevents : g = (Group.ofMachine m).follow events) (h : Sound m events g)
    (hp : g.machine.processors[i]? = some p) {cause : Stoppage} {found : List TraceElement}
    {left : List Frame} (hstage : g.stages i = .tracing cause found left) :
    Sound m (events ++ [.move i]) (g.moveFrom i p (.tracing cause found left)) := by
  have hstands := h.stands i p hp
  rw [hstage] at hstands
  obtain ⟨hended, ⟨fault, hfault⟩, front, hfront, htrace⟩ := hstands
  have htrace' := htrace.imp fun _ _ hf => Located.extend hf [.move i]
  cases left with
  | nil =>
      refine h.goOn hp _ g.machine.headers (by simp [hstage]) ?_
      rw [List.append_nil] at hfront
      exact ⟨hended, .inr ⟨fault, found, hfault, rfl, hfront ▸ htrace'⟩⟩
  | cons f left =>
      refine h.goOn hp _ _ (by simp [hstage])
        ⟨hended, ⟨fault, hfault⟩, front ++ [f], by simp [hfront], ?_⟩
      refine List.rel_append htrace' (.cons ⟨events, List.prefix_append _ _, ?_⟩ .nil)
      rw [← hevents]

/-- A worker hands in its report. If it is the first, the worker was not told to stop, so its
processor has faulted. -/
theorem reporting (h : Sound m events g) (hp : g.machine.processors[i]? = some p) {cause : Stoppage}
    {report : Report} (hstage : g.stages i = .reporting cause report) :
    Sound m (events ++ [.move i]) (g.moveFrom i p (.reporting cause report)) := by
  have hstands := h.stands i p hp
  rw [hstage] at hstands
  obtain ⟨hended, hreport⟩ := hstands
  refine h.put _ [] h.state rfl ?_ (fun _ _ => rfl) rfl (List.append_nil _).symm (by simp) (by simp)
    ?_ ?_
  · intro reason hreason
    exact ⟨(h.inner reason hreason).1, by simp⟩
  · intro q hq
    obtain rfl := Option.some.inj (hp.symm.trans hq)
    have hended' :=
      hended.extend { g with reports := g.reports ++ [report] } (List.append_nil _).symm (by simp)
      (by simp)
    by_cases hreports : g.reports = []
    · simpa [hreports, StandsAt] using hended'
    · simpa [hreports, StandsAt] using hended'
  · intro first hfirst
    by_cases hreports : g.reports = []
    · -- A worker that was told to stop finds a report already there, so this one has faulted.
      obtain rfl : report = first := by simpa [hreports] using hfirst
      obtain ⟨reason, rfl⟩ | ⟨fault, trace, rfl, rfl, htrace⟩ := hreport
      · exact absurd hreports hended.2.2.2
      · refine ⟨i, fault, trace, p, rfl, hp, .inl ?_, htrace.imp fun _ _ hf => hf.extend _⟩
        simp [Group.put, hreports]
    · have hold : g.reports.head? = some first := by
        rwa [List.head?_append_of_ne_nil _ hreports] at hfirst
      refine (h.first first hold).extend (i := i) _ (fun _ _ => rfl)
        (fun j hj => Function.update_of_ne hj ..) ?_
      simp [hstage]

/-- A worker tells all to stop, after its report. -/
theorem cancelling (h : Sound m events g) (hp : g.machine.processors[i]? = some p)
    {cause : Stoppage} (hstage : g.stages i = .cancelling cause) :
    Sound m (events ++ [.move i]) (g.moveFrom i p (.cancelling cause)) := by
  have hstands := h.stands i p hp
  rw [hstage] at hstands
  obtain ⟨hended, hreports⟩ := hstands
  refine h.put _ [] h.state rfl ?_ (fun _ _ => rfl) rfl (List.append_nil _).symm (by simp) id ?_ ?_
  · intro reason hreason
    refine ⟨?_, hreports⟩
    cases hinner : g.inner with
    | none => simpa [hinner, eq_comm] using hreason
    | some other =>
        obtain rfl : other = reason := by simpa [hinner] using hreason
        exact (h.inner other hinner).1
  · intro q hq
    obtain rfl := Option.some.inj (hp.symm.trans hq)
    exact ⟨hended, hreports⟩
  · intro report hreport
    refine (h.first report hreport).extend (i := i) _ (fun _ _ => rfl)
      (fun j hj => Function.update_of_ne hj ..) ?_
    simp [hstage, Group.put]

theorem idle (h : Sound m events g) (e : Event) : Sound m (events ++ [e]) g where
  state := h.state
  outer := h.outer
  inner := h.inner
  stands := fun i p hp => (h.stands i p hp).extend e g (List.append_nil _).symm (by simp) id
  first := by
    intro report hreport
    obtain ⟨i, fault, trace, p, hreport, hp, hstage, htrace⟩ := h.first report hreport
    exact ⟨i, fault, trace, p, hreport, hp, hstage, htrace.imp fun _ _ hf => hf.extend [e]⟩

/-- Step lemma: whatever worker goes on, and wherever it is. -/
theorem move (hevents : g = (Group.ofMachine m).follow events) (h : Sound m events g) (i : Nat) :
    Sound m (events ++ [.move i]) (g.move i) := by
  cases hp : g.machine.processors[i]? with
  | none =>
      rw [Group.move_of_none hp]
      exact h.idle _
  | some p =>
      rw [Group.move_eq hp]
      cases hstage : g.stages i with
      | looping patience => exact h.looping hp hstage
      | stepping patience => exact h.stepping hp hstage
      | ended cause => exact h.ended hp hstage
      | tracing cause found left => exact tracing hevents h hp hstage
      | reporting cause report => exact h.reporting hp hstage
      | cancelling cause => exact h.cancelling hp hstage
      | returned cause => exact h.idle _

/-- Run lemma: every interleaving of the workers, as long as the host does not stop the machine. -/
theorem follow (m : Machine) {events : List Event} (h : ∀ reason, .stop reason ∉ events) :
    Sound m events ((Group.ofMachine m).follow events) := by
  induction events using List.reverseRecOn with
  | nil => exact ofMachine m
  | append_singleton events e ih =>
      rw [Group.follow_concat]
      have hbefore := ih fun reason hmem => h reason (List.mem_append_left _ hmem)
      cases e with
      | move i => exact move rfl hbefore i
      | stop reason => exact absurd (by simp) (h reason)

end Sound

/-! ### What a group returns -/

/-- A report is that of a processor that has faulted: it names the processor and the fault, and has
the location of each of its frames. -/
def Culprit (m : Machine) (events : List Event) (g : Group) (report : Report) : Prop :=
  ∃ i fault trace p, report = .failed ⟨i, .fault fault, trace⟩ ∧ g.machine.processors[i]? = some p ∧
    g.stages i = .returned (some (.fault fault)) ∧ m.Faulted g.taken i fault p ∧
    List.Forall₂ (Located m events) p.frames trace

/-- What is true of a machine all of whose workers are done, and of what they return as a group.
Each processor has left its frames, has faulted, or was stopped between two steps. -/
structure Reported (m : Machine) (events : List Event) (g : Group) : Prop where
  /-- The machine is where whole steps have brought it. -/
  state : g.machine.SameState (m.follow g.taken)
  ok_iff : g.outcome = .ok () ↔ ∀ (i : Nat) (p : Processor),
    g.machine.processors[i]? = some p → p.frames = []
  culprit : ∀ report, g.outcome = .error report → Culprit m events g report
  finished : ∀ (i : Nat) (p : Processor), g.machine.processors[i]? = some p →
    g.stages i = .returned none →
    m.CompletesAll i g.taken ∧ p.frames = []
  faulted : ∀ i p fault, g.machine.processors[i]? = some p →
    g.stages i = .returned (some (.fault fault)) → m.Faulted g.taken i fault p
  stopped : ∀ (i : Nat) (p : Processor) reason, g.machine.processors[i]? = some p →
    g.stages i = .returned (some (.stopped reason)) → m.CompletesAll i g.taken ∧ p.frames ≠ []

theorem Faulted.frames_ne_nil {m : Machine} {schedule : List Nat} {i : Nat} {fault : Fault}
    {p : Processor} (h : m.Faulted schedule i fault p) : p.frames ≠ [] := by
  obtain ⟨front, back, before, f, rest, -, -, -, -, -, -, hframes, -⟩ := h
  rw [hframes]
  exact List.cons_ne_nil _ _

/-- Once all workers are done, all this is read off what they have in common. -/
theorem Sound.reported {m : Machine} {events : List Event} {g : Group} (h : Sound m events g)
    (hreturned : g.Returned) : Reported m events g := by
  have hstage {i : Nat} {p : Processor} (hp : g.machine.processors[i]? = some p) :
      ∃ cause, g.stages i = .returned cause := hreturned i (Array.getElem?_eq_some_iff.mp hp).1
  have hstands {i : Nat} {p : Processor} {stage : Stage} (hp : g.machine.processors[i]? = some p)
      (hstage : g.stages i = stage) : StandsAt m events g i p stage := hstage ▸ h.stands i p hp
  have hculprit : ∀ report, g.outcome = .error report → Culprit m events g report := by
    intro report houtcome
    have hfirst : g.reports.head? = some report := by
      cases hhead : g.reports.head? with
      | none => simp [Group.outcome, hhead] at houtcome
      | some first => simpa [Group.outcome, hhead] using houtcome
    obtain ⟨i, fault, trace, p, hreport, hp, hpast, htrace⟩ := h.first report hfirst
    obtain ⟨cause, hcause⟩ := hstage hp
    have hfault : g.stages i = .returned (some (.fault fault)) := by
      rcases hpast with hpast | hpast
      · rw [hcause] at hpast
        cases hpast
      · exact hpast
    exact ⟨i, fault, trace, p, hreport, hp, hfault, (hstands hp hfault).1, htrace⟩
  exact {
    state := h.state
    ok_iff := by
      constructor
      · intro houtcome i p hp
        have hnone : g.reports = [] := by
          rw [← List.head?_eq_none_iff]
          cases hhead : g.reports.head? with
          | none => rfl
          | some report => simp [Group.outcome, hhead] at houtcome
        obtain ⟨_ | cause, hcause⟩ := hstage hp
        · exact (hstands hp hcause).2
        · exact absurd hnone (hstands hp hcause).2
      · intro hall
        cases houtcome : g.outcome with
        | ok => rfl
        | error report =>
            obtain ⟨i, fault, trace, p, -, hp, -, hfaulted, -⟩ := hculprit report houtcome
            exact absurd (hall i p hp) hfaulted.frames_ne_nil
    culprit := hculprit
    finished := fun i p hp hcause => hstands hp hcause
    faulted := fun i p fault hp hcause => (hstands hp hcause).1
    stopped := fun i p reason hp hcause => ⟨(hstands hp hcause).1.1, (hstands hp hcause).1.2.1⟩ }

end Machine

end RegisterVM
