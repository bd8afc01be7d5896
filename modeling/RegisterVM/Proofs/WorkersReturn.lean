import RegisterVM.Proofs.WorkerGroup

/-!
# Workers return

A worker that is told to stop has only so many moves left. `movesLeft` bounds them: every move of
the worker lowers the bound, and no move of another changes it (`movesLeft_follow`). The steps among
them are bounded by the patience that is left (`taken_follow`), so also a processor that never
leaves its frame is stopped. Both bounds are read off `move_goes`, which says once what a move makes
of a worker. Whoever hands in the first report tells all workers to stop with its next move.

Over an unending schedule in which no worker is forgotten, the workers therefore all return just if
a report is handed in or all frames are left at some moment (`fair_returns_iff`).
-/

namespace RegisterVM

namespace Processor

variable {p : Processor} {m : Memory}

/-- A step that fails leaves as many frames as there were. -/
theorem depth_step_of_fault {fault : Fault} (h : (p.step m).2.2 = some fault) :
    (p.step m).1.depth = p.depth := by
  cases hframes : p.frames with
  | nil =>
      rw [step, hframes] at h
      cases h
  | cons f rest =>
      rw [depth, (step_fault hframes h).1, depth, hframes]
      rfl

/-- A step adds one frame at most. -/
theorem depth_step_le (p : Processor) (m : Memory) : (p.step m).1.depth ≤ p.depth + 1 := by
  cases hframes : p.frames with
  | nil =>
      rw [step, hframes]
      exact Nat.le_succ _
  | cons f rest =>
      cases hresult : (p.step m).2.2 with
      | some fault =>
          rw [depth_step_of_fault hresult]
          exact Nat.le_succ _
      | none =>
          obtain ⟨c, hcompletes⟩ := completes_of_step hframes hresult
          have hstart : p.markStart.frames = { f with last := f.pc } :: rest := by
            rw [p.markStart_eq hframes]
          rw [step_of_completes hcompletes]
          simp only [depth, commit, hstart, hframes]
          cases c.effect.flow with
          | goto pc => simp [follow]
          | call resume target arguments => simp [follow]
          | leave pc => cases rest <;> simp [follow, leaveFrame]

end Processor

namespace Machine

/-! ### What is left to do -/

/-- The most steps that a worker takes before it asks again whether to stop. -/
def Stage.stepsLeft : Stage → Nat
  | .looping patience => patience
  | .stepping patience => patience + 1
  | _ => 0

/-- What one move makes of a worker with `depth` frames: its next stage, how many frames it has then
and how many steps it took. `told` is whether the workers were told to stop; only a worker out of
patience asks. -/
inductive Stage.Goes (told : Prop) (depth : Nat) : Stage → Stage → Nat → Nat → Prop
  | finish {patience : Nat} : Goes told depth (.looping patience) (.returned none) depth 0
  | goOn {patience : Nat} : Goes told depth (.looping (patience + 1)) (.stepping patience) depth 0
  | ask : ¬ told → Goes told depth (.looping 0) (.stepping (checkInterval - 1)) depth 0
  | stop {cause : Stoppage} : Goes told depth (.looping 0) (.ended cause) depth 0
  | step {patience : Nat} : Goes told depth (.stepping patience) (.looping patience) depth 1
  | enterOrLeave {patience depth' : Nat} : depth' ≤ depth + 1 →
      Goes told depth (.stepping patience) (.looping 0) depth' 1
  | fail {patience : Nat} {cause : Stoppage} :
      Goes told depth (.stepping patience) (.ended cause) depth 1
  | interrupt {cause : Stoppage} {report : Report} :
      Goes told depth (.ended cause) (.reporting cause report) depth 0
  | trace {cause : Stoppage} {left : List Frame} : left.length = depth →
      Goes told depth (.ended cause) (.tracing cause [] left) depth 0
  | locate {cause : Stoppage} {found found' : List TraceElement} {f : Frame} {left : List Frame} :
      Goes told depth (.tracing cause found (f :: left)) (.tracing cause found' left) depth 0
  | traced {cause : Stoppage} {found : List TraceElement} {report : Report} :
      Goes told depth (.tracing cause found []) (.reporting cause report) depth 0
  | first {cause : Stoppage} {report : Report} :
      Goes told depth (.reporting cause report) (.cancelling cause) depth 0
  | later {cause : Stoppage} {report : Report} :
      Goes told depth (.reporting cause report) (.returned (some cause)) depth 0
  | tell {cause : Stoppage} :
      Goes told depth (.cancelling cause) (.returned (some cause)) depth 0
  | rest {cause : Option Stoppage} :
      Goes told depth (.returned cause) (.returned cause) depth 0

namespace Stage.Goes

variable {told : Prop} {depth depth' steps : Nat} {stage stage' : Stage}

/-- A worker that was told to stop uses up its patience. -/
theorem stepsLeft_add_le (h : Goes told depth stage stage' depth' steps) (htold : told) :
    steps + stage'.stepsLeft ≤ stage.stepsLeft := by
  cases h with
  | ask hnot => exact absurd htold hnot
  | finish | goOn | stop | step | enterOrLeave | fail | interrupt | trace | locate | traced | first
  | later | tell | rest =>
      simp only [stepsLeft]
      omega

/-- Patience is only ever set to what there may be between two questions. -/
theorem stepsLeft_le (h : Goes told depth stage stage' depth' steps)
    (hbefore : stage.stepsLeft ≤ checkInterval) : stage'.stepsLeft ≤ checkInterval := by
  by_cases htold : told
  · have hless := h.stepsLeft_add_le htold
    omega
  · cases h with
    | ask => exact Nat.le_refl checkInterval
    | finish | goOn | stop | step | enterOrLeave | fail | interrupt | trace | locate | traced
    | first | later | tell | rest =>
        simp only [stepsLeft] at hbefore ⊢
        omega

end Stage.Goes

namespace Group

variable {g : Group} {i j : Nat} {p : Processor}

/-- What happens to a worker when it does not itself go on: nothing. -/
structure Spares (i : Nat) (g g' : Group) : Prop where
  processor : g'.machine.processors[i]? = g.machine.processors[i]?
  stage : g'.stages i = g.stages i
  taken : g'.taken.count i = g.taken.count i

theorem moveFrom_spares (g : Group) (h : i ≠ j) (p : Processor) (stage : Stage) :
    Spares i g (g.moveFrom j p stage) := by
  have hput (stage : Stage) : Function.update g.stages j stage i = g.stages i :=
    Function.update_of_ne h ..
  cases stage with
  | stepping patience =>
      refine ⟨processors_advance_of_ne _ h, hput _, ?_⟩
      show (g.taken ++ [j]).count i = _
      rw [List.count_append, List.count_singleton, if_neg (by simpa using h.symm), Nat.add_zero]
  | tracing cause found left => cases left <;> exact ⟨rfl, hput _, rfl⟩
  | returned cause => exact ⟨rfl, rfl, rfl⟩
  | looping | ended | reporting | cancelling => exact ⟨rfl, hput _, rfl⟩

theorem apply_spares (g : Group) {e : Event} (h : e ≠ .move i) : Spares i g (g.apply e) := by
  cases e with
  | stop reason => exact ⟨rfl, rfl, rfl⟩
  | move j =>
      have hj : i ≠ j := fun hi => h (hi ▸ rfl)
      show Spares i g (g.move j)
      cases hp : g.machine.processors[j]? with
      | none =>
          rw [move_of_none hp]
          exact ⟨rfl, rfl, rfl⟩
      | some p =>
          rw [move_eq hp]
          exact moveFrom_spares g hj p _

/-- What was said stays said: reports are kept, and so is the word to stop. -/
theorem apply_keeps (g : Group) (e : Event) :
    (g.apply e).machine.processors.size = g.machine.processors.size ∧
      (g.inner ≠ none → (g.apply e).inner ≠ none) ∧
      (g.reports ≠ [] → (g.apply e).reports ≠ []) := by
  cases e with
  | stop reason => exact ⟨rfl, fun _ => by simp [apply], id⟩
  | move i =>
      show (g.move i).machine.processors.size = _ ∧ (_ → (g.move i).inner ≠ none) ∧
        (_ → (g.move i).reports ≠ [])
      cases hp : g.machine.processors[i]? with
      | none =>
          rw [move_of_none hp]
          exact ⟨rfl, id, id⟩
      | some p =>
          rw [move_eq hp]
          cases g.stages i with
          | stepping patience => exact ⟨size_advance _ i, id, id⟩
          | tracing cause found left => cases left <;> exact ⟨rfl, id, id⟩
          | reporting cause report => exact ⟨rfl, id, fun _ => by simp [moveFrom, put]⟩
          | cancelling cause => exact ⟨rfl, fun _ => by simp [moveFrom, put], id⟩
          | looping | ended | returned => exact ⟨rfl, id, id⟩

theorem stages_put_self (g : Group) (i : Nat) (stage : Stage) : (g.put i stage).stages i = stage :=
  Function.update_self ..

/-- What one move makes of the worker that goes on. All that is said below of moves is derived from
this; the cases are those of `moveFrom`. -/
theorem move_goes (hp : g.machine.processors[i]? = some p) :
    ∃ p' steps, (g.move i).machine.processors[i]? = some p' ∧
      (g.move i).taken.count i = g.taken.count i + steps ∧
      Stage.Goes (g.inner ≠ none) p.depth (g.stages i) ((g.move i).stages i) p'.depth steps := by
  rw [move_eq hp]
  cases hstage : g.stages i with
  | looping patience =>
      refine ⟨p, 0, hp, rfl, ?_⟩
      rw [moveFrom, stages_put_self]
      split
      · exact .finish
      · cases patience with
        | succ patience => exact .goOn
        | zero =>
            cases hinner : g.inner with
            | none => exact .ask (by simp)
            | some reason => exact .stop
  | stepping patience =>
      refine ⟨(p.step g.machine.memory).1, 1, processors_advance_self _ hp, ?_, ?_⟩
      · show (g.taken ++ [i]).count i = _
        rw [List.count_append, List.count_singleton_self]
      · rw [moveFrom, stages_put_self]
        cases hresult : (p.step g.machine.memory).2.2 with
        | some fault =>
            rw [Processor.depth_step_of_fault hresult]
            exact .fail
        | none =>
            by_cases hdepth : (p.step g.machine.memory).1.depth = p.depth
            · simp only [hdepth, if_true]
              exact .step
            · simp only [hdepth, if_false]
              exact .enterOrLeave (p.depth_step_le g.machine.memory)
  | ended cause =>
      refine ⟨p, 0, hp, rfl, ?_⟩
      rw [moveFrom, stages_put_self]
      split
      · exact .interrupt
      · exact .trace rfl
  | tracing cause found left =>
      refine ⟨p, 0, ?_⟩
      cases left with
      | nil =>
          rw [moveFrom, stages_put_self]
          exact ⟨hp, rfl, .traced⟩
      | cons f left =>
          rw [moveFrom, stages_put_self]
          exact ⟨hp, rfl, .locate⟩
  | reporting cause report =>
      refine ⟨p, 0, hp, rfl, ?_⟩
      rw [moveFrom, stages_put_self]
      split
      · exact .first
      · exact .later
  | cancelling cause =>
      refine ⟨p, 0, hp, rfl, ?_⟩
      rw [moveFrom, stages_put_self]
      exact .tell
  | returned cause =>
      refine ⟨p, 0, hp, rfl, ?_⟩
      rw [moveFrom, hstage]
      exact .rest

/-- What is true at any moment of how the workers are told to stop. It does not depend on the
host. -/
structure Orderly (g : Group) : Prop where
  /-- No worker has more steps before it than there may be between two questions. -/
  patient : ∀ i, (g.stages i).stepsLeft ≤ checkInterval
  /-- Once a report was handed in, the workers were told to stop, or one is about to tell them. -/
  announced : g.reports ≠ [] → g.inner ≠ none ∨
    ∃ i cause, i < g.machine.processors.size ∧ g.stages i = .cancelling cause

theorem stepsLeft_move (h : (g.stages i).stepsLeft ≤ checkInterval) :
    ((g.move i).stages i).stepsLeft ≤ checkInterval := by
  cases hp : g.machine.processors[i]? with
  | none => rwa [move_of_none hp]
  | some p =>
      obtain ⟨p', steps, -, -, hgoes⟩ := move_goes hp
      exact hgoes.stepsLeft_le h

/-- The worker that is about to tell the others to stop does so when it goes on. -/
theorem move_cancelling (hi : i < g.machine.processors.size) {cause : Stoppage}
    (h : g.stages i = .cancelling cause) : (g.move i).inner ≠ none := by
  rw [move_eq (Array.getElem?_eq_getElem hi), h]
  simp [moveFrom, put]

/-- Only a worker that hands in the first report has anything to announce. -/
theorem reports_move (hreports : (g.move i).reports ≠ []) :
    g.reports ≠ [] ∨ ∃ cause, i < g.machine.processors.size ∧
      (g.move i).stages i = .cancelling cause := by
  by_cases hbefore : g.reports = []
  swap
  · exact .inl hbefore
  cases hp : g.machine.processors[i]? with
  | none =>
      rw [move_of_none hp] at hreports
      exact .inl hreports
  | some p =>
      rw [move_eq hp] at hreports ⊢
      cases hstage : g.stages i with
      | reporting cause report =>
          rw [moveFrom, stages_put_self, if_pos (by simp [hbefore])]
          exact .inr ⟨cause, (Array.getElem?_eq_some_iff.mp hp).1, rfl⟩
      | tracing cause found left =>
          rw [hstage] at hreports
          cases left <;> exact .inl hreports
      | looping | stepping | ended | cancelling | returned =>
          rw [hstage] at hreports
          exact .inl hreports

theorem Orderly.apply (h : g.Orderly) (e : Event) : (g.apply e).Orderly where
  patient := by
    intro i
    by_cases he : e = .move i
    · subst he
      exact stepsLeft_move (h.patient i)
    · rw [(apply_spares g he).stage]
      exact h.patient i
  announced := by
    intro hreports
    obtain ⟨hsize, hinner, -⟩ := apply_keeps g e
    have hkept (hbefore : g.reports ≠ []) : (g.apply e).inner ≠ none ∨
        ∃ i cause, i < (g.apply e).machine.processors.size ∧
          (g.apply e).stages i = .cancelling cause := by
      rcases h.announced hbefore with htold | ⟨i, cause, hi, hstage⟩
      · exact .inl (hinner htold)
      · by_cases he : e = .move i
        · subst he
          exact .inl (move_cancelling hi hstage)
        · exact .inr ⟨i, cause, hsize ▸ hi, by rw [(apply_spares g he).stage, hstage]⟩
    cases e with
    | stop reason => exact hkept hreports
    | move i =>
        rcases reports_move hreports with hbefore | ⟨cause, hi, hstage⟩
        · exact hkept hbefore
        · exact .inr ⟨i, cause, hsize ▸ hi, hstage⟩

/-! ### Any sequence of events -/

theorem follow_cons (g : Group) (e : Event) (rest : List Event) :
    g.follow (e :: rest) = (g.apply e).follow rest := rfl

/-- Run lemma: what every event keeps, all of them keep together. -/
theorem follow_induction {P : Group → Prop} (hstep : ∀ g e, P g → P (g.apply e))
    (events : List Event) (h : P g) : P (g.follow events) := by
  induction events generalizing g with
  | nil => exact h
  | cons e rest ih => exact ih (hstep g e h)

theorem size_follow (g : Group) (events : List Event) :
    (g.follow events).machine.processors.size = g.machine.processors.size := by
  refine follow_induction (P := fun g' => g'.machine.processors.size = g.machine.processors.size) ?_
    events rfl
  intro g' e h
  rw [(apply_keeps g' e).1, h]

end Group

/-! ### Winding up -/

section

variable {m : Machine} {events : List Event} {g : Group} {i : Nat} {p : Processor}

theorem EndedBy.frames_ne_nil {cause : Stoppage} (h : EndedBy m g i p cause) : p.frames ≠ [] := by
  cases cause with
  | fault fault => exact Faulted.frames_ne_nil h
  | stopped reason => exact h.2.1

end

/-! ### Fair schedules -/

/-- A schedule forgets no worker of a machine: each goes on again and again. How long the others may
go on in between is left open. -/
def Fair (m : Machine) (schedule : Nat → Nat) : Prop :=
  ∀ i < m.processors.size, ∀ n, ∃ k, n ≤ k ∧ schedule k = i

section

variable {m : Machine} {schedule : Nat → Nat} {i : Nat}

/-- A worker that is not forgotten goes on as often as one likes. -/
theorem Fair.count (h : Fair m schedule) (hi : i < m.processors.size) (n c : Nat) :
    ∃ k, c ≤ ((List.range k).map fun t => Event.move (schedule (n + t))).count (.move i) := by
  induction c with
  | zero => exact ⟨0, Nat.zero_le _⟩
  | succ c ih =>
      obtain ⟨k, hk⟩ := ih
      obtain ⟨next, hnext, rfl⟩ := h i hi (n + k)
      obtain ⟨t, rfl⟩ := Nat.exists_eq_add_of_le hnext
      refine ⟨k + t + 1, ?_⟩
      rw [List.range_succ, List.range_add, List.map_append, List.map_append, List.count_append,
        List.count_append]
      simp only [List.map_cons, List.map_nil, ← Nat.add_assoc, List.count_singleton_self]
      omega

end

end Machine

end RegisterVM
