import RegisterVM.Proofs.CallFrames
import RegisterVM.Proofs.FaultAtomicity

/-!
# Runs in segments

A run that is stopped, or that comes down to a higher floor, has taken whole steps of the run to a
lower floor that nobody interrupts. What is local to a run, the patience until the next question
whether to stop, decides only where a run is cut. So resuming leads to the end that the
uninterrupted run comes to, with the same frames, memory, cache and counts.

A run that ended with a fault is another matter. Running again fails again and counts one more trap,
so there the second run ends as one run alone does only up to the counts of traps and refills.

Runs are compared through `Steps` and `Concludes`, relations on processor and memory in which
nothing of a session is left. Each kind of run has one lemma that leads into them and one that leads
back.
-/

namespace RegisterVM

namespace Processor

/-- Some number of steps without a fault, each taken above the floor. They are steps of the
processor and know nothing of observers or patience, so runs that are cut differently can be
compared through them. -/
inductive Steps (floor : Nat) : Nat → Processor → Memory → Processor → Memory → Prop
  | refl (p : Processor) (m : Memory) : Steps floor 0 p m p m
  | cons {count : Nat} {p p' q : Processor} {m m' n : Memory} : floor < p.depth →
      p.step m = (p', m', none) → Steps floor count p' m' q n → Steps floor (count + 1) p m q n

/-- How steps above a floor end if nothing stops them: at the floor, or with a fault. There is one
outcome at most, since a step has one result. -/
inductive Concludes (floor : Nat) : Processor → Memory → Processor → Memory → Ending → Prop
  | finished {p : Processor} {m : Memory} : p.depth ≤ floor → Concludes floor p m p m .finished
  | fault {p q : Processor} {m n : Memory} {fault : Fault} : floor < p.depth →
      p.step m = (q, n, some fault) → Concludes floor p m q n (.fault fault)
  | cons {p p' q : Processor} {m m' n : Memory} {ending : Ending} : floor < p.depth →
      p.step m = (p', m', none) → Concludes floor p' m' q n ending → Concludes floor p m q n ending

section

variable {floor count : Nat} {p q r : Processor} {m n o : Memory}

theorem Steps.trans {more : Nat} (h : Steps floor count p m q n) (h' : Steps floor more q n r o) :
    Steps floor (count + more) p m r o := by
  induction h with
  | refl => rwa [Nat.zero_add]
  | cons hdepth hstep _ ih =>
      rw [Nat.add_right_comm]
      exact .cons hdepth hstep (ih h')

/-- Steps above a floor are above every lower floor. A run to a higher floor is therefore the
beginning of the run to a lower one. -/
theorem Steps.lower {low : Nat} (hlow : low ≤ floor) (h : Steps floor count p m q n) :
    Steps low count p m q n := by
  induction h with
  | refl => exact .refl _ _
  | cons hdepth hstep _ ih => exact .cons (Nat.lt_of_le_of_lt hlow hdepth) hstep ih

/-- Steps along the way do not change the outcome. Both directions matter: an outcome from the
middle is one from the start, and an outcome from the start is still ahead in the middle. -/
theorem Steps.concludes_iff (h : Steps floor count p m q n) {ending : Ending} :
    Concludes floor q n r o ending ↔ Concludes floor p m r o ending := by
  induction h with
  | refl => exact Iff.rfl
  | cons hdepth hstep _ ih =>
      rw [ih]
      constructor
      · exact .cons hdepth hstep
      · intro hconcludes
        cases hconcludes with
        | finished hfloor => omega
        | fault _ hfault =>
            rw [hstep] at hfault
            cases hfault
        | cons _ hstep' hrest =>
            rw [hstep] at hstep'
            cases hstep'
            exact hrest

/-- A fault above a floor is above every lower floor. Coming to the floor is not, which is why this
is about faults only. -/
theorem Concludes.lower {low : Nat} (hlow : low ≤ floor) {fault : Fault}
    (h : Concludes floor p m q n (.fault fault)) : Concludes low p m q n (.fault fault) := by
  generalize hending : Ending.fault fault = ending at h
  induction h with
  | finished => cases hending
  | fault hdepth hstep =>
      cases hending
      exact .fault (Nat.lt_of_le_of_lt hlow hdepth) hstep
  | cons hdepth hstep _ ih => exact .cons (Nat.lt_of_le_of_lt hlow hdepth) hstep (ih hending)

end

/-- A step without a fault is counted, once. What else it counts depends on the operation. -/
theorem steps_step {p q : Processor} {m n : Memory} (hdepth : 0 < p.depth)
    (h : p.step m = (q, n, none)) : q.stats.steps = p.stats.steps + 1 := by
  obtain ⟨f, rest, hframes⟩ := List.exists_cons_of_length_pos hdepth
  obtain ⟨c, hcompletes⟩ := completes_of_step hframes (by rw [h])
  rw [step_of_completes hcompletes] at h
  cases h
  simp only [withCache, commit, p.markStart_eq hframes]
  cases c.effect.flow <;> rfl

theorem Steps.stats {floor count : Nat} {p q : Processor} {m n : Memory}
    (h : Steps floor count p m q n) : q.stats.steps = p.stats.steps + UInt64.ofNat count := by
  induction h with
  | refl => simp
  | cons hdepth hstep _ ih =>
      rw [ih, steps_step (by omega) hstep, UInt64.ofNat_add, UInt64.add_assoc, UInt64.add_comm 1]
      rfl

end Processor

namespace Session

open Processor (Steps Concludes)

variable {σ : Type} {observer : Observer σ} {floor : Nat}

/-! ### Runs and steps -/

/-- All that a turn above the floor can be: it is stopped before it does anything, or it is a step
of the processor, failed or not. -/
theorem turn_inv (observer : Observer σ) {s : Session σ} (hdepth : floor < s.processor.depth) :
    (∃ reason, s.turn observer floor = (s, some (.stopped reason))) ∨
    (∃ after fault, s.turn observer floor = (after, some (.fault fault)) ∧
      s.processor.step s.memory = (after.processor, after.memory, some fault)) ∨
    ∃ after, s.turn observer floor = (after, none) ∧
      s.processor.step s.memory = (after.processor, after.memory, none) := by
  rcases turn_cases observer hdepth with hstopped | ⟨hprocessor, hmemory, hending⟩
  · exact .inl hstopped
  · cases hturn : s.turn observer floor with
    | mk after ending =>
        rw [hturn] at hprocessor hmemory hending
        cases hfault : (s.processor.step s.memory).2.2 with
        | some fault =>
            rw [hfault] at hending
            obtain rfl : ending = some (.fault fault) := hending
            exact .inr (.inl ⟨after, fault, rfl, by rw [hprocessor, hmemory, ← hfault]⟩)
        | none =>
            rw [hfault] at hending
            obtain rfl : ending = none := hending
            exact .inr (.inr ⟨after, rfl, by rw [hprocessor, hmemory, ← hfault]⟩)

/-- A run that did not fail has taken whole steps. That it was stopped, or ran out of turns, does
not show in its steps. -/
theorem steps_run (fuel : Nat) {s final : Session σ} {ending : Ending}
    (h : s.run observer floor fuel = (final, ending)) (hending : ∀ fault, ending ≠ .fault fault) :
    ∃ count, Steps floor count s.processor s.memory final.processor final.memory := by
  induction fuel generalizing s with
  | zero =>
      cases h
      exact ⟨0, .refl _ _⟩
  | succ fuel ih =>
      rcases Nat.lt_or_ge floor s.processor.depth with hdepth | hdepth
      · obtain ⟨reason, hturn⟩ | ⟨after, fault, hturn, -⟩ | ⟨after, hturn, hstep⟩ :=
          turn_inv observer hdepth
        · rw [run, hturn] at h
          cases h
          exact ⟨0, .refl _ _⟩
        · rw [run, hturn] at h
          cases h
          exact absurd rfl (hending fault)
        · rw [run_of_turn hturn] at h
          obtain ⟨count, hsteps⟩ := ih h
          exact ⟨count + 1, .cons hdepth hstep hsteps⟩
      · rw [run_of_le hdepth] at h
        cases h
        exact ⟨0, .refl _ _⟩

/-- A run that came to its floor or failed has the outcome of its steps, by induction on the
turns. -/
theorem concludes_run (fuel : Nat) {s final : Session σ} {ending : Ending}
    (h : s.run observer floor fuel = (final, ending)) (hrunning : ending ≠ .running)
    (hstopped : ∀ reason, ending ≠ .stopped reason) :
    Concludes floor s.processor s.memory final.processor final.memory ending := by
  induction fuel generalizing s with
  | zero =>
      cases h
      exact absurd rfl hrunning
  | succ fuel ih =>
      rcases Nat.lt_or_ge floor s.processor.depth with hdepth | hdepth
      · obtain ⟨reason, hturn⟩ | ⟨after, fault, hturn, hstep⟩ | ⟨after, hturn, hstep⟩ :=
          turn_inv observer hdepth
        · rw [run, hturn] at h
          cases h
          exact absurd rfl (hstopped reason)
        · rw [run, hturn] at h
          cases h
          exact .fault hdepth hstep
        · rw [run_of_turn hturn] at h
          exact .cons hdepth hstep (ih h)
      · rw [run_of_le hdepth] at h
        cases h
        exact .finished hdepth

/-- A run comes to the outcome of its steps, unless it is stopped before. The turns needed are as
many as there are steps, so fuel is never what ends it. -/
theorem run_of_concludes (observer : Observer σ) {s : Session σ} {q : Processor} {n : Memory}
    {ending : Ending} (h : Concludes floor s.processor s.memory q n ending) :
    (∃ fuel final, s.run observer floor fuel = (final, ending) ∧ final.processor = q ∧
      final.memory = n) ∨
    ∃ fuel final reason, s.run observer floor fuel = (final, .stopped reason) := by
  generalize hp : s.processor = p at h
  generalize hm : s.memory = m at h
  induction h generalizing s with
  | finished hfloor =>
      subst hp hm
      exact .inl ⟨1, s, run_of_le hfloor 0, rfl, rfl⟩
  | fault hdepth hstep =>
      subst hp hm
      obtain ⟨reason, hturn⟩ | ⟨after, fault, hturn, hstep'⟩ | ⟨after, hturn, hstep'⟩ :=
        turn_inv observer hdepth
      · exact .inr ⟨1, s, reason, by rw [run, hturn]⟩
      · rw [hstep] at hstep'
        cases hstep'
        exact .inl ⟨1, after, by rw [run, hturn], rfl, rfl⟩
      · rw [hstep] at hstep'
        cases hstep'
  | cons hdepth hstep _ ih =>
      subst hp hm
      obtain ⟨reason, hturn⟩ | ⟨after, fault, hturn, hstep'⟩ | ⟨after, hturn, hstep'⟩ :=
        turn_inv observer hdepth
      · exact .inr ⟨1, s, reason, by rw [run, hturn]⟩
      · rw [hstep] at hstep'
        cases hstep'
      · rw [hstep] at hstep'
        cases hstep'
        obtain ⟨fuel, final, hrun, hfinal⟩ | ⟨fuel, final, reason, hrun⟩ := ih rfl rfl
        · exact .inl ⟨fuel + 1, final, (run_of_turn hturn fuel).trans hrun, hfinal⟩
        · exact .inr ⟨fuel + 1, final, reason, (run_of_turn hturn fuel).trans hrun⟩

/-! ### Segments -/

/-- A run that starts afresh comes to an end. To start afresh is to have no patience, as every run
of a host does, so the observer is asked before the first step. -/
structure Ends (observer : Observer σ) (notes : σ) (floor : Nat) (p : Processor) (m : Memory)
    (q : Processor) (n : Memory) (ending : Ending) : Prop where
  ended : ending ≠ .running
  reached : ∃ fuel final, run observer floor fuel ⟨p, m, notes, 0⟩ = (final, ending) ∧
    final.processor = q ∧ final.memory = n

/-- Runs one after another, each with an observer and a floor of its own at or above `floor`, none
of which failed. Observers of different segments need not have anything in common, not even their
states. -/
inductive Interrupted (floor : Nat) : Processor → Memory → Processor → Memory → Prop
  | start (p : Processor) (m : Memory) : Interrupted floor p m p m
  | segment {σ : Type} {observer : Observer σ} {notes : σ} {high : Nat} {p q r : Processor}
      {m n o : Memory} {ending : Ending} : Interrupted floor p m q n → floor ≤ high →
      Ends observer notes high q n r o ending → (∀ fault, ending ≠ .fault fault) →
      Interrupted floor p m r o

section

variable {p q r : Processor} {m n o : Memory} {ending : Ending} {notes : σ}

theorem Ends.concludes (h : Ends observer notes floor p m q n ending)
    (hstopped : ∀ reason, ending ≠ .stopped reason) : Concludes floor p m q n ending := by
  obtain ⟨hrunning, fuel, final, hrun, rfl, rfl⟩ := h
  exact concludes_run fuel hrun hrunning hstopped

theorem concludes_ne_running (h : Concludes floor p m q n ending) : ending ≠ .running := by
  induction h with
  | finished => simp
  | fault => simp
  | cons _ _ _ ih => exact ih

theorem ends_of_concludes (observer : Observer σ) (notes : σ) (h : Concludes floor p m q n ending) :
    Ends observer notes floor p m q n ending ∨
      ∃ q' n' reason, Ends observer notes floor p m q' n' (.stopped reason) := by
  obtain ⟨fuel, final, hrun, hfinal⟩ | ⟨fuel, final, reason, hrun⟩ :=
    run_of_concludes observer (s := ⟨p, m, notes, 0⟩) h
  · exact .inl ⟨concludes_ne_running h, fuel, final, hrun, hfinal⟩
  · exact .inr ⟨_, _, reason, by simp, fuel, final, hrun, rfl, rfl⟩

/-- Nothing stops a run that nobody watches, so each of its turns is a step. -/
theorem turn_none_inv {s : Session Unit} (hdepth : floor < s.processor.depth) :
    (∃ after fault, s.turn .none floor = (after, some (.fault fault)) ∧
      s.processor.step s.memory = (after.processor, after.memory, some fault)) ∨
    ∃ after, s.turn .none floor = (after, none) ∧
      s.processor.step s.memory = (after.processor, after.memory, none) := by
  obtain ⟨reason, hturn⟩ | hstep := turn_inv .none hdepth
  · obtain ⟨-, -, hending⟩ :=
      turn_of_lt .none floor hdepth (rfl : Observer.none.stop? s.observed = none)
    rw [hturn] at hending
    cases hfault : (s.processor.step s.memory).2.2 <;> simp [hfault] at hending
  · exact hstep

theorem run_none_ne_stopped {fuel : Nat} {s final : Session Unit} {ending : Ending}
    (h : s.run .none floor fuel = (final, ending)) (reason : StopReason) :
    ending ≠ .stopped reason := by
  induction fuel generalizing s with
  | zero =>
      cases h
      simp
  | succ fuel ih =>
      rcases Nat.lt_or_ge floor s.processor.depth with hdepth | hdepth
      · obtain ⟨after, fault, hturn, -⟩ | ⟨after, hturn, -⟩ := turn_none_inv hdepth
        · rw [run, hturn] at h
          cases h
          simp
        · rw [run_of_turn hturn] at h
          exact ih h
      · rw [run_of_le hdepth] at h
        cases h
        simp

/-- A run that nobody watches ends as its steps do. This turns the statements about segments, which
are about runs, into statements about steps. -/
theorem ends_none_iff : Ends .none () floor p m q n ending ↔ Concludes floor p m q n ending := by
  constructor
  · intro h
    obtain ⟨-, fuel, final, hrun, -⟩ := id h
    exact h.concludes (run_none_ne_stopped hrun)
  · intro h
    obtain hends | ⟨q', n', reason, -, fuel, final, hrun, -⟩ := ends_of_concludes .none () h
    · exact hends
    · exact absurd rfl (run_none_ne_stopped hrun reason)

/-- A run that nobody watches takes the steps there are to take, whatever patience it starts
with. -/
theorem run_of_steps {count : Nat} (h : Steps floor count p m q n) (patience : Nat) :
    ∃ left, run .none floor count ⟨p, m, (), patience⟩ = (⟨q, n, (), left⟩, .running) := by
  induction h generalizing patience with
  | refl => exact ⟨patience, rfl⟩
  | @cons count p p' q m m' n hdepth hstep _ ih =>
      obtain ⟨after, fault, hturn, hstep'⟩ | ⟨after, hturn, hstep'⟩ :=
        turn_none_inv (s := ⟨p, m, (), patience⟩) hdepth
      · rw [hstep] at hstep'
        cases hstep'
      · rw [hstep] at hstep'
        cases hstep'
        obtain ⟨left, hrun⟩ := ih after.patience
        exact ⟨left, (run_of_turn hturn count).trans hrun⟩

/-- All the segments together have taken whole steps above the lowest floor. -/
theorem Interrupted.steps (h : Interrupted floor p m q n) : ∃ count, Steps floor count p m q n := by
  induction h with
  | start p m => exact ⟨0, .refl p m⟩
  | segment _ hfloor hends hending ih =>
      obtain ⟨count, hsteps⟩ := ih
      obtain ⟨-, fuel, final, hrun, rfl, rfl⟩ := hends
      obtain ⟨more, hmore⟩ := steps_run fuel hrun hending
      exact ⟨count + more, hsteps.trans (hmore.lower hfloor)⟩

/-! ### After a fault -/

/-- The step that failed. Where it was reached from is forgotten, since what follows depends on what
it left alone. -/
theorem concludes_fault_inv {fault : Fault} (h : Concludes floor p m q n (.fault fault)) :
    ∃ (p' : Processor) (m' : Memory), floor < p'.depth ∧ p'.step m' = (q, n, some fault) := by
  generalize hending : Ending.fault fault = ending at h
  induction h with
  | finished => cases hending
  | fault hdepth hstep =>
      cases hending
      exact ⟨_, _, hdepth, hstep⟩
  | cons _ _ _ ih => exact ih hending

/-- Running again after a fault fails again. What else it does is to count the fault if it is a
trap, and to read code anew. The failed step is the one of `turn_fault_atomic`, seen from what it
left. -/
theorem ends_again {fault : Fault} (h : Concludes floor p m q n (.fault fault))
    (hstop : observer.stop? notes = none) :
    ∃ cache refills,
      Ends observer notes floor q n ((q.noteFault fault).withCache cache refills) n
        (.fault fault) := by
  obtain ⟨p', m', hdepth, hstep⟩ := concludes_fault_inv h
  obtain ⟨after, fault', hturn, hstep'⟩ | ⟨after, -, hstep'⟩ :=
    turn_none_inv (s := ⟨p', m', (), 0⟩) hdepth
  · rw [hstep] at hstep'
    cases hstep'
    obtain ⟨f, rest, k, hframes, hmemory, hprocessor, hcause⟩ := turn_fault_inv hturn
    have hstuck := stuck_of_noteFault hframes hmemory hprocessor
    -- the start of the instruction is noted already
    have hstart : after.processor.markStart = after.processor := by
      rw [after.processor.markStart_eq hstuck.frames, ← hstuck.frames]
    have hdepth' : floor < after.processor.depth := by
      rw [Processor.depth, hframes] at hdepth
      rwa [Processor.depth, hstuck.frames]
    have hagain : (turn observer floor ⟨after.processor, after.memory, notes, 0⟩).2 =
        some (.fault fault) := turn_fault_again hframes hcause hmemory hprocessor hdepth' hstop
    generalize hfinal : turn observer floor ⟨after.processor, after.memory, notes, 0⟩ =
      result at hagain
    obtain ⟨final, ending⟩ := result
    obtain rfl : ending = some (.fault fault) := hagain
    obtain ⟨_, _, refills, -, hmemory', hprocessor', -⟩ := turn_fault_inv hfinal
    rw [hstart] at hprocessor'
    exact ⟨_, refills, by simp, 1, final, by rw [run, hfinal], hprocessor', hmemory'⟩
  · rw [hstep] at hstep'
    cases hstep'

/-! ### Cutting a run -/

/-- What follows from `q` and `n` is what follows from `p` and `m`, in runs down to the floor. -/
structure Continues (floor : Nat) (p : Processor) (m : Memory) (q : Processor)
    (n : Memory) : Prop where
  /-- The run that nobody interrupts is there after some steps. -/
  reached : ∃ count left, run .none floor count ⟨p, m, (), 0⟩ = (⟨q, n, (), left⟩, .running) ∧
    q.stats.steps = p.stats.steps + UInt64.ofNat count
  /-- Resuming unwatched ends exactly as the run that nobody interrupts. -/
  resumed : ∀ r o ending, Ends .none () floor q n r o ending ↔ Ends .none () floor p m r o ending
  /-- Resuming under an observer ends so too, unless that stops the run once more. -/
  watched : ∀ (σ : Type) (observer : Observer σ) (notes : σ) (r : Processor) (o : Memory)
    (ending : Ending),
    ((∀ reason, ending ≠ .stopped reason) → Ends observer notes floor q n r o ending →
      Ends .none () floor p m r o ending) ∧
    (Ends .none () floor p m r o ending → Ends observer notes floor q n r o ending ∨
      ∃ r' o' reason, Ends observer notes floor q n r' o' (.stopped reason))
  /-- A fault above a higher floor is that of the run that nobody interrupts. Another run returns
  the same fault, changes neither frames nor memory, and counts one more trap if it is one. -/
  failed : ∀ (σ : Type) (observer : Observer σ) (notes : σ) (high : Nat)
    (r : Processor) (o : Memory)
    (fault : Fault), floor ≤ high → Ends observer notes high q n r o (.fault fault) →
    Ends .none () floor p m r o (.fault fault) ∧
      ∀ (τ : Type) (watcher : Observer τ) (notes : τ), watcher.stop? notes = none →
        ∃ cache refills, Ends watcher notes floor r o
          ((r.noteFault fault).withCache cache refills) o
          (.fault fault)

/-- Cutting a run into segments does not change it. All of `Continues` follows from one fact, that
the segments are whole steps of the uninterrupted run (`Interrupted.steps`): the outcome from there
is the outcome from the start (`Steps.concludes_iff`), and runs and outcomes are the same thing up
to being stopped. -/
theorem interrupted_continues (h : Interrupted floor p m q n) : Continues floor p m q n := by
  obtain ⟨count, hsteps⟩ := h.steps
  refine ⟨?_, ?_, ?_, ?_⟩
  · obtain ⟨left, hrun⟩ := run_of_steps hsteps 0
    exact ⟨count, left, hrun, hsteps.stats⟩
  · intro r o ending
    rw [ends_none_iff, ends_none_iff]
    exact hsteps.concludes_iff
  · intro σ observer notes r o ending
    rw [ends_none_iff, ← hsteps.concludes_iff]
    exact ⟨fun hstopped hends => hends.concludes hstopped, ends_of_concludes observer notes⟩
  · intro σ observer notes high r o fault hhigh hends
    have hfault := (hends.concludes (by simp)).lower hhigh
    rw [ends_none_iff, ← hsteps.concludes_iff]
    exact ⟨hfault, fun τ watcher notes hstop => ends_again hfault hstop⟩

end

/-- The observer that counts steps and stops a run after the given number. -/
def countingTo (limit : Nat) : Observer Nat :=
  ⟨fun count _ _ => count + 1, fun count => if limit ≤ count then some .canceled else none⟩

/-- A run stopped right after a call, and then one that comes down to the inner of two frames. -/
theorem interrupted_continues_nestedCall :
    let p := nestedCall.processor
    let m := nestedCall.memory
    let first := (run (countingTo 1) 0 10 ⟨p, m, 0, 0⟩)
    let second := (run .none 1 10 ⟨first.1.processor, first.1.memory, (), 0⟩)
    first.2 = .stopped .canceled ∧ first.1.processor.depth = 3 ∧ second.2 = .finished ∧
      Continues 0 p m second.1.processor second.1.memory := by
  intro p m first second
  have hfirst : first.2 = .stopped .canceled := by decide +kernel
  have hsecond : second.2 = .finished := by decide +kernel
  have hstopped : Ends (countingTo 1) 0 0 p m first.1.processor first.1.memory
      (.stopped .canceled) := ⟨by simp, 10, first.1, Prod.ext rfl hfirst, rfl, rfl⟩
  have hfinished : Ends .none () 1 first.1.processor first.1.memory second.1.processor
      second.1.memory .finished := ⟨by simp, 10, second.1, Prod.ext rfl hsecond, rfl, rfl⟩
  refine ⟨hfirst, by decide +kernel, hsecond, interrupted_continues ?_⟩
  exact .segment (.segment (.start p m) (Nat.le_refl 0) hstopped (by simp)) (Nat.zero_le 1)
    hfinished (by simp)

/-- Two frames about to divide by zero. -/
def dividing : Session Unit where
  processor := ((Processor.ofOptions 5 5).enter 0 [1, 0]).enter 0 [1, 0]
  memory := .region (.ofBytes "code" 0 [0x03, 12, 13, 1, 0x49] ⟨true, false⟩)
  observed := ()

/-- After a trap a second run does not end with the counts of one run alone: it has counted the trap
twice. -/
theorem trap_counted_twice :
    ¬ ∀ (high low : Nat) (p q r : Processor) (m n o : Memory) (e e' : Ending), low ≤ high →
      Ends .none () high p m q n e → Ends .none () low q n r o e' →
      ∃ r', r'.frames = r.frames ∧ r'.stats = r.stats ∧ Ends .none () low p m r' o e' := by
  intro h
  let first := run .none 1 1 dividing
  let second := run .none 0 1 ⟨first.1.processor, first.1.memory, (), 0⟩
  have hfirst : first.2 ≠ .running := by decide +kernel
  have hsecond : second.2 ≠ .running := by decide +kernel
  obtain ⟨r', -, hstats, -, fuel, final, hrun, rfl, -⟩ :=
    h 1 0 dividing.processor first.1.processor second.1.processor dividing.memory first.1.memory
      second.1.memory first.2 second.2 (by decide) ⟨hfirst, 1, first.1, rfl, rfl, rfl⟩
      ⟨hsecond, 1, second.1, rfl, rfl, rfl⟩
  have htwice : second.1.processor.stats.traps = 2 := by decide +kernel
  cases fuel with
  | zero => exact hsecond (congrArg Prod.snd hrun).symm
  | succ fuel =>
      have honce : (run .none 0 (fuel + 1) dividing).1.processor.stats.traps = 1 := rfl
      have hfinal : (run .none 0 (fuel + 1) dividing).1 = final := congrArg Prod.fst hrun
      rw [hfinal, hstats, htwice] at honce
      exact absurd honce (by decide)

end Session

end RegisterVM
