import RegisterVM.Proofs.CompletedStep
import RegisterVM.Proofs.Lookup
import RegisterVM.Proofs.MemoryBytes
import RegisterVM.Machine

/-!
# Interleavings

The processors of a machine share its memory and nothing else. `advance` lets one of them take a
step; a schedule is a sequence of processor numbers, and `follow` takes their steps in that order.
An atomic operation is one step like any other. What was completed on the way, and by which
processor, is recorded in `completions`; steps that failed are not in it.

A turn of a machine run is such a step, so every run of a machine follows some schedule.
-/

namespace RegisterVM

/-! ### What a step does to memory -/

namespace Processor

/-- The memory of a step is that of the effect, or it is the same. A step that fails does not
write. -/
theorem memory_step (p : Processor) (m : Memory) :
    (p.step m).2.1 = (p.completion? m).elim m fun c => c.effect.memory m := by
  cases hframes : p.frames with
  | nil =>
      have hnone : p.completion? m = none := by simp [completion?, top?, hframes]
      rw [hnone, step, hframes]
      rfl
  | cons f rest =>
      cases hcompletion : p.completion? m with
      | none =>
          obtain ⟨fault, hstep⟩ := step_of_completion?_none hframes hcompletion
          rw [hstep]
          rfl
      | some c =>
          obtain ⟨f, rest, hcompletes⟩ := completion?_eq_some hcompletion
          rw [step_of_completes hcompletes]
          rfl

end Processor

namespace Effect

/-- An effect does not change the layout of memory. -/
theorem blank_memory (e : Effect) (m : Memory) : (e.memory m).blank = m.blank := by
  cases hstore : e.store with
  | none => rw [memory_of_none hstore]
  | some change => rw [memory_of_some hstore, Memory.blank_poke]

/-- A byte that a completed operation does not write stays as it is. -/
theorem byte?_memory {op : Operation} {f : Frame} {m : Memory} {next : UInt32} {e : Effect}
    (hm : m.Ordered) (h : op.effect f m next = .ok e) {a : Nat}
    (ha : ∀ address bytes, e.store = some (address, bytes) →
      a < address.toNat ∨ address.toNat + bytes.length ≤ a) :
    (e.memory m).byte? a = m.byte? a := by
  cases hstore : e.store with
  | none => rw [memory_of_none hstore]
  | some change =>
      obtain ⟨address, bytes⟩ := change
      have houtside := ha address bytes hstore
      rw [memory_of_some hstore, Memory.byte?_poke hm (op.effect_store h hstore), if_neg (by omega)]

end Effect

/-! ### Schedules -/

namespace Machine

/-- Lets a processor take one step. Where there is none of that number nothing happens. A step that
fails is a step too: it may have changed the cache. -/
def advance (m : Machine) (i : Nat) : Machine :=
  match m.processors[i]? with
  | none => m
  | some p =>
      { m with
        memory := (p.step m.memory).2.1
        processors := m.processors.setIfInBounds i (p.step m.memory).1 }

/-- What the next step of a processor completes, with memory as it is now. -/
def completion? (m : Machine) (i : Nat) : Option Completion :=
  m.processors[i]?.bind (·.completion? m.memory)

/-- Lets the processors take steps in the order of a schedule. -/
def follow (m : Machine) (schedule : List Nat) : Machine := schedule.foldl advance m

/-- What is completed along a schedule, and by which processor, in the order in which it was. -/
def completions (m : Machine) : List Nat → List (Nat × Completion)
  | [] => []
  | i :: rest => ((m.completion? i).map (i, ·)).toList ++ (m.advance i).completions rest

section

variable (m : Machine)

@[simp] theorem follow_nil : m.follow [] = m := rfl

@[simp] theorem follow_cons (i : Nat) (rest : List Nat) :
    m.follow (i :: rest) = (m.advance i).follow rest := rfl

theorem follow_append (front back : List Nat) :
    m.follow (front ++ back) = (m.follow front).follow back :=
  List.foldl_append

/-- What is completed along a schedule is completed along its parts. -/
theorem completions_append (front back : List Nat) :
    m.completions (front ++ back) = m.completions front ++ (m.follow front).completions back := by
  induction front generalizing m with
  | nil => rfl
  | cons i rest ih =>
      rw [List.cons_append, completions, completions, ih, List.append_assoc, follow_cons]

/-- Memory changes by the effect of what is completed, and by nothing else. -/
theorem memory_advance (i : Nat) :
    (m.advance i).memory = (m.completion? i).elim m.memory fun c => c.effect.memory m.memory := by
  unfold advance completion?
  cases m.processors[i]? with
  | none => rfl
  | some p => exact p.memory_step m.memory

theorem blank_advance (i : Nat) : (m.advance i).memory.blank = m.memory.blank := by
  rw [memory_advance]
  cases m.completion? i with
  | none => rfl
  | some c => exact c.effect.blank_memory m.memory

/-- No schedule changes the layout of memory. -/
theorem blank_follow (schedule : List Nat) : (m.follow schedule).memory.blank = m.memory.blank := by
  induction schedule generalizing m with
  | nil => rfl
  | cons i rest ih => rw [follow_cons, ih, blank_advance]

theorem ordered_follow {m : Machine} (hm : m.memory.Ordered) (schedule : List Nat) :
    (m.follow schedule).memory.Ordered :=
  Memory.ordered_of_blank (m.blank_follow schedule).symm hm

theorem processors_advance_self {p : Processor} {i : Nat} (h : m.processors[i]? = some p) :
    (m.advance i).processors[i]? = some (p.step m.memory).1 := by
  obtain ⟨hlt, -⟩ := Array.getElem?_eq_some_iff.mp h
  rw [advance, h]
  simp [hlt]

theorem size_advance (m : Machine) (i : Nat) :
    (m.advance i).processors.size = m.processors.size := by
  unfold advance
  split
  · rfl
  · exact Array.size_setIfInBounds

/-- A step of one processor leaves the others alone. -/
theorem processors_advance_of_ne {i j : Nat} (h : i ≠ j) :
    (m.advance j).processors[i]? = m.processors[i]? := by
  unfold advance
  split
  · rfl
  · rw [Array.getElem?_setIfInBounds, if_neg h.symm]

end

/-- A processor that completes something exists, and has a frame to do it in. -/
theorem completion?_eq_some {m : Machine} {i : Nat} {c : Completion}
    (h : m.completion? i = some c) :
    ∃ p f rest, m.processors[i]? = some p ∧ p.Completes m.memory f rest c := by
  obtain ⟨p, hp, hc⟩ := Option.bind_eq_some_iff.mp h
  obtain ⟨f, rest, hcompletes⟩ := Processor.completion?_eq_some hc
  exact ⟨p, f, rest, hp, hcompletes⟩

/-! ### Runs of a machine -/

/-- Machines with the same memory and the same processors. They may differ in the headers that they
keep. -/
structure SameState (x y : Machine) : Prop where
  memory : x.memory = y.memory
  processors : x.processors = y.processors

theorem SameState.trans {x y z : Machine} (h : x.SameState y) (h' : y.SameState z) :
    x.SameState z :=
  ⟨h.memory.trans h'.memory, h.processors.trans h'.processors⟩

theorem SameState.advance {x y : Machine} (h : x.SameState y) (i : Nat) :
    (x.advance i).SameState (y.advance i) := by
  unfold Machine.advance
  rw [h.memory, h.processors]
  cases y.processors[i]? with
  | none => exact h
  | some p => exact ⟨rfl, rfl⟩

/-- Machines in the same state stay so along every schedule. -/
theorem SameState.follow {x y : Machine} (h : x.SameState y) (schedule : List Nat) :
    (x.follow schedule).SameState (y.follow schedule) := by
  induction schedule generalizing x y with
  | nil => exact h
  | cons i rest ih => exact ih (h.advance i)

/-- A turn of a session leaves it alone or takes a step. -/
theorem turn_moves {σ : Type} (observer : Observer σ) (floor : Nat) (s : Session σ) :
    ((s.turn observer floor).1.processor = s.processor ∧
      (s.turn observer floor).1.memory = s.memory) ∨
    ((s.turn observer floor).1.processor = (s.processor.step s.memory).1 ∧
      (s.turn observer floor).1.memory = (s.processor.step s.memory).2.1) := by
  rw [Session.turn_eq]
  cases hnext : s.next observer floor with
  | error ending => exact .inl ⟨rfl, rfl⟩
  | ok chosen =>
      obtain ⟨f, patience⟩ := chosen
      obtain ⟨rest, hframes⟩ := Session.next_eq_ok observer floor hnext
      obtain ⟨hprocessor, hmemory, -⟩ := Session.execute_step observer hframes patience
      exact .inr ⟨hprocessor, hmemory⟩

namespace Round

variable {σ : Type} (observer : Observer σ)

theorem close_sameState (r : Round σ) (i : Nat) (ending : Ending) :
    (r.close observer i ending).machine.SameState r.machine := by
  unfold close
  dsimp only
  cases ending with
  | finished | running => exact ⟨rfl, rfl⟩
  | fault f =>
      dsimp only
      split <;> exact ⟨rfl, rfl⟩
  | stopped reason =>
      dsimp only
      split
      · split <;> exact ⟨rfl, rfl⟩
      · exact ⟨rfl, rfl⟩

/-- A turn of a processor in a run takes a step of it, or none. -/
theorem turn_follows (r : Round σ) (i : Nat) :
    ∃ schedule, (r.turn observer i).machine.SameState (r.machine.follow schedule) := by
  obtain ⟨⟨memory, processors, headers, cacheSize, cacheSpill⟩, lanes, observed, failure⟩ := r
  unfold turn
  dsimp only
  split
  · rename_i p patience hp hlane
    have hmoves :=
      turn_moves (laneObserver observer failure.isSome) 0 ⟨p, memory, observed, patience⟩
    generalize Session.turn _ _ _ = result at hmoves ⊢
    obtain ⟨⟨p', memory', observed', patience'⟩, ending⟩ := result
    dsimp only at hmoves ⊢
    have hafter : ∃ schedule, Machine.SameState
        ⟨memory', processors.setIfInBounds i p', headers, cacheSize, cacheSpill⟩
        (Machine.follow ⟨memory, processors, headers, cacheSize, cacheSpill⟩ schedule) := by
      rcases hmoves with ⟨rfl, rfl⟩ | ⟨rfl, rfl⟩
      · exact ⟨[], rfl, Array.setIfInBounds_eq_self hp⟩
      · refine ⟨[i], ?_⟩
        rw [follow_cons, follow_nil]
        unfold advance
        rw [hp]
        exact ⟨rfl, rfl⟩
    obtain ⟨schedule, hschedule⟩ := hafter
    refine ⟨schedule, ?_⟩
    cases ending with
    | none => exact hschedule
    | some ending => exact (close_sameState observer _ i ending).trans hschedule
  · exact ⟨[], rfl, rfl⟩

theorem foldl_turn_follows (order : List Nat) (r : Round σ) :
    ∃ schedule, (order.foldl (·.turn observer) r).machine.SameState
        (r.machine.follow schedule) := by
  induction order generalizing r with
  | nil => exact ⟨[], rfl, rfl⟩
  | cons i rest ih =>
      obtain ⟨front, hfront⟩ := turn_follows observer r i
      obtain ⟨back, hback⟩ := ih (r.turn observer i)
      refine ⟨front ++ back, ?_⟩
      rw [follow_append]
      exact hback.trans (hfront.follow back)

theorem play_follows (fuel : Nat) (r : Round σ) :
    ∃ schedule, (r.play observer fuel).machine.SameState (r.machine.follow schedule) := by
  induction fuel generalizing r with
  | zero => exact ⟨[], rfl, rfl⟩
  | succ fuel ih =>
      rw [play]
      split
      · exact ⟨[], rfl, rfl⟩
      · obtain ⟨front, hfront⟩ := foldl_turn_follows observer (List.range r.lanes.size) r
        obtain ⟨back, hback⟩ := ih ((List.range r.lanes.size).foldl (·.turn observer) r)
        refine ⟨front ++ back, ?_⟩
        rw [follow_append]
        exact hback.trans (hfront.follow back)

end Round

/-- Every run of a machine follows some schedule. So what holds along all schedules holds of runs,
whatever the observer does. -/
theorem run_follows {σ : Type} (observer : Observer σ) (fuel : Nat) (m : Machine) (observed : σ) :
    ∃ schedule, (m.run observer fuel observed).machine.SameState (m.follow schedule) := by
  unfold run
  split
  · exact ⟨[], rfl, rfl⟩
  · obtain ⟨schedule, hplay⟩ := Round.play_follows observer fuel (m.start observed)
    refine ⟨schedule, ?_⟩
    dsimp only
    split <;> exact hplay

end Machine

end RegisterVM
