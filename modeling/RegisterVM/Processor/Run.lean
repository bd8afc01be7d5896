import RegisterVM.Processor.Step
/-!
# Runs

A run executes steps while more than a given number of frames is active. It can be watched: an
observer sees every decoded instruction before it executes. It can be stopped: whether to stop is
asked whenever the active frame changes, and at least every `checkInterval` steps, always between
two steps. What the observer has gathered decides the answer.
-/

namespace RegisterVM

/-- How many steps may pass between two questions whether to stop. -/
def checkInterval : Nat := 4096

/-- Why a run was stopped from outside. -/
inductive StopReason where
  | canceled
  | deadlineExceeded
  deriving DecidableEq, Repr

/-- The wording of a stop reason. -/
def StopReason.message : StopReason → String
  | .canceled => ErrorCode.canceled.wording
  | .deadlineExceeded => "context deadline exceeded"

/-- The code of a stop reason. -/
def StopReason.code? : StopReason → Option ErrorCode
  | .canceled => some .canceled
  | .deadlineExceeded => none

instance : Failure StopReason := ⟨StopReason.message, StopReason.code?⟩

/-- What an observer sees of a step. -/
structure StepView where
  depth : Nat
  frame : Frame
  instruction : Instruction

/-- An observer with state `σ`. -/
structure Observer (σ : Type) where
  /-- Takes notice of a step that is about to execute. -/
  observe : σ → Memory → StepView → σ
  /-- Whether to stop, by what has been noticed. -/
  stop? : σ → Option StopReason

/-- How a run ended. -/
inductive Ending where
  /-- The frame count came down to the floor. -/
  | finished
  /-- An instruction faulted. -/
  | fault (f : Fault)
  /-- The run was stopped. -/
  | stopped (reason : StopReason)
  /-- The steps granted are used up. -/
  | running
  deriving DecidableEq, Repr

/-- A run in progress. -/
structure Session (σ : Type) where
  processor : Processor
  memory : Memory
  observed : σ
  /-- How many steps may still pass before the next question whether to stop. -/
  patience : Nat := 0

namespace Session

variable {σ : Type}

/-- Executes the instruction at the innermost frame, with `patience` left after it. -/
def execute (observer : Observer σ) (s : Session σ) (f : Frame) (patience : Nat) :
    Session σ × Option Fault :=
  match s.processor.markStart.fetch s.memory f.pc with
  | (p, .error fault) => ({ s with processor := p.noteFault fault, patience }, some fault)
  | (p, .ok inst) =>
      let observed := observer.observe s.observed s.memory ⟨p.depth, { f with last := f.pc }, inst⟩
      let depth := p.depth
      match p.execute s.memory inst with
      | (p, memory, fault) =>
          ({ processor := p, memory, observed
             patience := if p.depth = depth then patience else 0 },
            fault)

/-- One turn of a run above `floor`: asks whether to stop if it is time to, then executes a step. -/
def turn (observer : Observer σ) (floor : Nat) (s : Session σ) : Session σ × Option Ending :=
  match s.processor.frames with
  | [] => (s, some .finished)
  | f :: _ =>
      if s.processor.depth ≤ floor then (s, some .finished)
      else
        match s.patience with
        | 0 =>
            match observer.stop? s.observed with
            | some reason => (s, some (.stopped reason))
            | none =>
                match s.execute observer f (checkInterval - 1) with
                | (s, none) => (s, none)
                | (s, some fault) => (s, some (.fault fault))
        | patience + 1 =>
            match s.execute observer f patience with
            | (s, none) => (s, none)
            | (s, some fault) => (s, some (.fault fault))

/-- Turns until the run ends or `fuel` is used up. -/
def run (observer : Observer σ) (floor : Nat) : (fuel : Nat) → Session σ → Session σ × Ending
  | 0, s => (s, .running)
  | fuel + 1, s =>
      match s.turn observer floor with
      | (s, some ending) => (s, ending)
      | (s, none) => run observer floor fuel s

end Session

/-- The observer that notices nothing and never stops a run. -/
def Observer.none : Observer Unit := ⟨fun _ _ _ => (), fun _ => Option.none⟩

end RegisterVM
