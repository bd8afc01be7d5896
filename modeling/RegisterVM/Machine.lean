import RegisterVM.Processor.Run
import RegisterVM.Processor.Trace
/-!
# Machines

A machine is a set of processors that share one memory. Its processors take turns; a turn of one
processor is one step of a run, so every order of turns is a possible execution.

A run of the machine ends when every processor has left all its frames. When one faults, the others
are told to stop, and notice it when they next ask; the fault that came first is the outcome.
-/

namespace RegisterVM

/-- Why a processor of a machine did not finish. -/
inductive Stoppage where
  /-- An instruction faulted. -/
  | fault (f : Fault)
  /-- The machine was stopped from outside. -/
  | stopped (reason : StopReason)
  deriving DecidableEq, Repr

/-- The wording of a stoppage. -/
def Stoppage.message : Stoppage → String
  | .fault f => f.message
  | .stopped reason => reason.message

/-- The failure of one processor of a machine. -/
structure ProcessorFailure where
  processor : Nat
  cause : Stoppage
  trace : List TraceElement
  deriving DecidableEq, Repr

/-- The wording of a processor's failure. -/
def ProcessorFailure.message (e : ProcessorFailure) : String :=
  "processor " ++ Text.nat e.processor ++ ": " ++ e.cause.message

/-- Why a machine run failed. -/
inductive MachineError where
  /-- There is nothing to run. -/
  | noProcessors
  /-- A processor failed. -/
  | failed (failure : ProcessorFailure)
  deriving DecidableEq, Repr

/-- The wording of a machine error. -/
def MachineError.message : MachineError → String
  | .noProcessors => ErrorCode.noProcessors.wording
  | .failed failure => failure.message

/-- The code of a stoppage. -/
def Stoppage.code? : Stoppage → Option ErrorCode
  | .fault f => some f.cause.code
  | .stopped reason => reason.code?

/-- The code of a machine error. -/
def MachineError.code? : MachineError → Option ErrorCode
  | .noProcessors => some .noProcessors
  | .failed failure => failure.cause.code?

instance : Failure MachineError := ⟨MachineError.message, MachineError.code?⟩

/-- Processors that share a memory and a cache of debug headers. -/
structure Machine where
  memory : Memory
  processors : Array Processor := #[]
  headers : Debug.HeaderCache
  cacheSize : Int := 0
  cacheSpill : Int := 0

namespace Machine

/-- Adds a processor with a frame at `entry`. -/
def addProcessor (m : Machine) (entry : UInt32) (arguments : List Int32) : Machine :=
  { m with
    processors := m.processors.push
      ((Processor.ofOptions m.cacheSize m.cacheSpill).enter entry arguments) }

/-- The events of all processors together. -/
def stats (m : Machine) : Stats := m.processors.foldl (fun total p => total.add p.stats) {}

/-- Where a processor of a running machine stands. -/
structure Lane where
  /-- How many steps may still pass before it asks whether to stop. -/
  patience : Nat := 0
  /-- How its run ended, once it has. -/
  ending : Option Ending := none

/-- A machine run in progress, watched by an observer. -/
structure Round (σ : Type) where
  machine : Machine
  lanes : Array Lane
  observed : σ
  /-- The first failure, once there is one. -/
  failure : Option ProcessorFailure := none

variable {σ : Type}

/-- The observer of one processor: it is also stopped when another has failed. -/
def laneObserver (observer : Observer σ) (failed : Bool) : Observer σ where
  observe := observer.observe
  stop? := fun s => (observer.stop? s).or (if failed then some .canceled else none)

/-- Notes how the run of a processor ended. A processor that stops because another failed reports
nothing; otherwise the first failure is kept, with the trace of the processor. -/
def Round.close (observer : Observer σ) (r : Round σ) (index : Nat) (ending : Ending) : Round σ :=
  let r := { r with lanes := r.lanes.modify index fun lane => { lane with ending := some ending } }
  let report (cause : Stoppage) : Round σ :=
    match r.machine.processors[index]? with
    | none => r
    | some p =>
        let (trace, headers) := p.trace r.machine.memory r.machine.headers
        { r with
          machine := { r.machine with headers }
          failure := r.failure.or (some ⟨index, cause, trace⟩) }
  match ending with
  | .fault f => report (.fault f)
  | .stopped reason => if (observer.stop? r.observed).isSome then report (.stopped reason) else r
  | .finished | .running => r

/-- One turn of a processor that has not ended. -/
def Round.turn (observer : Observer σ) (r : Round σ) (index : Nat) : Round σ :=
  match r with
  | ⟨⟨memory, processors, headers, cacheSize, cacheSpill⟩, lanes, observed, failure⟩ =>
      match processors[index]?, lanes[index]? with
      | some p, some ⟨patience, none⟩ =>
          let session : Session σ := ⟨p, memory, observed, patience⟩
          match session.turn (laneObserver observer failure.isSome) 0 with
          | (⟨p, memory, observed, patience⟩, ending) =>
              let r : Round σ :=
                ⟨⟨memory, processors.setIfInBounds index p, headers, cacheSize, cacheSpill⟩,
                  lanes.setIfInBounds index ⟨patience, none⟩, observed, failure⟩
              match ending with
              | none => r
              | some ending => r.close observer index ending
      | _, _ => ⟨⟨memory, processors, headers, cacheSize, cacheSpill⟩, lanes, observed, failure⟩

/-- Whether every processor's run has ended. -/
def Round.done (r : Round σ) : Bool := r.lanes.all fun lane => lane.ending.isSome

/-- Lets the processors take turns in index order until all have ended or `fuel` is used up. -/
def Round.play (observer : Observer σ) : (fuel : Nat) → Round σ → Round σ
  | 0, r => r
  | fuel + 1, r =>
      if r.done then r
      else play observer fuel ((List.range r.lanes.size).foldl (·.turn observer) r)

/-- Starts a run of all processors. -/
def start (m : Machine) (observed : σ) : Round σ :=
  ⟨m, m.processors.map fun _ => {}, observed, none⟩

/-- The outcome of a machine run: how each processor's run ended, in index order, and whether the
run as a whole succeeded. -/
structure Result (σ : Type) where
  machine : Machine
  observed : σ
  endings : List Ending
  outcome : Except MachineError Unit

/-- Runs every processor until it has no frames left. -/
def run (observer : Observer σ) (fuel : Nat) (m : Machine) (observed : σ) : Result σ :=
  if m.processors.isEmpty then ⟨m, observed, [], .error .noProcessors⟩
  else
    let r := (m.start observed).play observer fuel
    let endings := r.lanes.toList.map fun lane => lane.ending.getD .running
    match r.failure with
    | some failure => ⟨r.machine, r.observed, endings, .error (.failed failure)⟩
    | none => ⟨r.machine, r.observed, endings, .ok ()⟩

end Machine

end RegisterVM
