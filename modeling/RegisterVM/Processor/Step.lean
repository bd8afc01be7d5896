import RegisterVM.Processor.Fetch
import RegisterVM.Processor.Operation
/-!
# Processor steps

A processor has frames, a code cache and event counters. It does not own memory: several processors
may work on one. A step marks the current instruction, fetches it, works out its effect, and applies
it.

A frame that the host entered stays available to the host after it is left.
-/

namespace RegisterVM

/-- Event counters of a processor. -/
structure Stats where
  steps : UInt64 := 0
  invokes : UInt64 := 0
  returns : UInt64 := 0
  refills : UInt64 := 0
  atomics : UInt64 := 0
  traps : UInt64 := 0
  deriving DecidableEq, Repr

namespace Stats

/-- The events of two counts together. -/
def add (a b : Stats) : Stats :=
  ⟨a.steps + b.steps, a.invokes + b.invokes, a.returns + b.returns, a.refills + b.refills,
    a.atomics + b.atomics, a.traps + b.traps⟩

/-- The events counted since `b`. -/
def sub (a b : Stats) : Stats :=
  ⟨a.steps - b.steps, a.invokes - b.invokes, a.returns - b.returns, a.refills - b.refills,
    a.atomics - b.atomics, a.traps - b.traps⟩

end Stats

/-- A processor. -/
structure Processor where
  /-- The active frames, innermost first. -/
  frames : List Frame := []
  cache : CodeCache
  stats : Stats := {}
  /-- How many frames the host has entered. -/
  tickets : Nat := 0
  /-- The frames of the host that have been left. -/
  retired : List Frame := []

namespace Processor

/-- A processor without frames. -/
def ofOptions (cacheSize cacheSpill : Int) : Processor :=
  { cache := .ofOptions cacheSize cacheSpill }

/-- How many frames are active. -/
def depth (p : Processor) : Nat := p.frames.length

/-- The innermost frame. -/
def top? (p : Processor) : Option Frame := p.frames.head?

/-- Forgets cached code; for use after code in memory has been replaced. -/
def invalidateCache (p : Processor) : Processor := { p with cache := p.cache.invalidate }

/-! ### Frames of the host -/

/-- Enters a frame for the host. -/
def enter (p : Processor) (pc : UInt32) (arguments : List Int32) : Processor :=
  let frame := Frame.enter (p.top?.map Frame.registers) pc arguments (some p.tickets)
  { p with frames := frame :: p.frames, tickets := p.tickets + 1 }

/-- The frame that the host holds by a ticket, active or left. -/
def held? (p : Processor) (ticket : Nat) : Option Frame :=
  (p.frames ++ p.retired).find? fun f => f.ticket = some ticket

/-- Changes the frame that the host holds by a ticket. -/
def modifyHeld (p : Processor) (ticket : Nat) (change : Frame → Frame) : Processor :=
  let apply (f : Frame) : Frame := if f.ticket = some ticket then change f else f
  { p with frames := p.frames.map apply, retired := p.retired.map apply }

/-! ### One step -/

/-- Notes that the instruction at the innermost frame's position starts. -/
def markStart (p : Processor) : Processor :=
  match p.frames with
  | [] => p
  | f :: rest => { p with frames := { f with last := f.pc } :: rest }

/-- Fetches the instruction at `pc`. -/
def fetch (p : Processor) (m : Memory) (pc : UInt32) : Processor × Except Fault Instruction :=
  let fetched := RegisterVM.fetch m pc p.cache
  ({ p with
      cache := fetched.cache
      stats := { p.stats with refills := p.stats.refills + UInt64.ofNat fetched.refills } },
    fetched.outcome)

/-- Counts a fault. -/
def noteFault (p : Processor) (f : Fault) : Processor :=
  if f.isTrap then { p with stats := { p.stats with traps := p.stats.traps + 1 } } else p

/-- The frames after the innermost one left; the host keeps a frame it entered. -/
def leaveFrame (p : Processor) (f : Frame) (rest : List Frame) : Processor :=
  { p with
    frames :=
      match rest with
      | [] => []
      | caller :: below => caller.resume f :: below
    retired := if f.ticket.isSome then f :: p.retired else p.retired
    stats := { p.stats with returns := p.stats.returns + 1 } }

/-- Lets the flow of an effect go on from frame `f` with `rest` below it. -/
def follow (p : Processor) (flow : Flow) (f : Frame) (rest : List Frame) : Processor :=
  match flow with
  | .goto pc => { p with frames := { f with pc } :: rest }
  | .call resume target arguments =>
      let caller := { f with pc := resume }
      { p with
        frames := Frame.enter (some caller.registers) target arguments none :: caller :: rest
        stats := { p.stats with invokes := p.stats.invokes + 1 } }
  | .leave pc => p.leaveFrame { f with pc } rest

/-- Applies an effect to the processor. -/
def commit (p : Processor) (e : Effect) : Processor :=
  match p.frames with
  | [] => p
  | f :: rest =>
      let f := e.registers.foldl (fun f (r, v) => f.set r v) f
      let p := p.follow e.flow f rest
      { p with
        stats :=
          { p.stats with
            steps := p.stats.steps + 1
            atomics := p.stats.atomics + (if e.atomic then 1 else 0) } }

/-- The effect of an instruction in the innermost frame, or the fault. -/
def plan (p : Processor) (m : Memory) (inst : Instruction) : Except Fault Effect :=
  match p.frames with
  | [] => .error ⟨.invalidInstruction, 0, inst.opcode, 0⟩
  | f :: _ =>
      match Operation.ofInstruction inst with
      | .error cause => .error ⟨cause, f.pc, inst.opcode, 0⟩
      | .ok op =>
          match op.effect f m (f.pc + UInt32.ofNat inst.size) with
          | .error (cause, address) => .error ⟨cause, f.pc, inst.opcode, address⟩
          | .ok e => .ok e

/-- Executes an instruction in the innermost frame: the processor and memory after it, and the fault
if there was one. -/
def execute (p : Processor) (m : Memory) (inst : Instruction) : Processor × Memory × Option Fault :=
  match p.plan m inst with
  | .error f => (p.noteFault f, m, some f)
  | .ok e =>
      match e.store with
      | none => (p.commit e, m, none)
      | some (address, bytes) => (p.commit e, m.poke address bytes, none)

/-- One whole step of the innermost frame; without frames nothing happens. -/
def step (p : Processor) (m : Memory) : Processor × Memory × Option Fault :=
  match p.frames with
  | [] => (p, m, none)
  | f :: _ =>
      match p.markStart.fetch m f.pc with
      | (p, .error fault) => (p.noteFault fault, m, some fault)
      | (p, .ok inst) => p.execute m inst

end Processor

end RegisterVM
