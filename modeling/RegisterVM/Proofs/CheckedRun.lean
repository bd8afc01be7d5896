import RegisterVM.Proofs.CheckedExecute
import RegisterVM.Proofs.HostHistory

/-!
# Running with every access checked

A checked processor keeps its frames outermost first in an array, its cache in a buffer and the
current instruction in a record. Whatever it takes from any of them it takes by index, and an index
out of range leaves it without a result.

It always has one. A step keeps the buffer in bounds, which is all that the next step needs, and
does what the step of the processor does. The host may therefore run it, enter frames, replace
frames and memory and empty the buffer in any order, and for any number of steps.
-/

namespace RegisterVM

/-! ### Checked processors -/

/-- A processor that works on arrays. -/
structure CheckedProcessor where
  /-- The active frames, outermost first. -/
  frames : List Frame := []
  buffer : CodeBuffer
  /-- The instruction decoded last. -/
  slots : Slots
  stats : Stats := {}
  tickets : Nat := 0
  retired : List Frame := []

namespace CheckedProcessor

/-- A processor without frames, with a fresh buffer. -/
def start (size spill : Int) : CheckedProcessor :=
  { buffer := .ofOptions size spill, slots := .blank 0 0 }

/-- The processor that a checked one stands for: the frames the other way round, and the cache in
place of the buffer. The record is forgotten, since every fetch writes it anew. -/
def processor (c : CheckedProcessor) : Processor where
  frames := c.frames.reverse
  cache := c.buffer.cache
  stats := c.stats
  tickets := c.tickets
  retired := c.retired

/-- Counts a fault. -/
def noteFault (c : CheckedProcessor) (fault : Fault) : CheckedProcessor :=
  if fault.isTrap then { c with stats := { c.stats with traps := c.stats.traps + 1 } } else c

/-- What a handler works on when it executes in the last frame. -/
def workspace (c : CheckedProcessor) (m : Memory) : Workspace :=
  { frames := c.frames, hand := c.frames.length - 1, memory := m, stats := c.stats }

/-- The processor with what has become of its workspace. The host keeps a frame it entered when that
has been left. -/
def closed (c : CheckedProcessor) (w : Workspace) : CheckedProcessor :=
  { c with
    frames := w.frames
    stats := w.stats
    retired :=
      w.left.elim c.retired fun f => if f.ticket.isSome then f :: c.retired else c.retired }

/-- Executes the decoded instruction in the last frame `f`. What a refused one has done by then
stays: nothing is undone here, so that it is left to the handlers to have done nothing. -/
def execute (c : CheckedProcessor) (f : Frame) (m : Memory) :
    Option (CheckedProcessor × Memory × Option Fault) := do
  match ← carryOut f.pc c.slots (c.workspace m) with
  | (.error (cause, address), w) =>
      let fault : Fault := ⟨cause, f.pc, c.slots.opcode, address⟩
      return ((c.closed w).noteFault fault, w.memory, some fault)
  | (.ok (), w) => return (c.closed w, w.memory, none)

/-- The processor after a fetch for its last frame, which has become `f`. This is also what a failed
fetch leaves, but for the count of the fault. -/
def fetched (c : CheckedProcessor) (f : Frame) (did : BufferFetched) : CheckedProcessor :=
  { c with
    frames := c.frames.dropLast ++ [f]
    buffer := did.buffer
    slots := did.slots
    stats := { c.stats with refills := c.stats.refills + UInt64.ofNat did.refills } }

/-- One step of the last frame. The frame, the part of the buffer, the table of opcodes and all
operands are taken by index. -/
def step (c : CheckedProcessor) (m : Memory) :
    Option (CheckedProcessor × Memory × Option Fault) := do
  let top ← c.frames[c.frames.length - 1]?
  let f := { top with last := top.pc }
  let did ← c.buffer.fetch m f.pc c.slots
  match did.fault with
  | some fault => return ((c.fetched f did).noteFault fault, m, some fault)
  | none => (c.fetched f did).execute f m

/-- Steps while more than `floor` frames are active, at most `fuel` of them. An observer that
gathers nothing always gives one answer to whether to stop, so it may be asked before every step. -/
def run (observer : Observer Unit) (floor : Nat) : (fuel : Nat) → CheckedProcessor → Memory →
    Option (CheckedProcessor × Memory × Ending)
  | 0, c, m => some (c, m, .running)
  | fuel + 1, c, m =>
      if c.frames.length ≤ floor then some (c, m, .finished)
      else
        match observer.stop? () with
        | some reason => some (c, m, .stopped reason)
        | none => do
            match ← c.step m with
            | (c, m, some fault) => return (c, m, .fault fault)
            | (c, m, none) => run observer floor fuel c m

/-- Enters a frame for the host. -/
def enter (c : CheckedProcessor) (pc : UInt32) (arguments : List Int32) :
    Option CheckedProcessor := do
  let frames ← enterFrame? c.frames pc arguments (some c.tickets)
  return { c with frames, tickets := c.tickets + 1 }

/-- Changes the frames that the host holds under a ticket. -/
def modifyHeld (c : CheckedProcessor) (ticket : Nat) (change : Frame → Frame) : CheckedProcessor :=
  let apply (f : Frame) : Frame := if f.ticket = some ticket then change f else f
  { c with frames := c.frames.map apply, retired := c.retired.map apply }

/-- Forgets what is in the buffer. -/
def invalidate (c : CheckedProcessor) : CheckedProcessor :=
  { c with buffer := { c.buffer with valid := false } }

end CheckedProcessor

/-! ### Steps -/

namespace CheckedProcessor

/-- The checked processor came out as a processor did, with its buffer as given. The buffer is named
because its bounds have to be kept, which the cache alone does not tell. -/
structure Matches (c : CheckedProcessor) (p : Processor) (b : CodeBuffer) : Prop where
  processor : c.processor = p
  buffer : c.buffer = b

section

variable {c : CheckedProcessor} {below : List Frame} {f : Frame} {m : Memory}

theorem noteFault_matches (c : CheckedProcessor) (fault : Fault) :
    (c.noteFault fault).Matches (c.processor.noteFault fault) c.buffer := by
  unfold noteFault Processor.noteFault
  by_cases htrap : fault.isTrap = true
  · rw [if_pos htrap, if_pos htrap]
    exact ⟨rfl, rfl⟩
  · rw [if_neg htrap, if_neg htrap]
    exact ⟨rfl, rfl⟩

theorem processor_frames (hframes : c.frames = below ++ [f]) :
    c.processor.frames = f :: below.reverse := by
  rw [processor, hframes, List.reverse_concat]

/-- Opened for its last frame, a checked processor gives the workspace that the lemmas on handlers
speak of. -/
theorem workspace_eq (hframes : c.frames = below ++ [f]) (m : Memory) :
    c.workspace m = .holding below f m c.stats := by
  simp [workspace, hframes, Workspace.holding]

/-- Entering a frame for the host finds what it looks for, and does what it does to a processor. -/
theorem enter_matches (c : CheckedProcessor) (pc : UInt32) (arguments : List Int32) :
    ∃ after, c.enter pc arguments = some after ∧
      after.Matches (c.processor.enter pc arguments) c.buffer := by
  rw [enter, enterFrame?_eq]
  refine ⟨_, rfl, ?_, rfl⟩
  simp only [processor, Processor.enter, Processor.top?, List.reverse_concat, List.head?_reverse]

/-- Once an effect has been written and its frame goes on, the processor has committed it. Each kind
of flow is a case: the frame in hand is still there, has another on top of it, or has been left. -/
theorem written_matches (hframes : c.frames = below ++ [f]) (m : Memory) (e : Effect) :
    ∃ w, (do
        Handling.setPc e.flow.next
        Handling.count fun stats => { stats with steps := stats.steps + 1 } : Handling Unit)
          (.written below f m c.stats e) = some (.ok (), w) ∧
      w.memory = e.memory m ∧ (c.closed w).Matches (c.processor.commit e) c.buffer := by
  have htop := processor_frames hframes
  rw [Workspace.written]
  dsimp only
  simp only [Processor.commit, htop]
  generalize List.foldl _ f e.registers = g
  generalize hcounted : (if e.atomic then _ else c.stats : Stats) = counted
  cases hflow : e.flow with
  | goto pc =>
      refine ⟨_, (Handling.bind_ok (setPc_holding below g _ counted pc)).trans
        (Handling.change_eq rfl),
        rfl, ?_, rfl⟩
      subst hcounted
      cases e.atomic <;> simp [processor, closed, Workspace.holding, Processor.follow]
  | call resume target arguments =>
      have hsame := setPc_called below { g with pc := resume }
        (Frame.enter (some g.registers) target arguments none) (e.memory m)
        { counted with invokes := counted.invokes + 1 }
      refine ⟨_, (Handling.bind_ok hsame).trans (Handling.change_eq rfl), rfl, ?_, rfl⟩
      subst hcounted
      cases e.atomic <;> simp [processor, closed, Processor.follow]
  | leave pc =>
      have hleft := setPc_left (Workspace.resumed below g) below.length g (e.memory m)
        { counted with returns := counted.returns + 1 } pc
      refine ⟨_, (Handling.bind_ok hleft).trans (Handling.change_eq rfl), rfl, ?_, rfl⟩
      subst hcounted
      have hresumed := Workspace.reverse_resumed c.processor below g pc
      dsimp only [Processor.leaveFrame] at hresumed
      cases e.atomic <;>
        simp [processor, closed, Processor.follow, Processor.leaveFrame, hresumed]

/-- What is planned for an instruction in a frame is what the processor plans, refusals included. -/
theorem planned_cases {p : Processor} {rest : List Frame} (hframes : p.frames = f :: rest)
    (m : Memory) (inst : Instruction) :
    (∃ cause address, p.plan m inst = .error ⟨cause, f.pc, inst.opcode, address⟩ ∧
      planned f m (f.pc + UInt32.ofNat inst.size) (Operation.ofInstruction inst) =
        .error (cause, address)) ∨
    (∃ e, p.plan m inst = .ok e ∧
      planned f m (f.pc + UInt32.ofNat inst.size) (Operation.ofInstruction inst) = .ok e) := by
  unfold Processor.plan planned
  rw [hframes]
  dsimp only
  cases Operation.ofInstruction inst with
  | error cause => exact .inl ⟨cause, 0, rfl, rfl⟩
  | ok op =>
      dsimp only [Except.mapError, bind, Except.bind]
      cases op.effect f m (f.pc + UInt32.ofNat inst.size) with
      | error refusal => exact .inl ⟨refusal.1, refusal.2, rfl, rfl⟩
      | ok e => exact .inr ⟨e, rfl, rfl⟩

/-- Executing a decoded record has a result, and it is that of executing the instruction:
`perform_eq` says what the handler came to, and the two cases of a plan what to make of it. -/
theorem execute_matches {inst : Instruction} (hframes : c.frames = below ++ [f])
    (hslots : c.slots.Decoded inst) (m : Memory) :
    ∃ after, c.execute f m = some (after, (c.processor.execute m inst).2) ∧
      after.Matches (c.processor.execute m inst).1 c.buffer := by
  have htop := processor_frames hframes
  have hperform := perform_eq hslots below f m c.stats
  rw [execute, carryOut, workspace_eq hframes]
  obtain ⟨cause, address, hplan, hplanned⟩ | ⟨e, hplan, hplanned⟩ := planned_cases htop m inst
  · rw [hplanned] at hperform
    rw [Handling.bind_error hperform, Processor.execute, hplan, ← hslots.holds.opcode,
      ← workspace_eq hframes]
    exact ⟨_, rfl, noteFault_matches c _⟩
  · rw [hplanned] at hperform
    obtain ⟨w, hwritten, hmemory, hmatches⟩ := written_matches hframes m e
    rw [Handling.bind_ok hperform, hwritten, Processor.execute_of_plan hplan, ← hmemory]
    exact ⟨c.closed w, rfl, hmatches⟩

theorem exists_top (hframes : c.frames ≠ []) : ∃ below f, c.frames = below ++ [f] := by
  rcases List.eq_nil_or_concat c.frames with hnil | ⟨below, f, hconcat⟩
  · exact absurd hnil hframes
  · exact ⟨below, f, by rw [hconcat, List.concat_eq_append]⟩

/-- Fetching into the buffer is fetching through the cache that it stands for. -/
theorem fetched_processor {did : BufferFetched} (hframes : c.frames = below ++ [f])
    (hdid : CodeBuffer.Follows did (RegisterVM.fetch m f.pc c.buffer.cache)) :
    c.processor.markStart.fetch m f.pc =
      ((c.fetched { f with last := f.pc } did).processor,
        (RegisterVM.fetch m f.pc c.buffer.cache).outcome) := by
  rw [Processor.fetch_markStart, Processor.markStart_eq _ (processor_frames hframes)]
  simp only [fetched, processor, Processor.withCache, hframes, List.dropLast_concat,
    List.reverse_concat, hdid.cache, hdid.refills]

/-- A step of a checked processor has a result: that of the processor, with the buffer in bounds. It
is put together from `CodeBuffer.fetch_eq` and `execute_matches`, and is the step lemma for
everything below. -/
theorem step_eq (hframes : c.frames ≠ []) (hb : c.buffer.InBounds) (m : Memory) :
    ∃ after, c.step m = some (after, (c.processor.step m).2) ∧ after.buffer.InBounds ∧
      after.processor = (c.processor.step m).1 := by
  obtain ⟨below, f, hlast⟩ := exists_top hframes
  obtain ⟨did, hfetch, hfollows⟩ := CodeBuffer.fetch_eq hb m f.pc c.slots
  have hreports := hfollows.reports
  rw [step, hlast, getElem?_last, Processor.step, processor_frames hlast]
  simp only [Option.bind_eq_bind, Option.bind_some, hfetch, fetched_processor hlast hfollows]
  cases houtcome : (RegisterVM.fetch m f.pc c.buffer.cache).outcome with
  | error fault =>
      rw [houtcome] at hreports
      obtain ⟨hprocessor, hbuffer⟩ :=
        noteFault_matches (c.fetched { f with last := f.pc } did) fault
      rw [show did.fault = some fault from hreports]
      exact ⟨_, rfl, by rw [hbuffer]; exact hfollows.inBounds, hprocessor⟩
  | ok inst =>
      rw [houtcome] at hreports
      obtain ⟨hfault, hslots⟩ := hreports
      have hframes' : (c.fetched { f with last := f.pc } did).frames =
          below ++ [{ f with last := f.pc }] := by
        rw [fetched, hlast, List.dropLast_concat]
      obtain ⟨after, hexecute, hprocessor, hbuffer⟩ := execute_matches hframes' hslots m
      rw [hfault]
      exact ⟨after, hexecute, by rw [hbuffer]; exact hfollows.inBounds, hprocessor⟩

/-- A step that failed without having written anything but where it started: the fetch failed, or
the instruction was refused and has left what it worked on as it was. -/
def FailsInPlace (c : CheckedProcessor) (m : Memory) (fault : Fault) : Prop :=
  ∃ below f did, c.frames = below ++ [f] ∧ c.buffer.fetch m f.pc c.slots = some did ∧
    (did.fault = some fault ∨ did.fault = none ∧ ∃ cause address,
      fault = ⟨cause, f.pc, did.slots.opcode, address⟩ ∧
      let w := (c.fetched { f with last := f.pc } did).workspace m
      carryOut f.pc did.slots w = some (.error (cause, address), w))

/-- What a failing step does in place, by what its handler does: no handler writes before it refuses
(`carryOut_atomic`). -/
theorem failsInPlace_of_step {after : CheckedProcessor} {left : Memory} {fault : Fault}
    (hframes : c.frames ≠ []) (h : c.step m = some (after, left, some fault)) :
    c.FailsInPlace m fault := by
  obtain ⟨below, f, hlast⟩ := exists_top hframes
  rw [step, hlast, getElem?_last] at h
  simp only [Option.bind_eq_bind, Option.bind_some] at h
  obtain ⟨did, hfetch, h⟩ := Option.bind_eq_some_iff.mp h
  refine ⟨below, f, did, hlast, hfetch, ?_⟩
  cases hfault : did.fault with
  | some found =>
      rw [hfault] at h
      cases h
      exact .inl rfl
  | none =>
      rw [hfault] at h
      simp only [execute] at h
      obtain ⟨⟨result, w⟩, hcarried, h⟩ := Option.bind_eq_some_iff.mp h
      cases result with
      | ok =>  cases h
      | error refusal =>
          obtain ⟨cause, address⟩ := refusal
          cases h
          have hsame := carryOut_atomic _ _ hcarried
          subst hsame
          exact .inr ⟨rfl, cause, address, rfl, hcarried⟩

end

end CheckedProcessor

/-! ### Runs -/

namespace CheckedProcessor

variable {c : CheckedProcessor} {s : Session Unit}

theorem depth_eq (hs : c.processor = s.processor) : c.frames.length = s.processor.depth := by
  rw [← hs]
  exact List.length_reverse.symm

/-- Any number of steps have a result, and the run ends as that of the processor does. By induction
on the turns; what is carried along is that the buffer is in bounds and that both processors stand
for each other. -/
theorem run_of_running {observer : Observer Unit} (hstop : observer.stop? () = none)
    (hb : c.buffer.InBounds) (hs : c.processor = s.processor) (floor fuel : Nat) :
    ∃ after, c.run observer floor fuel s.memory =
        some (after, (s.run observer floor fuel).1.memory, (s.run observer floor fuel).2) ∧
      after.buffer.InBounds ∧ after.processor = (s.run observer floor fuel).1.processor := by
  induction fuel generalizing c s with
  | zero => exact ⟨c, rfl, hb, hs⟩
  | succ fuel ih =>
      rw [run, Session.run, depth_eq hs, hstop]
      by_cases hfloor : s.processor.depth ≤ floor
      · rw [if_pos hfloor, Session.turn_of_le observer floor hfloor]
        exact ⟨c, rfl, hb, hs⟩
      · have hne : c.frames ≠ [] := by
          intro hnil
          have hdepth := depth_eq hs
          rw [hnil, List.length_nil] at hdepth
          omega
        obtain ⟨after, hstep, hin, hafter⟩ := step_eq hne hb s.memory
        obtain ⟨hprocessor, hmemory, hending⟩ :=
          Session.turn_of_lt observer floor (Nat.lt_of_not_le hfloor) hstop
        rw [hs] at hstep hafter
        rw [if_neg hfloor, hstep]
        -- the turn and the checked step have come out alike; what is left is to go on or to stop
        generalize s.turn observer floor = turned at hprocessor hmemory hending ⊢
        generalize s.processor.step s.memory = stepped at hprocessor hmemory hending hafter ⊢
        obtain ⟨t, ending⟩ := turned
        obtain ⟨p, m, fault⟩ := stepped
        dsimp only at hprocessor hmemory hending hafter
        subst hprocessor hmemory hending
        cases fault with
        | none => exact ih hin hafter
        | some fault => exact ⟨after, rfl, hin, hafter⟩

/-- A run whose observer wants it to stop is over before its first step, and so is the checked
one. -/
theorem run_of_stopped {observer : Observer Unit} {reason : StopReason}
    (hstop : observer.stop? () = some reason) (hs : c.processor = s.processor)
    (hpatience : s.patience = 0) (floor fuel : Nat) :
    c.run observer floor fuel s.memory = some (c, s.memory, (s.run observer floor fuel).2) ∧
      (s.run observer floor fuel).1 = s := by
  cases fuel with
  | zero => exact ⟨rfl, rfl⟩
  | succ fuel =>
      rw [run, Session.run, depth_eq hs, hstop]
      by_cases hfloor : s.processor.depth ≤ floor
      · rw [if_pos hfloor, Session.turn_of_le observer floor hfloor]
        exact ⟨rfl, rfl⟩
      · rw [if_neg hfloor,
          Session.turn_of_stop observer floor (Nat.lt_of_not_le hfloor) hpatience hstop]
        exact ⟨rfl, rfl⟩

/-- A run has a result, and ends as that of the processor does, whether its observer lets it run or
not. -/
theorem run_eq (hb : c.buffer.InBounds) (hs : c.processor = s.processor)
    (hpatience : s.patience = 0) (observer : Observer Unit) (floor fuel : Nat) :
    ∃ after, c.run observer floor fuel s.memory =
        some (after, (s.run observer floor fuel).1.memory, (s.run observer floor fuel).2) ∧
      after.buffer.InBounds ∧ after.processor = (s.run observer floor fuel).1.processor := by
  cases hstop : observer.stop? () with
  | none => exact run_of_running hstop hb hs floor fuel
  | some reason =>
      obtain ⟨hrun, hsame⟩ := run_of_stopped hstop hs hpatience floor fuel
      rw [hsame]
      exact ⟨c, hrun, hb, hs⟩

end CheckedProcessor

/-! ### Histories -/

namespace HostAction

/-- What an action makes of a checked processor and memory. The host's own changes need no index;
entering a frame and running do. -/
def applyChecked : HostAction Unit → CheckedProcessor → Memory →
    Option (CheckedProcessor × Memory × Option Ending)
  | .enter pc arguments, c, m => do return (← c.enter pc arguments, m, none)
  | .modify ticket change, c, m => return (c.modifyHeld ticket change, m, none)
  | .replaceFrames frames, c, m => return ({ c with frames := frames.reverse }, m, none)
  | .rewrite memory refresh, c, _ => return (if refresh then c.invalidate else c, memory, none)
  | .invalidate, c, m => return (c.invalidate, m, none)
  | .run observer floor turns, c, m => do
      let (c, m, ending) ← c.run observer floor turns m
      return (c, m, some ending)

/-- An action does to a checked processor what it does to the processor that this stands for, and
finds a result. Frames that the host puts in place may have any registers and any program
counter. -/
theorem applyChecked_eq (action : HostAction Unit) {c : CheckedProcessor} {s : Session Unit}
    (hb : c.buffer.InBounds) (hs : c.processor = s.processor) :
    ∃ after, action.applyChecked c s.memory =
        some (after, (action.apply s).1.memory, (action.apply s).2) ∧
      after.buffer.InBounds ∧ after.processor = (action.apply s).1.processor := by
  have hinvalidate : c.invalidate.buffer.InBounds :=
    ⟨hb.size, by simp [CheckedProcessor.invalidate]⟩
  have hemptied : c.invalidate.processor = s.processor.invalidateCache := by
    rw [← hs]
    rfl
  cases action with
  | enter pc arguments =>
      obtain ⟨after, henter, hprocessor, hbuffer⟩ := c.enter_matches pc arguments
      refine ⟨after, ?_, by rw [hbuffer]; exact hb, by rw [hprocessor, hs]; rfl⟩
      rw [applyChecked, henter]
      rfl
  | modify ticket change =>
      refine ⟨_, rfl, hb, ?_⟩
      simp only [apply, ← hs, CheckedProcessor.processor, CheckedProcessor.modifyHeld,
        Processor.modifyHeld, List.map_reverse]
  | replaceFrames frames =>
      refine ⟨_, rfl, hb, ?_⟩
      simp only [apply, ← hs, CheckedProcessor.processor, List.reverse_reverse]
  | rewrite memory refresh =>
      cases refresh with
      | false => exact ⟨c, rfl, hb, hs⟩
      | true => exact ⟨c.invalidate, rfl, hinvalidate, hemptied⟩
  | invalidate => exact ⟨c.invalidate, rfl, hinvalidate, hemptied⟩
  | run observer floor turns =>
      obtain ⟨after, hrun, hin, hafter⟩ :=
        CheckedProcessor.run_eq (s := { s with patience := 0 }) hb hs rfl observer floor turns
      refine ⟨after, ?_, hin, hafter⟩
      rw [applyChecked, hrun]
      rfl

end HostAction

namespace CheckedProcessor

/-- What a history makes of a checked processor and memory, and how the runs in it ended. -/
def undergo : List (HostAction Unit) → CheckedProcessor → Memory →
    Option (CheckedProcessor × Memory × List Ending)
  | [], c, m => some (c, m, [])
  | action :: history, c, m => do
      let (c, m, ending) ← action.applyChecked c m
      let (c, m, endings) ← undergo history c m
      return (c, m, ending.toList ++ endings)

/-- A history has a result, and ends for both processors alike. The two invariants of
`applyChecked_eq` are carried from action to action. -/
theorem undergo_eq (history : List (HostAction Unit)) {c : CheckedProcessor} {s : Session Unit}
    (hb : c.buffer.InBounds) (hs : c.processor = s.processor) :
    ∃ after, c.undergo history s.memory =
        some (after, (s.perform history).1.memory, (s.perform history).2) ∧
      after.buffer.InBounds ∧ after.processor = (s.perform history).1.processor := by
  induction history generalizing c s with
  | nil => exact ⟨c, rfl, hb, hs⟩
  | cons action history ih =>
      obtain ⟨acted, happly, hin, hacted⟩ := action.applyChecked_eq hb hs
      obtain ⟨after, hundergo, hafter⟩ := ih hin hacted
      refine ⟨after, ?_, hafter⟩
      rw [undergo, happly]
      simp only [Option.bind_eq_bind, Option.bind_some, hundergo]
      rfl

theorem inBounds_start (size spill : Int) : (start size spill).buffer.InBounds where
  size := by
    rw [start, CodeBuffer.ofOptions, List.length_replicate]
    exact CodeCache.size_ofOptions_pos size spill
  used h := by simp [start, CodeBuffer.ofOptions] at h

theorem processor_start (size spill : Int) :
    (start size spill).processor = .ofOptions size spill := by
  simp only [processor, start, CodeBuffer.cache, CodeBuffer.ofOptions, List.length_replicate]
  rfl

/-- No access of a processor is ever out of range. Whatever sizes its cache is given, whatever the
memory holds and whatever the host does, entering frames, putting any frames with any registers and
any memory in place of what is there, and running for any number of turns, every index that
decoding, fetching, the check of the registers, the handlers, entering and leaving use finds what it
looks for. The part of the buffer in use stays inside it, and everything ends as it does without
checks.

A step needs no more of the processor than that the buffer is in bounds, and keeps that; the host's
other actions do not touch what is in the buffer. -/
theorem undergo_in_range (size spill : Int) (m : Memory) (history : List (HostAction Unit)) :
    let ends := Session.perform history ⟨.ofOptions size spill, m, (), 0⟩
    ∃ after, (start size spill).undergo history m = some (after, ends.1.memory, ends.2) ∧
      after.buffer.InBounds ∧ after.processor = ends.1.processor := by
  intro ends
  have hin := inBounds_start size spill
  have hprocessor := processor_start size spill
  exact undergo_eq (s := ⟨.ofOptions size spill, m, (), 0⟩) history hin hprocessor

end CheckedProcessor

end RegisterVM
