import RegisterVM.Processor.Run
import RegisterVM.Telemetry.Instrument
/-!
# Metrics

A set of metrics holds instruments and exposes some of them by name. The standard instruments report
on processors, memory and the library store; they are always there. An instrument that is exposed
under a taken name displaces the other from view, but both keep working.
-/

namespace RegisterVM.Telemetry

/-- The standard instruments. -/
inductive Standard where
  | steps | invokes | returns | refills | atomics | traps | faults
  | activeProcessors | frameDepth | mappedBytes | memoryBytes | tasks | libraries | storeSize
  | runDuration
  deriving DecidableEq, Repr

namespace Standard

/-- Where a standard instrument stands in a set. -/
def index : Standard → Nat
  | .steps => 0
  | .invokes => 1
  | .returns => 2
  | .refills => 3
  | .atomics => 4
  | .traps => 5
  | .faults => 6
  | .activeProcessors => 7
  | .frameDepth => 8
  | .mappedBytes => 9
  | .memoryBytes => 10
  | .tasks => 11
  | .libraries => 12
  | .storeSize => 13
  | .runDuration => 14

/-- The standard instruments at rest, each at its index. -/
def instruments : List Instrument :=
  let counter (name help : String) : Instrument := ⟨name, help, .counter 0⟩
  let gauge (name help : String) : Instrument := ⟨name, help, .gauge 0⟩
  [counter "summercoat_steps_total" "Total number of instructions executed",
    counter "summercoat_invokes_total" "Total number of frames entered by INVOKE",
    counter "summercoat_returns_total" "Total number of frames left by RETURN",
    counter "summercoat_icache_refills_total" "Total number of instruction cache refills",
    counter "summercoat_atomic_ops_total" "Total number of atomic memory operations",
    counter "summercoat_traps_total" "Total number of arithmetic traps",
    counter "summercoat_faults_total" "Total number of runs ended by a fatal fault",
    gauge "summercoat_active_cpus" "Number of CPUs currently running",
    gauge "summercoat_frame_depth" "Frame count of the last CPU to stop running",
    gauge "summercoat_mapped_bytes" "Bytes of memory mapped into the VM",
    gauge "summercoat_memory_bytes" "Host heap usage in bytes",
    gauge "summercoat_goroutines" "Number of active goroutines",
    gauge "summercoat_libraries" "Number of libraries in the suite store",
    gauge "summercoat_store_size_bytes" "Suite store size in bytes",
    ⟨"summercoat_run_duration_seconds", "Duration of a single CPU run in seconds",
      .histogram (.ofBounds [])⟩]

end Standard

/-- A change of one standard instrument. -/
inductive Change where
  | add (s : Standard) (delta : Int64)
  | set (s : Standard) (value : Int64)
  | observe (s : Standard) (value : UInt64)

namespace Change

/-- What is recorded of a finished run: its events, the frames left and its duration. -/
def ofRun (events : Stats) (depth : Int64) (nanos : Int) : List Change :=
  [.add .steps events.steps.toInt64, .add .invokes events.invokes.toInt64,
    .add .returns events.returns.toInt64, .add .refills events.refills.toInt64,
    .add .atomics events.atomics.toInt64, .add .traps events.traps.toInt64, .set .frameDepth depth,
    .observe .runDuration (Histogram.secondsOfNanos nanos)]

/-- What is recorded when a run starts. -/
def ofStart : Change := .add .activeProcessors 1

/-- What is recorded of a fault as such; a trap is an event of the processor. -/
def ofFault : Ending → List Change
  | .fault f => if f.isTrap then [] else [.add .faults 1]
  | .finished | .stopped _ | .running => []

/-- What is recorded when a run ends, from the counts at its start and the processor at its end. -/
def ofEnding (before : Stats) (after : Processor) (ending : Ending) (nanos : Int) : List Change :=
  ofFault ending ++ ofRun (after.stats.sub before) (Int64.ofNat after.depth) nanos ++
    [.add .activeProcessors (-1)]

end Change

/-- Instruments, and the names under which some of them are exposed. -/
structure Metrics where
  instruments : Array Instrument
  exposed : List (String × Nat)

namespace Metrics

/-- The standard instruments at rest, all exposed. -/
def standard : Metrics where
  instruments := Standard.instruments.toArray
  exposed := Standard.instruments.mapIdx fun i instrument => (instrument.name, i)

/-- Holds a further instrument without exposing it: the set and the instrument's index. -/
def hold (m : Metrics) (i : Instrument) : Metrics × Nat :=
  ({ m with instruments := m.instruments.push i }, m.instruments.size)

/-- Exposes a held instrument under its name. -/
def expose (m : Metrics) (index : Nat) : Metrics :=
  match m.instruments[index]? with
  | none => m
  | some i => { m with exposed := (i.name, index) :: m.exposed.filter fun e => e.1 != i.name }

/-- The index of the instrument exposed under a name. -/
def find? (m : Metrics) (name : String) : Option Nat := m.exposed.lookup name

/-- Changes an instrument. -/
def modify (m : Metrics) (index : Nat) (f : Instrument → Instrument) : Metrics :=
  { m with instruments := m.instruments.modify index f }

/-- Changes a standard instrument. -/
def update (m : Metrics) (s : Standard) (f : Instrument → Instrument) : Metrics :=
  m.modify s.index f

/-- The value of a standard counter or gauge. -/
def value (m : Metrics) (s : Standard) : Int :=
  (m.instruments[s.index]?.map Instrument.value).getD 0

/-- The exposed names in order. -/
def names (m : Metrics) : List String := (m.exposed.map Prod.fst).mergeSort fun a b => a ≤ b

/-- The exposed instruments in the order of their names. -/
def exposedInstruments (m : Metrics) : List Instrument :=
  m.names.filterMap fun name => (m.find? name).bind fun index => m.instruments[index]?

/-- The text of all exposed instruments, each followed by an empty line. -/
def text (m : Metrics) : String :=
  String.join (m.exposedInstruments.map fun i => i.text ++ "\n")

/-- Writes the text where only `limit` bytes fit: how many were written, and whether that was
all. -/
def write (m : Metrics) (limit : Nat) : Nat × Bool :=
  let total := m.text.utf8ByteSize
  (min limit total, total ≤ limit)

/-- Makes a change. -/
def apply (m : Metrics) : Change → Metrics
  | .add s delta => m.update s (·.add delta)
  | .set s value => m.update s (·.set value)
  | .observe s value => m.update s (·.observe value)

/-- Makes changes one after the other. -/
def applyAll (m : Metrics) (changes : List Change) : Metrics := changes.foldl apply m

/-- Records the events of a finished run, the frames left and its duration. -/
def recordRun (m : Metrics) (events : Stats) (depth : Int64) (nanos : Int) : Metrics :=
  m.applyAll (Change.ofRun events depth nanos)

/-- Records a run of a processor: that it started, and how it ended. -/
def recordEnding (m : Metrics) (before after : Processor) (ending : Ending) : Metrics :=
  (m.apply Change.ofStart).applyAll (Change.ofEnding before.stats after ending 0)

/-- Takes notice of the runs of several processors that ended together. -/
def recordEndings (m : Metrics) (before after : List Processor) (endings : List Ending) : Metrics :=
  (endings.zip (before.zip after)).foldl (fun m (ending, p, q) => m.recordEnding p q ending) m

end Metrics

end RegisterVM.Telemetry
