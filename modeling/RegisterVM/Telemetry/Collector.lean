import RegisterVM.Telemetry.Metrics
/-!
# Collectors

Collectors bring figures from outside into the metrics: the contents of the library store, and the
state of the running process. A group starts, stops and runs its collectors together.
-/

namespace RegisterVM.Telemetry

/-- Records the contents of the library store: how many libraries it says it has, if it can tell,
and its size in bytes, if it is on disk. -/
def collectStore (m : Metrics) (libraries : Option (Except String Int))
    (size : Option Nat) : Metrics :=
  let m :=
    match libraries with
    | some (.ok n) => m.update .libraries (·.set (Int64.ofInt n))
    | _ => m
  match size with
  | some n => m.update .storeSize (·.set (Int64.ofNat n))
  | none => m

/-- Figures about the running process. -/
structure ProcessFigures where
  allocated : UInt64
  tasks : UInt64
  heapInUse : UInt64
  collections : UInt64
  deriving DecidableEq, Repr

/-- Records the figures that have standard instruments. -/
def collectProcess (m : Metrics) (figures : ProcessFigures) : Metrics :=
  (m.update .memoryBytes (·.set figures.allocated.toInt64)).update .tasks
    (·.set figures.tasks.toInt64)

/-- The instruments for the figures that have no standard ones. -/
def processInstruments (figures : ProcessFigures) : List Instrument :=
  [⟨"summercoat_runtime_heap_inuse_bytes", "Heap in use in bytes",
    .gauge figures.heapInUse.toInt64⟩,
      ⟨"summercoat_runtime_gc_completed_cycles", "Number of completed GC cycles",
      .gauge figures.collections.toInt64⟩]

/-- Collectors that run together. -/
structure CollectorGroup (α : Type) where
  members : List α := []
  running : Bool := false

namespace CollectorGroup

variable {α : Type}

/-- Adds a collector. -/
def add (g : CollectorGroup α) (member : α) : CollectorGroup α :=
  { g with members := g.members ++ [member] }

/-- Starts all collectors, unless they run already. -/
def start (g : CollectorGroup α) (begin : α → α) : CollectorGroup α :=
  if g.running then g else ⟨g.members.map begin, true⟩

/-- Stops all collectors, if they run. -/
def stop (g : CollectorGroup α) (finish : α → α) : CollectorGroup α :=
  if g.running then ⟨g.members.map finish, false⟩ else g

/-- Lets all collectors collect. -/
def collect (g : CollectorGroup α) (gather : α → α) : CollectorGroup α :=
  { g with members := g.members.map gather }

end CollectorGroup

end RegisterVM.Telemetry
