import RegisterVM.Bisection
import RegisterVM.Number.Order
import RegisterVM.Number.Shortest
/-!
# Instruments

Counters only grow, gauges take any value, and histograms count observations below bounds. Counters
and gauges are 64-bit words and wrap around. The buckets of a histogram are cumulative: each counts
the observations that do not exceed its bound.
-/

namespace RegisterVM.Telemetry

/-- A bucket of a histogram: a bound, as the bits of a number, and a count. -/
structure Bucket where
  bound : UInt64
  count : UInt64
  deriving DecidableEq, Repr

/-- Observations counted below bounds. -/
structure Histogram where
  buckets : List Bucket
  /-- The sum of the observations, as the bits of a number. -/
  sum : UInt64 := 0
  count : UInt64 := 0
  deriving DecidableEq, Repr

namespace Histogram

/-- The bounds where none are asked for: 0.0001, 0.001, 0.01, 0.05, 0.1, 0.5, 1, 5, 10 and 60. -/
def defaultBounds : List UInt64 :=
  [0x3F1A36E2EB1C432D, 0x3F50624DD2F1A9FC, 0x3F847AE147AE147B, 0x3FA999999999999A,
    0x3FB999999999999A, 0x3FE0000000000000, 0x3FF0000000000000, 0x4014000000000000,
    0x4024000000000000, 0x404E000000000000]

/-- A histogram without observations. No bounds stand for the default ones. -/
def ofBounds (bounds : List UInt64) : Histogram :=
  let bounds := if bounds.isEmpty then defaultBounds else bounds
  { buckets := (bounds.mergeSort Number.sortsBefore).map fun bound => ⟨bound, 0⟩ }

/-- The first bucket with a value at or below its bound; the number of buckets if there is none. -/
def firstHolding (buckets : List Bucket) (value : UInt64) : Nat :=
  firstWhere (fun i => buckets[i]?.any fun b => Number.le value b.bound) 0 buckets.length

/-- Counts an observation: in the first bucket that holds the value, and in every one above it. -/
def observe (h : Histogram) (value : UInt64) : Histogram where
  buckets :=
    let first := firstHolding h.buckets value
    h.buckets.take first ++ (h.buckets.drop first).map fun b => { b with count := b.count + 1 }
  sum := (Float.ofBits h.sum + Float.ofBits value).toBits
  count := h.count + 1

/-- A duration in nanoseconds as the bits of a number of seconds. -/
def secondsOfNanos (nanos : Int) : UInt64 :=
  (Float.ofInt (nanos.tdiv 1000000000) + Float.ofInt (nanos.tmod 1000000000) / 1e9).toBits

end Histogram

/-- What an instrument shows. -/
inductive Reading where
  | counter (value : UInt64)
  | gauge (value : Int64)
  | histogram (h : Histogram)
  deriving DecidableEq, Repr

/-- The name of the type of a reading. -/
def Reading.typeName : Reading → String
  | .counter _ => "counter"
  | .gauge _ => "gauge"
  | .histogram _ => "histogram"

/-- A named instrument. -/
structure Instrument where
  name : String
  help : String
  reading : Reading
  deriving DecidableEq, Repr

namespace Instrument

/-- Adds to a counter or a gauge. -/
def add (i : Instrument) (delta : Int64) : Instrument :=
  { i with
    reading :=
      match i.reading with
      | .counter v => .counter (v + delta.toUInt64)
      | .gauge v => .gauge (v + delta)
      | .histogram h => .histogram h }

/-- Sets a gauge. -/
def set (i : Instrument) (value : Int64) : Instrument :=
  { i with
    reading :=
      match i.reading with
      | .gauge _ => .gauge value
      | other => other }

/-- Lets a histogram count an observation. -/
def observe (i : Instrument) (value : UInt64) : Instrument :=
  { i with
    reading :=
      match i.reading with
      | .histogram h => .histogram (h.observe value)
      | other => other }

/-- The value of a counter or gauge; zero for a histogram. -/
def value (i : Instrument) : Int :=
  match i.reading with
  | .counter v => v.toNat
  | .gauge v => v.toInt
  | .histogram _ => 0

/-! ### Exposition -/

/-- A bucket line for the bound `le`. -/
def bucketLine (name le : String) (count : UInt64) : String :=
  name ++ "_bucket\x7ble=\"" ++ le ++ "\"\x7d " ++ Text.nat count.toNat ++ "\n"

/-- The lines of a reading. -/
def readingLines (name : String) : Reading → String
  | .counter v => name ++ " " ++ Text.nat v.toNat ++ "\n"
  | .gauge v => name ++ " " ++ Text.int v.toInt ++ "\n"
  | .histogram h =>
      String.join (h.buckets.map fun b => bucketLine name (Number.text64 b.bound) b.count) ++
        bucketLine name "+Inf" h.count ++
        name ++ "_sum " ++ Number.fixedSix h.sum ++ "\n" ++
        name ++ "_count " ++ Text.nat h.count.toNat ++ "\n"

/-- The text of an instrument: help, type and reading. -/
def text (i : Instrument) : String :=
  "# HELP " ++ i.name ++ " " ++ i.help ++ "\n# TYPE " ++ i.name ++ " " ++
    i.reading.typeName ++ "\n" ++
    readingLines i.name i.reading

end Instrument

end RegisterVM.Telemetry
