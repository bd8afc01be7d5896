import RegisterVM.ErrorCode
import RegisterVM.Library.Window
import RegisterVM.Settings.Duration
import RegisterVM.Text.Quoted
/-!
# Settings

Everything that can be set about a run of the machine, with defaults, and the rules that settings
have to keep so that the machine can run.
-/

namespace RegisterVM

/-- How processors are set up. -/
structure ProcessorSettings where
  processors : Int := 1
  cacheSize : Int := 2048
  cacheSpill : Int := 1024
  debugCacheSize : Int := 256
  deriving DecidableEq, Repr

/-- Where libraries come from and where they are mapped. A store goes before a directory. -/
structure LibrarySettings where
  directory : String := "suites"
  store : String := ""
  base : UInt32 := 0x00100000
  deriving DecidableEq, Repr

/-- What is run: the first frame, and the memory that follows the libraries. -/
structure RunSettings where
  /-- Where to start; zero stands for the first library. -/
  entry : UInt32 := 0
  arguments : List Int32 := []
  ramSize : Int := 16777216
  timeout : String := ""
  trace : Bool := false
  deriving DecidableEq, Repr

/-- Whether and where metrics are served. -/
structure MetricsSettings where
  enabled : Bool := false
  address : String := ":9090"
  interval : String := "15s"
  deriving DecidableEq, Repr

/-- What is shown while running. -/
structure OutputSettings where
  verbosity : Int := 1
  color : String := "auto"
  deriving DecidableEq, Repr

/-- All settings. -/
structure Settings where
  processor : ProcessorSettings := {}
  libraries : LibrarySettings := {}
  run : RunSettings := {}
  metrics : MetricsSettings := {}
  output : OutputSettings := {}
  deriving DecidableEq, Repr

namespace Settings

/-- Nanoseconds of an optional duration; an empty text stands for zero. -/
def optionalDuration (text : String) : Except DurationError Int :=
  if text.isEmpty then .ok 0 else Duration.parse text

/-- How long a run may take; zero is no limit. -/
def timeout (s : Settings) : Except DurationError Int := optionalDuration s.run.timeout

/-- How often figures are collected; zero leaves it to the collector. -/
def interval (s : Settings) : Except DurationError Int := optionalDuration s.metrics.interval

/-- The address of the first instruction. -/
def entryAddress (s : Settings) : UInt32 :=
  if s.run.entry ≠ 0 then s.run.entry else s.libraries.base + UInt32.ofNat Library.tableSize

/-- A rule that settings break. -/
inductive Violation where
  | processors
  | cacheSize
  | cacheSpill
  | debugCacheSize
  | noLibraries
  | base
  | ramSize
  | timeout (cause : DurationError)
  | noAddress
  | interval (cause : DurationError)
  | color (name : String)
  deriving DecidableEq, Repr

/-- The wording of a broken rule. -/
def Violation.message : Violation → String
  | .processors => "cpu.processors must be at least 1"
  | .cacheSize => "cpu.cache-size must be positive"
  | .cacheSpill => "cpu.cache-spill must be between 1 and cpu.cache-size"
  | .debugCacheSize => "cpu.debug-cache-size must be positive"
  | .noLibraries => "one of suites.dir or suites.store is required"
  | .base => "suites.base must not be zero"
  | .ramSize => "run.ram-size must not be negative"
  | .timeout cause => "run.timeout: " ++ cause.message
  | .noAddress => "metrics.addr is required when metrics are enabled"
  | .interval cause => "metrics.collect-interval: " ++ cause.message
  | .color name => "logging.color " ++ Text.quote name ++ " is not auto, always or never"

/-- The violation for a duration that cannot be read. -/
def durationViolation (violation : DurationError → Violation) :
    Except DurationError Int → List Violation
  | .ok _ => []
  | .error cause => [violation cause]

/-- All rules that settings break. -/
def violations (s : Settings) : List Violation :=
  let check (broken : Bool) (violation : Violation) : List Violation :=
    if broken then [violation] else []
  check (s.processor.processors < 1) .processors ++
    check (s.processor.cacheSize < 1) .cacheSize ++
    check (s.processor.cacheSpill < 1 || s.processor.cacheSize < s.processor.cacheSpill)
      .cacheSpill ++
    check (s.processor.debugCacheSize < 1) .debugCacheSize ++
    check (s.libraries.directory.isEmpty && s.libraries.store.isEmpty) .noLibraries ++
    check (s.libraries.base == 0) .base ++
    check (s.run.ramSize < 0) .ramSize ++
    durationViolation .timeout s.timeout ++
    check (s.metrics.enabled && s.metrics.address.isEmpty) .noAddress ++
    durationViolation .interval s.interval ++
    check (!(["auto", "always", "never"].contains s.output.color)) (.color s.output.color)

/-- The wording of broken rules. -/
def violationsMessage (violations : List Violation) : String :=
  ErrorCode.invalidSettings.wording ++ ": " ++ "; ".intercalate (violations.map Violation.message)

instance : Failure (List Violation) := ⟨violationsMessage, fun _ => some .invalidSettings⟩

end Settings

end RegisterVM
