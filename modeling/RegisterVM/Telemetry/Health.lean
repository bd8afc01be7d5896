import RegisterVM.Telemetry.Metrics
/-!
# Health

Named checks judge a machine by its metrics and by its library store. A round runs all checks in the
order of their names and publishes the outcome; the machine is healthy when all checks pass. It is
ready when its owner has said so and it is healthy.
-/

namespace RegisterVM.Telemetry

/-- What a check found. -/
structure Finding where
  healthy : Bool
  message : String := ""
  deriving DecidableEq, Repr

/-- What a check looks at. -/
inductive Check where
  /-- Memory in use against a ceiling. -/
  | memoryUsage
  /-- Whether a processor has stopped on a fatal fault. -/
  | faults
  /-- Whether the library store answers, with the reason if it does not; there may be no store. -/
  | store (answer : Option (Except String Unit))
  /-- A finding made elsewhere. -/
  | given (finding : Finding)

/-- The outcome of a round. -/
structure Status where
  healthy : Bool := true
  message : String := ""
  /-- The findings in the order of their names; none before the first round. -/
  findings : Option (List (String × Finding)) := none
  deriving DecidableEq, Repr

/-- Named checks and the outcome of the latest round. -/
structure HealthChecker where
  maxMemory : UInt64 := 4294967296
  checks : List (String × Check) := [("memory_usage", .memoryUsage), ("cpu_faults", .faults)]
  markedReady : Bool := false
  status : Status := {}

namespace HealthChecker

/-- Adds a check in place of one of the same name. -/
def register (h : HealthChecker) (name : String) (check : Check) : HealthChecker :=
  { h with checks := (name, check) :: h.checks.filter fun c => c.1 != name }

/-- Removes a check. -/
def unregister (h : HealthChecker) (name : String) : HealthChecker :=
  { h with checks := h.checks.filter fun c => c.1 != name }

/-- Registers the check of the library store. -/
def registerStore (h : HealthChecker) (answer : Option (Except String Unit)) : HealthChecker :=
  h.register "store" (.store answer)

/-- Marks the machine ready or not. -/
def setReady (h : HealthChecker) (ready : Bool) : HealthChecker := { h with markedReady := ready }

/-- Whether all checks of the latest round passed. -/
def isHealthy (h : HealthChecker) : Bool := h.status.healthy

/-- Whether the machine is marked ready and healthy. -/
def isReady (h : HealthChecker) : Bool := h.markedReady && h.isHealthy

/-- Judges the memory in use: above four fifths of the ceiling is worth a note. -/
def judgeMemory (ceiling used : UInt64) : Finding :=
  if ceiling < used then ⟨false, "memory usage exceeds threshold"⟩
  else if ceiling / 10 * 8 < used then ⟨true, "memory usage above 80%"⟩
  else ⟨true, ""⟩

/-- What a check finds. Without metrics there is nothing to complain about. -/
def perform (h : HealthChecker) (metrics : Option Metrics) : Check → Finding
  | .memoryUsage =>
      match metrics with
      | none => ⟨true, ""⟩
      | some m => judgeMemory h.maxMemory (UInt64.ofInt (m.value .memoryBytes))
  | .faults =>
      if metrics.all fun m => m.value .faults == 0 then ⟨true, ""⟩
      else ⟨false, "a cpu stopped on a fatal fault"⟩
  | .store none => ⟨false, "no store"⟩
  | .store (some (.error reason)) => ⟨false, "store unavailable: " ++ reason⟩
  | .store (some (.ok _)) => ⟨true, ""⟩
  | .given finding => finding

/-- The outcome of findings: what failed, with its message if there is one. -/
def summarize (findings : List (String × Finding)) : Status where
  healthy := findings.all fun f => f.2.healthy
  message := "; ".intercalate (findings.filterMap fun (name, f) =>
    if f.healthy || f.message.isEmpty then none else some (name ++ ": " ++ f.message))
  findings := some findings

/-- Runs all checks and publishes the outcome. -/
def check (h : HealthChecker) (metrics : Option Metrics) : HealthChecker :=
  let ordered := h.checks.mergeSort fun a b => a.1 ≤ b.1
  { h with status := summarize (ordered.map fun (name, c) => (name, h.perform metrics c)) }

end HealthChecker

end RegisterVM.Telemetry
