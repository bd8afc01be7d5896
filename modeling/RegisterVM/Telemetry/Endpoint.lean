import RegisterVM.ErrorCode
import RegisterVM.Telemetry.Address
import RegisterVM.Telemetry.Health
/-!
# The metrics endpoint

The endpoint answers requests for the metrics text, for the health of the machine and for its
readiness. Only reading is allowed. It listens on an address from start to stop; starting it twice
is an error, stopping it twice is not.
-/

namespace RegisterVM.Telemetry

/-- What a response holds. -/
inductive Body where
  | text (content : String)
  /-- The health of the machine and whether it is ready. -/
  | health (status : Status) (ready : Bool)
  | readiness (ready : Bool)
  deriving DecidableEq, Repr

/-- An answer to a request. -/
structure Response where
  status : Nat
  contentType : String
  /-- The methods allowed, where the one used is not. -/
  allow : String := ""
  body : Body
  deriving DecidableEq, Repr

/-- The content type of plain text. -/
def plainText : String := "text/plain; charset=utf-8"

/-- Refuses every method that does more than read; no method means a read. -/
def onRead (method : String) (response : Response) : Response :=
  if method == "" || method == "GET" || method == "HEAD" then response
  else ⟨405, plainText, "GET, HEAD", .text "method not allowed\n"⟩

/-- Answers a request for the metrics text. -/
def metricsResponse (metrics : Metrics) (method : String) : Response :=
  onRead method ⟨200, "text/plain; version=0.0.4; charset=utf-8", "", .text metrics.text⟩

/-- Answers that depend on a judgement: positive, or the service is not available. -/
def judged (good : Bool) (body : Body) : Response :=
  ⟨if good then 200 else 503, "application/json", "", body⟩

/-- Answers a request for the health of the machine. -/
def healthResponse (health : Option HealthChecker) (method : String) : Response :=
  onRead method <|
    match health with
    | none => judged true (.health {} true)
    | some h => judged h.isHealthy (.health h.status h.isReady)

/-- Answers a request for the readiness of the machine. -/
def readyResponse (health : Option HealthChecker) (method : String) : Response :=
  let ready := health.all HealthChecker.isReady
  onRead method (judged ready (.readiness ready))

/-- The answer to a request for a path. -/
def respond (metrics : Metrics) (health : Option HealthChecker) (method path : String) : Response :=
  match path with
  | "/metrics" => metricsResponse metrics method
  | "/health" => healthResponse health method
  | "/ready" => readyResponse health method
  | _ => ⟨404, plainText, "", .text "404 page not found\n"⟩

/-- Where the endpoint listens, or would listen. -/
structure Endpoint where
  address : String := ":9090"
  running : Bool := false
  deriving DecidableEq, Repr

/-- Why an endpoint does not start. -/
inductive StartError where
  | alreadyRunning
  | listen (address : String) (cause : AddressError)
  deriving DecidableEq, Repr

/-- The wording of a failed start. -/
def StartError.message : StartError → String
  | .alreadyRunning => "metrics server already running"
  | .listen address cause => "listen " ++ address ++ ": listen tcp: " ++ cause.message

instance : Failure StartError := ⟨StartError.message, fun _ => none⟩

namespace Endpoint

/-- Starts listening; `free` is the port to take where the address leaves the choice. -/
def start (e : Endpoint) (free : Nat) : Except StartError Endpoint :=
  if e.running then .error .alreadyRunning
  else
    match Address.bind e.address free with
    | .error cause => .error (.listen e.address cause)
    | .ok address => .ok ⟨address, true⟩

/-- Stops listening. The address stays known. -/
def stop (e : Endpoint) : Endpoint := { e with running := false }

end Endpoint

end RegisterVM.Telemetry
