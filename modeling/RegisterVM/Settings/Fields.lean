import RegisterVM.Settings.Basic
/-!
# Named settings

Every setting has a name inside a section. By name, settings can be read and assigned; a value of
the wrong kind or out of the range of a setting is refused.
-/

namespace RegisterVM.Settings

/-- The value of a setting. -/
inductive FieldValue where
  | integer (n : Int)
  | text (s : String)
  | flag (b : Bool)
  | integers (ns : List Int)
  deriving DecidableEq, Repr

/-- A setting with its name. -/
structure Field where
  group : String
  name : String
  get : Settings → FieldValue
  /-- Assigns a value that the setting can take. -/
  set? : FieldValue → Settings → Option Settings

namespace Field

/-- Whether a number fits into 64 bits with a sign. -/
def fits64 (n : Int) : Bool := Int64.minValue.toInt ≤ n && n ≤ Int64.maxValue.toInt

/-- A setting that is a number of 64 bits. -/
def integer (group name : String) (get : Settings → Int)
    (set : Int → Settings → Settings) : Field where
  group
  name
  get s := .integer (get s)
  set?
    | .integer n, s => if fits64 n then some (set n s) else none
    | _, _ => none

/-- A setting that is an address. -/
def address (group name : String) (get : Settings → UInt32) (set : UInt32 → Settings → Settings) :
    Field where
  group
  name
  get s := .integer (get s).toNat
  set?
    | .integer n, s =>
        if 0 ≤ n && n < UInt32.size then some (set (UInt32.ofNat n.toNat) s) else none
    | _, _ => none

/-- A setting that is a text. -/
def text (group name : String) (get : Settings → String)
    (set : String → Settings → Settings) : Field where
  group
  name
  get s := .text (get s)
  set?
    | .text t, s => some (set t s)
    | _, _ => none

/-- A setting that is on or off. -/
def flag (group name : String) (get : Settings → Bool)
    (set : Bool → Settings → Settings) : Field where
  group
  name
  get s := .flag (get s)
  set?
    | .flag b, s => some (set b s)
    | _, _ => none

/-- Whether a number fits into a register. -/
def fits32 (n : Int) : Bool := Int32.minValue.toInt ≤ n && n ≤ Int32.maxValue.toInt

/-- A setting that is a list of register values. -/
def arguments (group name : String) (get : Settings → List Int32)
    (set : List Int32 → Settings → Settings) : Field where
  group
  name
  get s := .integers ((get s).map Int32.toInt)
  set?
    | .integers ns, s => if ns.all fits32 then some (set (ns.map Int32.ofInt) s) else none
    | _, _ => none

/-- The name of a setting with its section. -/
def path (f : Field) : String := f.group ++ "." ++ f.name

end Field

/-- All settings by name. -/
def fields : List Field := [
  .integer "cpu" "processors" (·.processor.processors)
    fun n s => { s with processor := { s.processor with processors := n } },
  .integer "cpu" "cache-size" (·.processor.cacheSize)
    fun n s => { s with processor := { s.processor with cacheSize := n } },
  .integer "cpu" "cache-spill" (·.processor.cacheSpill)
    fun n s => { s with processor := { s.processor with cacheSpill := n } },
  .integer "cpu" "debug-cache-size" (·.processor.debugCacheSize)
    fun n s => { s with processor := { s.processor with debugCacheSize := n } },
  .text "suites" "dir" (·.libraries.directory)
    fun t s => { s with libraries := { s.libraries with directory := t } },
  .text "suites" "store" (·.libraries.store)
    fun t s => { s with libraries := { s.libraries with store := t } },
  .address "suites" "base" (·.libraries.base)
    fun a s => { s with libraries := { s.libraries with base := a } },
  .address "run" "entry" (·.run.entry)
    fun a s => { s with run := { s.run with entry := a } },
  .arguments "run" "args" (·.run.arguments)
    fun values s => { s with run := { s.run with arguments := values } },
  .integer "run" "ram-size" (·.run.ramSize)
    fun n s => { s with run := { s.run with ramSize := n } },
  .text "run" "timeout" (·.run.timeout)
    fun t s => { s with run := { s.run with timeout := t } },
  .flag "run" "trace" (·.run.trace)
    fun b s => { s with run := { s.run with trace := b } },
  .flag "metrics" "enabled" (·.metrics.enabled)
    fun b s => { s with metrics := { s.metrics with enabled := b } },
  .text "metrics" "addr" (·.metrics.address)
    fun t s => { s with metrics := { s.metrics with address := t } },
  .text "metrics" "collect-interval" (·.metrics.interval)
    fun t s => { s with metrics := { s.metrics with interval := t } },
  .integer "logging" "verbosity" (·.output.verbosity)
    fun n s => { s with output := { s.output with verbosity := n } },
  .text "logging" "color" (·.output.color)
    fun t s => { s with output := { s.output with color := t } }]

/-- The sections of settings. -/
def sections : List String := ["cpu", "suites", "run", "metrics", "logging"]

/-- A letter without its case; two letters outside ASCII have a case form inside it. -/
def foldCase (c : Char) : Char :=
  if c.toNat = 0x17F then 's' else if c.toNat = 0x212A then 'k' else c.toLower

/-- Whether two names are equal up to the case of letters. -/
def sameName (a b : String) : Bool := a.toList.map foldCase == b.toList.map foldCase

/-- The name that a key means: the one spelled like it, or else the first equal up to case. -/
def nameOf? (names : List String) (key : String) : Option String :=
  if names.contains key then some key else names.find? (sameName key)

/-- The setting that a key of a section means. -/
def fieldOf? (group key : String) : Option Field :=
  let inside := fields.filter fun f => f.group == group
  (nameOf? (inside.map Field.name) key).bind fun name => inside.find? fun f => f.name == name

end RegisterVM.Settings
