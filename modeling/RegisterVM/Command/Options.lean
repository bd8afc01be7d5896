import RegisterVM.Number.Literal
import RegisterVM.Settings.Basic
import RegisterVM.Text.Space
/-!
# Command line options

Options start with one or two dashes. A switch stands alone or has its value attached after an
equals sign; every other option takes its value from there or from the next word. The first word
that is no option ends them, and so do two dashes on their own. An option given twice has its last
value.

Options that are given go before the settings of a file.
-/

namespace RegisterVM.Command

/-- What a command line asks for. A setting that is not given is `none`. -/
structure Options where
  settingsFile : String := "summercoat.toml"
  directory : Option String := none
  store : Option String := none
  entry : Option UInt32 := none
  arguments : Option String := none
  processors : Option Int := none
  /-- The time limit in nanoseconds. -/
  timeout : Option Int := none
  trace : Option Bool := none
  color : Option String := none
  verbosity : Option Int := none
  metricsEnabled : Option Bool := none
  metricsAddress : Option String := none
  importFrom : String := ""
  list : Bool := false
  version : Bool := false
  deriving DecidableEq, Repr

/-- Why a value does not suit an option. -/
inductive ValueError where
  | malformed
  | outOfRange
  deriving DecidableEq, Repr

/-- The wording of a refused value. -/
def ValueError.message : ValueError → String
  | .malformed => "parse error"
  | .outOfRange => "value out of range"

/-- A refused literal as a refused value. -/
def ValueError.ofLiteral : Number.LiteralError → ValueError
  | .malformed => .malformed
  | .outOfRange => .outOfRange

/-- Why a command line is refused. -/
inductive UsageError where
  | badSyntax (word : String)
  | notDefined (name : String)
  | needsArgument (name : String)
  | badValue (value name : String) (cause : ValueError)
  | badSwitch (value name : String)
  /-- Help was asked for. -/
  | help
  deriving DecidableEq, Repr

/-- The lines about a refused command line. -/
def UsageError.lines : UsageError → List String
  | .badSyntax word => ["bad flag syntax: " ++ word]
  | .notDefined name => ["flag provided but not defined: -" ++ name]
  | .needsArgument name => ["flag needs an argument: -" ++ name]
  | .badValue value name cause =>
      ["invalid value " ++ Text.quote value ++ " for flag -" ++ name ++ ": " ++ cause.message]
  | .badSwitch value name =>
      ["invalid boolean value " ++ Text.quote value ++ " for -" ++ name ++ ": " ++
        ValueError.malformed.message]
  | .help => []

/-- The exit status for a refused command line. -/
def UsageError.status : UsageError → Nat
  | .help => 0
  | _ => 2

/-- What an option does. -/
inductive OptionEffect where
  | switch (set : Bool → Options → Options)
  | value (set : String → Options → Except ValueError Options)

namespace Options

/-- An option whose value is any text. -/
def text (set : String → Options → Options) : OptionEffect := .value fun v o => .ok (set v o)

/-- An option whose value is an integer of 64 bits. -/
def integer (set : Int → Options → Options) : OptionEffect :=
  .value fun v o =>
    match Number.Literal.integer 64 v.toList with
    | .ok n => .ok (set n o)
    | .error e => .error (.ofLiteral e)

/-- An option whose value is a natural number of 64 bits. -/
def natural (set : Nat → Options → Options) : OptionEffect :=
  .value fun v o =>
    match Number.Literal.natural 64 v.toList with
    | .ok n => .ok (set n o)
    | .error e => .error (.ofLiteral e)

/-- An option whose value is a duration. -/
def duration (set : Int → Options → Options) : OptionEffect :=
  .value fun v o =>
    match Settings.Duration.parse v with
    | .ok n => .ok (set n o)
    | .error _ => .error .malformed

/-- What the option of a name does. -/
def effect? (name : String) : Option OptionEffect :=
  match name with
  | "config" => some (text fun v o => { o with settingsFile := v })
  | "suites-dir" => some (text fun v o => { o with directory := some v })
  | "store" => some (text fun v o => { o with store := some v })
  | "entry" => some (natural fun n o => { o with entry := some (UInt32.ofNat n) })
  | "args" => some (text fun v o => { o with arguments := some v })
  | "processors" => some (integer fun n o => { o with processors := some n })
  | "timeout" => some (duration fun n o => { o with timeout := some n })
  | "trace" => some (.switch fun b o => { o with trace := some b })
  | "color" => some (text fun v o => { o with color := some v })
  | "verbosity" => some (integer fun n o => { o with verbosity := some n })
  | "enable-metrics" => some (.switch fun b o => { o with metricsEnabled := some b })
  | "metrics-addr" => some (text fun v o => { o with metricsAddress := some v })
  | "import" => some (text fun v o => { o with importFrom := v })
  | "list" => some (.switch fun b o => { o with list := b })
  | "version" => some (.switch fun b o => { o with version := b })
  | _ => none

/-- The truth value that a text stands for. -/
def truth? (text : String) : Option Bool :=
  if ["1", "t", "T", "TRUE", "true", "True"].contains text then some true
  else if ["0", "f", "F", "FALSE", "false", "False"].contains text then some false
  else none

/-- A word of the command line. -/
inductive Word where
  /-- No option, or the mark that ends them. -/
  | stop
  | malformed
  | option (name : String) (attached : Option String)

/-- Takes a name and an attached value apart; the name is not empty. -/
def splitValue (first : Char) (rest : List Char) : Word :=
  let name := String.ofList (first :: rest.takeWhile (· != '='))
  match rest.dropWhile (· != '=') with
  | [] => .option name none
  | _ :: value => .option name (some (String.ofList value))

/-- Takes an option apart after its dashes. -/
def readName : List Char → Word
  | [] => .malformed
  | c :: rest => if c = '-' || c = '=' then .malformed else splitValue c rest

/-- Takes a word apart. -/
def readWord (word : String) : Word :=
  match word.toList with
  | ['-', '-'] => .stop
  | '-' :: '-' :: rest => readName rest
  | '-' :: c :: rest => readName (c :: rest)
  | _ => .stop

/-- Reads options from the words of a command line. -/
def parse : List String → Options → Except UsageError Options
  | [], o => .ok o
  | word :: rest, o =>
      match readWord word with
      | .stop => .ok o
      | .malformed => .error (.badSyntax word)
      | .option name attached =>
          match effect? name with
          | none => .error (if name = "help" || name = "h" then .help else .notDefined name)
          | some (.switch set) =>
              match attached with
              | none => parse rest (set true o)
              | some value =>
                  match truth? value with
                  | some b => parse rest (set b o)
                  | none => .error (.badSwitch value name)
          | some (.value set) =>
              match attached with
              | some value =>
                  match set value o with
                  | .ok o => parse rest o
                  | .error cause => .error (.badValue value name cause)
              | none =>
                  match rest with
                  | [] => .error (.needsArgument name)
                  | value :: rest =>
                      match set value o with
                      | .ok o => parse rest o
                      | .error cause => .error (.badValue value name cause)

end Options

/-- A list item that is no argument. -/
structure ArgumentError where
  item : String
  cause : Number.LiteralError
  deriving DecidableEq, Repr

/-- The wording of a refused item. -/
def ArgumentError.message (e : ArgumentError) : String :=
  "invalid argument " ++ Text.quote e.item ++ ": strconv.ParseInt: parsing " ++
    Text.quote (Text.trim e.item) ++ ": " ++ e.cause.message

/-- The arguments in a list with commas; a blank list has none. -/
def readArguments (list : String) : Except ArgumentError (List Int32) :=
  if (Text.trim list).isEmpty then .ok []
  else
    (list.splitOn ",").mapM fun item =>
      match Number.Literal.integer 32 (Text.trim item).toList with
      | .ok n => .ok (Int32.ofInt n)
      | .error cause => .error ⟨item, cause⟩

/-- Settings with the given options in their place. -/
def Options.override (o : Options) (s : Settings) : Except ArgumentError Settings := do
  let given ←
    match o.arguments with
    | none => pure s.run.arguments
    | some list => readArguments list
  return {
    processor := { s.processor with processors := o.processors.getD s.processor.processors }
    libraries := { s.libraries with
      directory := o.directory.getD s.libraries.directory
      store := o.store.getD s.libraries.store }
    run := { s.run with
      entry := o.entry.getD s.run.entry
      arguments := given
      timeout := (o.timeout.map Settings.Duration.text).getD s.run.timeout
      trace := o.trace.getD s.run.trace }
    metrics := { s.metrics with
      enabled := o.metricsEnabled.getD s.metrics.enabled
      address := o.metricsAddress.getD s.metrics.address }
    output :=
      { verbosity := o.verbosity.getD s.output.verbosity, color := o.color.getD s.output.color } }

end RegisterVM.Command
