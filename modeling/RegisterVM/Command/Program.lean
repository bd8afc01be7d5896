import RegisterVM.Command.Options
import RegisterVM.Library.Store
import RegisterVM.Machine
import RegisterVM.Processor.StepPrinter
import RegisterVM.Settings.Load
import RegisterVM.Telemetry.Endpoint
/-!
# The program

The program reads its settings, opens the libraries, and then imports libraries into a store, lists
them, or maps them into memory and runs processors. What it does depends on the command line, on the
files and on the stores it finds; what it leaves behind are directories and stores.

A time limit is counted in steps, a thousand nanoseconds each, so that a run has one outcome.
-/

namespace RegisterVM.Command

open Library.Database (engine)

/-- What the program finds and leaves behind. -/
structure World where
  files : Files.Tree
  /-- The databases of stores by the location of their directory. -/
  stores : List (List String × Library.Database) := []

/-- What a run of the program shows. -/
structure Outcome where
  status : Nat
  output : List UInt8 := []
  /-- The lines written to the error stream. -/
  errors : List String := []

namespace Outcome

/-- Success with some output. -/
def success (output : String) : Outcome := { status := 0, output := Text.Utf8.bytes output }

/-- A failure that is explained in one line. -/
def failure (line : String) : Outcome := { status := 1, errors := [line] }

/-- A failure that only the log tells about. -/
def silentFailure : Outcome := { status := 1 }

end Outcome

/-- What is shown about the program. -/
def versionText : String := "SummerCoat 0.1.0 (dev)\nBuild time: unknown\n"

/-! ### Libraries -/

/-- Opened libraries: the files of a directory, or a store at a location. -/
inductive Libraries where
  | directory (path : String)
  | store (location : List String) (content : Library.Store Library.Database)

/-- Why libraries could not be opened. -/
inductive OpenError where
  /-- There is no directory for the store. -/
  | directory (cause : Files.FileError)
  /-- The store in the directory could not be opened. -/
  | store (cause : Library.LibraryError)

/-- The wording of a failed opening. -/
def OpenError.message : OpenError → String
  | .directory cause => "failed to create store directory: " ++ cause.message
  | .store cause => cause.message

/-- Opens a store, and makes its directory if it is not there. -/
def World.openStore (w : World) (path : String) :
    Except OpenError (List String × Library.Store Library.Database × World) :=
  match w.files.makeDirectory path with
  | .error cause => .error (.directory cause)
  | .ok files =>
      match files.locate path with
      | .error problem => .error (.directory ⟨"open", path, problem⟩)
      | .ok location =>
          match Library.Store.opened engine ((w.stores.lookup location).getD {}) with
          | .error (_, cause) => .error (.store cause)
          | .ok content => .ok (location, content, { w with files })

/-- Closes a store and puts its database back. -/
def World.keep (w : World) (location : List String) (content : Library.Store Library.Database) :
    World :=
  let database := (content.close engine).1.database
  { w with stores := (location, database) :: w.stores.filter fun s => s.1 != location }

/-- Opens the libraries that settings name. -/
def World.openLibraries (w : World) (s : LibrarySettings) : Except OpenError (Libraries × World) :=
  if s.store.isEmpty then .ok (.directory s.directory, w)
  else do
    let (location, content, w) ← w.openStore s.store
    return (.store location content, w.keep location content)

/-- The source that opened libraries are loaded from. -/
def Libraries.source (l : Libraries) (files : Files.Tree) : Library.Source :=
  match l with
  | .directory path => .directory files path
  | .store _ content => content.source engine

/-! ### Importing and listing -/

/-- The line about an entry. -/
def entryLine (e : Library.Entry) : String :=
  Text.padRight 40 e.name ++ " " ++ Text.padLeft 10 (Text.int e.size.toInt) ++ " " ++
    e.digest.text ++ "\n"

/-- Imports the libraries of a directory into a store. -/
def importLibraries (w : World) (s : LibrarySettings) (path : String) : Outcome × World :=
  if s.store.isEmpty then (.failure "-import requires -store", w)
  else
    match w.openStore s.store with
    | .error e => (.failure ("Failed to open library store: " ++ e.message), w)
    | .ok (location, content, w) =>
        let (entries, failure, content) := content.importAll engine (.directory w.files path)
        let outcome :=
          match failure with
          | some e =>
              .failure
                ("Import failed after " ++ Text.nat entries.length ++ " libraries: " ++ e.message)
          | none => .success (String.join (entries.map entryLine))
        (outcome, w.keep location content)

/-- Lists stored libraries up to the first whose entry cannot be read. -/
def listEntries (content : Library.Store Library.Database) : List String → Outcome
  | [] => .success ""
  | name :: rest =>
      match content.entry engine name with
      | .error e => .failure ("Failed to read " ++ name ++ ": " ++ e.message)
      | .ok entry =>
          let outcome := listEntries content rest
          { outcome with output := Text.Utf8.bytes (entryLine entry) ++ outcome.output }

/-- Lists libraries. -/
def listLibraries (files : Files.Tree) (l : Libraries) : Outcome :=
  match (l.source files).names with
  | .error e => .failure ("Failed to list libraries: " ++ e.message)
  | .ok names =>
      match l with
      | .directory _ => .success (String.join (names.map (· ++ "\n")))
      | .store _ content => listEntries content names

/-! ### Running -/

/-- The memory of a run: the library window, and memory that can be written after it. -/
def mapMemory (s : Settings) (source : Library.Source) : Option Memory := do
  let window ← (Library.Window.build s.libraries.base source).toOption
  if s.run.ramSize ≤ 0 then return window.memory
  else if Library.addressSpace < window.stop + s.run.ramSize.toNat then none
  else
    let ram := Region.zeros "ram" (UInt32.ofNat window.stop) s.run.ramSize.toNat ⟨true, true⟩
    (window.memory.add (.region ram)).toOption

/-- Whether the metrics endpoint can be started, where one is wanted. -/
def endpointStarts (s : MetricsSettings) : Bool :=
  !s.enabled || ((Telemetry.Endpoint.mk s.address false).start 0).toBool

/-- The most steps that a run is followed for. -/
def stepLimit : Nat := 1000000000000000

/-- When a run with a time limit is stopped, by the steps taken. -/
def deadline (nanos : Int) (steps : Nat) : Option StopReason :=
  if 0 < nanos && nanos / 1000 ≤ steps then some .deadlineExceeded else none

/-- How much of the steps is shown. Colours are for those who always want them: the output is not
taken for a terminal. -/
def detail (s : Settings) : StepPrinter.Detail :=
  if s.run.trace then .full (s.output.color == "always") else .nothing

/-- The machine that settings describe, before its run. -/
def machineOf (s : Settings) (memory : Memory) : Machine :=
  let machine : Machine := {
    memory
    headers := .empty s.processor.debugCacheSize
    cacheSize := s.processor.cacheSize
    cacheSpill := s.processor.cacheSpill }
  (List.range s.processor.processors.toNat).foldl
    (fun m _ => m.addProcessor s.entryAddress s.run.arguments) machine

/-- The lines about what the processors returned. -/
def resultText (m : Machine) : String :=
  String.join (m.processors.toList.mapIdx fun i p =>
    let value := ((p.held? 0).map fun f => (f.get Register.result).toInt).getD 0
    "processor " ++ Text.nat i ++ " returned " ++ Text.int value ++ "\n")

/-- The exit status after a failure: traps are told apart. -/
def failureStatus : Stoppage → Nat
  | .fault f => if f.isTrap then 2 else 1
  | .stopped _ => 1

/-- The lines about a failed processor. The locations that were shown go before those in memory. -/
def failureLines (r : Machine.Result StepPrinter.Printout) (f : ProcessorFailure) : List String :=
  let trace :=
    match r.machine.processors[f.processor]? with
    | some p => if r.observed.headers.entries.isEmpty then f.trace
        else (p.trace r.machine.memory r.observed.headers).1
    | none => f.trace
  f.message :: trace.map fun e => "    at " ++ e.text

/-- Runs the machine that settings describe. -/
def runMachine (s : Settings) (memory : Memory) : Outcome :=
  let machine := machineOf s memory
  let limit := s.timeout.toOption.getD 0
  let r := machine.run (StepPrinter.observer (detail s) (deadline limit)) stepLimit
    { headers := machine.headers }
  let shown := r.observed.bytes
  match r.outcome with
  | .ok _ => { status := 0, output := shown ++ Text.Utf8.bytes (resultText r.machine) }
  | .error .noProcessors =>
      { status := 1, output := shown, errors := [MachineError.noProcessors.message] }
  | .error (.failed f) =>
      { status := failureStatus f.cause, output := shown, errors := failureLines r f }

/-- Maps libraries and runs them. -/
def runLibraries (s : Settings) (source : Library.Source) : Outcome :=
  match mapMemory s source with
  | none => .silentFailure
  | some memory => if endpointStarts s.metrics then runMachine s memory else .silentFailure

/-! ### The whole program -/

/-- The settings that a command line leads to. -/
def settingsOf (w : World) (o : Options) : Except String Settings :=
  match Settings.load w.files o.settingsFile with
  | .error e => .error ("Failed to load configuration: " ++ e.message)
  | .ok s =>
      match o.override s with
      | .error e => .error ("Invalid flags: " ++ e.message)
      | .ok s =>
          match s.violations with
          | [] => .ok s
          | violations => .error (Settings.violationsMessage violations)

/-- Does what options and settings ask for. -/
def perform (w : World) (o : Options) (s : Settings) : Outcome × World :=
  if !o.importFrom.isEmpty then importLibraries w s.libraries o.importFrom
  else
    match w.openLibraries s.libraries with
    | .error e => (.failure ("Failed to open libraries: " ++ e.message), w)
    | .ok (libraries, w) =>
        if o.list then (listLibraries w.files libraries, w)
        else (runLibraries s (libraries.source w.files), w)

/-- Runs the program with the words of a command line. -/
def run (words : List String) (w : World) : Outcome × World :=
  match Options.parse words {} with
  | .error e => ({ status := e.status, errors := e.lines }, w)
  | .ok o =>
      if o.version then (.success versionText, w)
      else
        match settingsOf w o with
        | .error line => (.failure line, w)
        | .ok s => perform w o s

end RegisterVM.Command
