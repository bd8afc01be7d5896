import RegisterVM.Files.Tree
import RegisterVM.Settings.Fields
import RegisterVM.Toml.Table
/-!
# Settings files

Settings are kept in TOML documents: a table for each section, a key for each setting. What a
document does not mention stays as it was. A key that is no setting is refused, after everything
that is one could be assigned. A missing file leaves the defaults.
-/

namespace RegisterVM.Settings

open Toml (Value Scalar Key)

/-- Why settings could not be read. -/
inductive LoadError where
  /-- A file could not be read. -/
  | file (cause : Files.FileError)
  /-- A document is malformed, or a value does not suit its setting. -/
  | document
  /-- Keys are no settings. -/
  | unknownKeys (keys : List Key)
  /-- A failure inside a file. -/
  | within (path : String) (cause : LoadError)

/-- The wording of a failure. -/
def LoadError.message : LoadError → String
  | .file cause => "failed to read config file: " ++ cause.message
  | .document => "malformed document"
  | .unknownKeys keys => "unknown keys: " ++ ", ".intercalate (keys.map Toml.keyText)
  | .within path cause => "parse error in " ++ path ++ ": " ++ cause.message

/-- The integer that a value is. -/
def integer? : Value → Option Int
  | .scalar (.integer n) => some n
  | _ => none

/-- The value for a setting that a document gives, if it is of a suitable kind. -/
def fieldValue? : Value → Option FieldValue
  | .scalar (.integer n) => some (.integer n)
  | .scalar (.text t) => some (.text t)
  | .scalar (.boolean b) => some (.flag b)
  | .array items => (items.mapM integer?).map .integers
  | _ => none

/-- Assigns the entries of a section; nothing if a value does not suit its setting. -/
def assignSection (group : String) (entries : Toml.Entries) (s : Settings) : Option Settings :=
  entries.foldlM (fun s (key, value) =>
    match fieldOf? group key with
    | none => some s
    | some field => do field.set? (← fieldValue? value) s) s

/-- Assigns all entries of a document. -/
def assign (entries : Toml.Entries) (s : Settings) : Option Settings :=
  entries.foldlM (fun s (key, value) =>
    match nameOf? sections key with
    | none => some s
    | some group =>
        match value with
        | .table inner => assignSection group inner s
        | _ => none) s

/-- Whether a key is a section or a setting. -/
def isKnown : Key → Bool
  | [group] => (nameOf? sections group).isSome
  | [group, name] => ((nameOf? sections group).bind fun group => fieldOf? group name).isSome
  | _ => false

/-- Reads a document over settings. -/
def parse (document : List UInt8) (s : Settings) : Except LoadError Settings :=
  match (Text.Utf8.text? document).bind Toml.Table.parse with
  | none => .error .document
  | some table =>
      match assign table.entries s with
      | none => .error .document
      | some s =>
          match table.written.filter fun key => !isKnown key with
          | [] => .ok s
          | unknown => .error (.unknownKeys unknown)

/-- Reads the settings in a file over the defaults. -/
def load (files : Files.Tree) (path : String) : Except LoadError Settings :=
  match files.read path with
  | .error cause => if cause.problem = .notFound then .ok {} else .error (.file cause)
  | .ok document => (parse document {}).mapError (.within path)

end RegisterVM.Settings
