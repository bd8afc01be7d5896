import RegisterVM.Library.Error
import RegisterVM.Text.Quoted
/-!
# Sources of libraries

A source lists the names of its libraries and loads their bytes. Libraries come from memory or from
the files of a directory. A file with the extension for packed data is unpacked when it is loaded; a
plain file of the same name takes precedence.
-/

namespace RegisterVM.Library

/-- Where libraries come from. -/
structure Source where
  /-- The names in the order in which the libraries are mapped. -/
  names : Except LibraryError (List String)
  /-- The bytes of a library. -/
  load : String → Except LibraryError (List UInt8)

/-- Libraries held in memory. Names may be listed without a library, and the last library of a name
counts. -/
def Source.inMemory (names : List String) (libraries : List (String × List UInt8)) : Source where
  names := .ok names
  load name :=
    match libraries.reverse.lookup name with
    | some bytes => .ok bytes
    | none => .error { cause := .notFound }

/-- The extension of packed files. -/
def packedExtension : String := ".zst"

/-- The name of the library that a file holds. -/
def libraryName (file : String) : String :=
  if file.endsWith packedExtension then (file.dropEnd packedExtension.length).toString else file

/-- Leaves out what came before. -/
def dropRepeats : List String → List String
  | [] => []
  | name :: rest => name :: (dropRepeats rest).filter (· != name)

namespace Directory

open Files (Tree FileError)

/-- An error about a file. -/
def fileError (context : List String) (cause : FileError) : LibraryError := ⟨context, .file cause⟩

/-- The names of the libraries in a directory, in order. -/
def names (t : Tree) (path : String) : Except LibraryError (List String) :=
  match t.list path with
  | .error cause => .error (fileError ["failed to read library directory"] cause)
  | .ok entries =>
      let found := entries.filterMap fun (file, node) =>
        match node with
        | .file _ => some (libraryName file)
        | .directory => none
      .ok ((dropRepeats (found.filter (· != ""))).mergeSort fun a b => a ≤ b)

/-- The bytes of a library in a directory, where packed files are opened by `unpack`. -/
def load (unpack : List UInt8 → Except LibraryError (List UInt8)) (t : Tree)
    (directory name : String) : Except LibraryError (List UInt8) :=
  if name.isEmpty || name != Files.Path.base name then .error ⟨[Text.quote name], .notFound⟩
  else
    let path := Files.Path.join directory name
    match t.read path with
    | .ok bytes => .ok bytes
    | .error cause =>
        if cause.problem ≠ .notFound then .error (fileError ["failed to read " ++ path] cause)
        else
          let packed := path ++ packedExtension
          match t.read packed with
          | .ok bytes => unpack bytes
          | .error cause =>
              if cause.problem = .notFound then .error ⟨[name], .notFound⟩
              else .error (fileError ["failed to read " ++ packed] cause)

/-- Whether a directory can be read. -/
def ping (t : Tree) (path : String) : Except LibraryError Unit :=
  match t.list path with
  | .error cause => .error (fileError [] cause)
  | .ok _ => .ok ()

end Directory

/-- The libraries of a directory, where packed files are opened by `unpack`. -/
def Source.ofDirectory (unpack : List UInt8 → Except LibraryError (List UInt8)) (t : Files.Tree)
    (path : String) : Source where
  names := Directory.names t path
  load := Directory.load unpack t path

/-- The libraries of a directory. -/
def Source.directory (t : Files.Tree) (path : String) : Source := .ofDirectory unpack t path

end RegisterVM.Library
