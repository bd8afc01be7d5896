import RegisterVM.Command.Program
import RegisterVM.Library.Archive
/-!
# Command line

Reads the files that a command line mentions, runs the program on them, and writes what it shows and
what it leaves behind.
-/

namespace RegisterVM.Main

open Command (Options World)

/-- The location of a path. -/
def location (here path : String) : List String :=
  let whole := if Files.Path.isRooted path then path else here ++ "/" ++ path
  (Files.Path.parts (Files.Path.clean whole)).filter fun part => !part.isEmpty

/-- Adds what stands at a path to a tree: a file, or a directory and the files in it. -/
def addPath (here : String) (tree : Files.Tree) (path : String) : IO Files.Tree := do
  let place := location here path
  let whole := (← IO.currentDir) / path
  if path.isEmpty then return tree
  else if ← whole.isDir then
    let mut grown := tree.insert place .directory
    for entry in ← whole.readDir do
      if ← entry.path.isDir then grown := grown.insert (place ++ [entry.fileName]) .directory
      else
        let content ← IO.FS.readBinFile entry.path
        grown := grown.insert (place ++ [entry.fileName]) (.file content.toList)
    return grown
  else if ← whole.pathExists then
    let content ← IO.FS.readBinFile whole
    return tree.insert place (.file content.toList)
  else return tree

/-- The file that records are kept in, inside the directory of a store. -/
def recordsFile : String := "records"

/-- The records of a store; none if it has no file yet. -/
def readRecords (directory : String) : IO Library.Records := do
  let whole := (← IO.currentDir) / directory / recordsFile
  if ← whole.pathExists then
    let content ← IO.FS.readBinFile whole
    return (Library.Records.ofBytes? content.toList).getD {}
  else return {}

/-- Writes the records of a store. -/
def writeRecords (directory : String) (records : Library.Records) : IO Unit := do
  let whole := (← IO.currentDir) / directory / recordsFile
  IO.FS.writeBinFile whole ⟨records.bytes.toArray⟩

/-- Runs the program in a world read for its command line. -/
def execute (words : List String) (here : String) : IO UInt32 := do
  let start : Files.Tree := { here := location here "." }
  let options := (Options.parse words {}).toOption.getD {}
  let withSettings ← addPath here start options.settingsFile
  let settings := ((Command.settingsOf { files := withSettings } options).toOption).getD {}
  let withLibraries ← addPath here withSettings settings.libraries.directory
  let files ← addPath here withLibraries options.importFrom
  let path := settings.libraries.store
  let files ← if path.isEmpty then pure files else addPath here files path
  let place := location here path
  let stored : Library.Database := { records := ← readRecords path, isOpen := false }
  let (outcome, world) := Command.run words { files, stores := [(place, stored)] }
  if !path.isEmpty && ((world.files.locate path).toOption == some place) then
    if let some content := world.stores.lookup place then
      IO.FS.createDirAll ((← IO.currentDir) / path)
      writeRecords path content.records
  (← IO.getStdout).write ⟨outcome.output.toArray⟩
  for line in outcome.errors do
    IO.eprintln line
  return UInt32.ofNat outcome.status

end RegisterVM.Main

def main (words : List String) : IO UInt32 := do
  RegisterVM.Main.execute words (toString (← IO.currentDir))
