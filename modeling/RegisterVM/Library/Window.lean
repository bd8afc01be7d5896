import RegisterVM.Library.Source
import RegisterVM.Memory.Basic
/-!
# The library window

Libraries are mapped into memory in one window: a configuration table that can be written, then one
slot of fixed size per library in the order in which the source lists them. A library fills the
front of its slot and cannot be written; the rest of the slot is not mapped.
-/

namespace RegisterVM.Library

/-- The size of the configuration table. -/
def tableSize : Nat := 1048576

/-- The size of the slot of a library. -/
def slotSize : Nat := 4194304

/-- How many addresses there are. -/
def addressSpace : Nat := 4294967296

/-- Libraries in memory. -/
structure Window where
  base : UInt32
  memory : Memory
  names : List String
  /-- The region of each library, the last of a name in front. -/
  chunks : List (String × Region)

namespace Window

/-- The address after the last slot of a window with `count` libraries. -/
def endAddress (base : UInt32) (count : Nat) : Nat := base.toNat + tableSize + count * slotSize

/-- The configuration table at rest. -/
def table (base : UInt32) : Region := .zeros "config" base tableSize ⟨true, true⟩

/-- The bytes of a library that has to fit into a slot. -/
def loadChunk (source : Source) (name : String) : Except LibraryError (List UInt8) := do
  let bytes ← withinContext ("failed to load " ++ name) (source.load name)
  if slotSize < bytes.length then
    throw ⟨[name ++ " is " ++ Text.nat bytes.length ++ " bytes"], .chunkTooLarge⟩
  return bytes

/-- Maps a library at the end of a window under construction; an empty library has no addresses. -/
def addChunk (w : Window) (name : String) (address : Nat) (bytes : List UInt8) :
    Except LibraryError Window :=
  let chunk := Region.ofBytes name (UInt32.ofNat address) bytes ⟨true, false⟩
  let chunks := (name, chunk) :: w.chunks
  if bytes.isEmpty then .ok { w with chunks }
  else
    match w.memory.add (.region chunk) with
    | .ok memory => .ok { w with memory, chunks }
    | .error e => .error { cause := .other e.message }

/-- Maps libraries slot by slot from an address on. -/
def addChunks (source : Source) (address : Nat) : List String → Window → Except LibraryError Window
  | [], w => .ok w
  | name :: rest, w => do
      let bytes ← loadChunk source name
      addChunks source (address + slotSize) rest (← w.addChunk name address bytes)

/-- The window at `base` with all libraries of a source. -/
def build (base : UInt32) (source : Source) : Except LibraryError Window := do
  let names ← withinContext "failed to list libraries" source.names
  if addressSpace < endAddress base names.length then
    throw
      ⟨[Text.nat names.length ++ " libraries at " ++ Text.address base ++
        " exceed the address space"],
      .outOfSpace⟩
  let start : Window := ⟨base, .map [.region (table base)], names, []⟩
  addChunks source (base.toNat + tableSize) names start

/-- The region of a library. -/
def lookup? (w : Window) (name : String) : Option Region := w.chunks.lookup name

/-- The address after the last slot. -/
def stop (w : Window) : Nat := endAddress w.base w.names.length

/-- How many bytes the table and the libraries have, a library that is listed twice counting
once. -/
def mappedBytes (w : Window) : Nat :=
  tableSize + (dropRepeats w.names).foldl
    (fun total name => total + ((w.lookup? name).map Region.size).getD 0) 0

end Window

end RegisterVM.Library
