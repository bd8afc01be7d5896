import RegisterVM.Library.Database
import RegisterVM.Library.Entry
import RegisterVM.Library.Source
import RegisterVM.Library.Window
/-!
# The library store

A store keeps libraries under their names, each in two records: the packed bytes, and an entry with
size and digest. Both are written in one transaction. Loading verifies the bytes against the entry.
The store counts its libraries when it is opened and keeps the count from then on, beside the
database: it moves once a transaction is committed.
-/

namespace RegisterVM.Library

/-- The records that a library has in a store. -/
inductive Part where
  | packed
  | entry
  deriving DecidableEq, Repr

namespace Part

/-- What the keys of a part start with. -/
def mark : Part → List UInt8
  | packed => Text.Utf8.bytes "lib:"
  | entry => Text.Utf8.bytes "meta:"

/-- The key of a part of a library. -/
def key (part : Part) (name : String) : Key := part.mark ++ Text.Utf8.bytes name

/-- What stands after a mark, in a key that starts with it. -/
def afterMark? : (mark key : List UInt8) → Option (List UInt8)
  | [], key => some key
  | _ :: _, [] => none
  | m :: mark, k :: key => if m = k then afterMark? mark key else none

/-- The name in the key of a part. Keys are made from names, so what stands after the mark is
text. -/
def name? (part : Part) (key : Key) : Option String :=
  (afterMark? part.mark key).bind Text.Utf8.text?

end Part

/-- A store of libraries: a database, and the number of libraries in it. -/
structure Store (σ : Type) where
  database : σ
  count : Int := 0

namespace Store

variable {σ τ : Type} (e : Engine σ τ)

/-- The names of the stored libraries in the order of their keys. -/
def names (s : Store σ) : Except LibraryError (List String) :=
  match e.keys s.database Part.entry.mark with
  | .error cause => .error { cause }
  | .ok keys => .ok (keys.filterMap Part.entry.name?)

/-- Opens a store on a database and counts its libraries; a database that cannot be listed is closed
again. -/
def opened (d : σ) : Except (σ × LibraryError) (Store σ) :=
  match e.opened d with
  | (d, .error cause) => .error (d, ⟨["failed to open badger db"], cause⟩)
  | (d, .ok ()) =>
      match names e ⟨d, 0⟩ with
      | .error failure => .error ((e.close d).1, failure.within "failed to count libraries")
      | .ok names => .ok ⟨d, names.length⟩

/-- Closes a store. -/
def close (s : Store σ) : Store σ × Except LibraryError Unit :=
  let (database, closed) := e.close s.database
  ({ s with database }, closed.mapError fun cause => { cause })

/-- Closes a store and opens one on its database; the old store stays if that fails. -/
def reopen (s : Store σ) : Store σ × Except LibraryError Unit :=
  match opened e (s.close e).1.database with
  | .error (database, failure) => ({ s with database }, .error failure)
  | .ok s => (s, .ok ())

/-- Whether a look-up has found that nothing is there. One that failed has not. -/
def isAbsent : Except Cause (Option (List UInt8)) → Bool
  | .ok none => true
  | _ => false

/-- The transaction that stores a library, and whether its name is new. It goes on where the look-up
fails. -/
def storing (name : String) (library : List UInt8) (t : τ) : τ × Except Cause Bool :=
  let (t, found) := e.find t (Part.entry.key name)
  let (t, written) := e.writeAll t
    [.set (Part.packed.key name) (e.pack library),
      .set (Part.entry.key name) (Entry.of e.digest name library).bytes]
  (t, written.map fun _ => isAbsent found)

/-- Stores a library in place of an earlier version. -/
def put (s : Store σ) (name : String) (library : List UInt8) :
    Store σ × Except LibraryError Entry :=
  if name.isEmpty then (s, .error { cause := .emptyName })
  else if slotSize < library.length then
    (s, .error ⟨[name ++ " is " ++ Text.nat library.length ++ " bytes"], .chunkTooLarge⟩)
  else
    match e.update s.database (storing e name library) with
    | (database, .error cause) => ({ s with database }, .error ⟨["failed to store library"], cause⟩)
    | (database, .ok isNew) =>
        (⟨database, if isNew then s.count + 1 else s.count⟩, .ok (.of e.digest name library))

/-- The entry of a library. -/
def entry (s : Store σ) (name : String) : Except LibraryError Entry :=
  withinContext "failed to get entry" <|
    match e.get s.database (Part.entry.key name) with
    | .error cause => .error { cause }
    | .ok none => .error ⟨[name], .notFound⟩
    | .ok (some bytes) =>
        match Entry.ofBytes? bytes with
        | some entry => .ok entry
        | none => .error { cause := .malformedEntry }

/-- The packed bytes of a library. -/
def packed (s : Store σ) (name : String) : Except LibraryError (List UInt8) :=
  withinContext "failed to get library" <|
    match e.get s.database (Part.packed.key name) with
    | .error cause => .error { cause }
    | .ok none => .error ⟨[name], .notFound⟩
    | .ok (some bytes) => .ok bytes

/-- The bytes of a library, verified. -/
def load (s : Store σ) (name : String) : Except LibraryError (List UInt8) := do
  let entry ← s.entry e name
  let packed ← s.packed e name
  let library ← withinContext name (e.unpack packed)
  if (library.length : Int) ≠ entry.size.toInt || e.digest library ≠ entry.digest then
    throw ⟨[name], .digestMismatch⟩
  return library

/-- The transaction that removes a library, and whether there was one. -/
def removing (name : String) (t : τ) : τ × Except Cause Bool :=
  match e.find t (Part.entry.key name) with
  | (t, .error cause) => (t, .error cause)
  | (t, .ok none) => (t, .ok false)
  | (t, .ok (some _)) =>
      let (t, written) :=
        e.writeAll t [.delete (Part.packed.key name), .delete (Part.entry.key name)]
      (t, written.map fun _ => true)

/-- Removes a library; one that is not there is no error. -/
def delete (s : Store σ) (name : String) : Store σ × Except LibraryError Unit :=
  match e.update s.database (removing e name) with
  | (database, .error cause) => ({ s with database }, .error ⟨["failed to delete library"], cause⟩)
  | (database, .ok existed) => (⟨database, if existed then s.count - 1 else s.count⟩, .ok ())

/-- Whether a store can be used. -/
def ping (s : Store σ) : Except LibraryError Unit :=
  if e.isClosed s.database then .error { cause := .other "library store is closed" } else .ok ()

/-- The libraries of a store. -/
def source (s : Store σ) : Source where
  names := s.names e
  load := s.load e

/-- Copies libraries one by one and stops at the first failure: what was written, and the
failure. -/
def importNames (source : Source) :
    List String → Store σ → List Entry × Option LibraryError × Store σ
  | [], s => ([], none, s)
  | name :: rest, s =>
      match withinContext ("failed to load " ++ name) (source.load name) with
      | .error failure => ([], some failure, s)
      | .ok library =>
          match s.put e name library with
          | (s, .error failure) => ([], some failure, s)
          | (s, .ok entry) =>
              let (entries, failure, s) := importNames source rest s
              (entry :: entries, failure, s)

/-- Copies all libraries of a source into a store. -/
def importAll (s : Store σ) (source : Source) : List Entry × Option LibraryError × Store σ :=
  match source.names with
  | .error failure => ([], some failure, s)
  | .ok names => importNames e source names s

end Store

end RegisterVM.Library
