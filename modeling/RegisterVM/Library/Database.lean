import RegisterVM.Library.Engine
/-!
# A database in memory

Records, kept while the database is closed. A transaction works on a copy of them. A key that is too
long cannot be written, and a closed database refuses everything.
-/

namespace RegisterVM.Library

/-- A database. -/
structure Database where
  records : Records := {}
  isOpen : Bool := true

/-- A transaction in progress: the database as it was, and the records as they are in the
transaction. -/
structure Draft where
  origin : Database
  records : Records

namespace Database

/-- The most bytes that a key may have. -/
def maxKey : Nat := 65000

/-- Answers on an open database. -/
def whileOpen {α : Type} (d : Database) (answer : α) : Except Cause α :=
  if d.isOpen then .ok answer else .error .closed

/-- The engine of a database in memory, with frames that hold bytes as they are. -/
def engine : Engine Database Draft where
  opened d := ({ d with isOpen := true }, .ok ())
  close d := ({ d with isOpen := false }, .ok ())
  isClosed d := !d.isOpen
  get d key := d.whileOpen (d.records.get? key)
  keys d mark := d.whileOpen (d.records.keysFrom mark)
  start d := (d.whileOpen (Draft.mk d d.records)).mapError (d, ·)
  find t key := (t, .ok (t.records.get? key))
  write t w :=
    if maxKey < w.key.length then (t, .error .nameTooLong)
    else ({ t with records := w.apply t.records }, .ok ())
  commit t := ({ t.origin with records := t.records }, .ok ())
  discard t := t.origin
  pack := Compression.Zstandard.pack
  unpack := unpack
  digest := .of

end Database

end RegisterVM.Library
