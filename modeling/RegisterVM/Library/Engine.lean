import RegisterVM.Library.Digest
import RegisterVM.Library.Error
import RegisterVM.Library.Records
/-!
# Engines

A store rests on a database with transactions, on a way to pack bytes and on a hash. An engine says
how they are used and leaves open what they are. Every step of a database may fail for a reason of
its own, and gives the state that it leaves also where it fails.
-/

namespace RegisterVM.Library

/-- What a store rests on. The state of the database is a `σ`, and that of a transaction in progress
a `τ`, which has the database with it until it is committed or discarded. -/
structure Engine (σ τ : Type) where
  /-- Opens a database. -/
  opened : σ → σ × Except Cause Unit
  /-- Closes a database. -/
  close : σ → σ × Except Cause Unit
  isClosed : σ → Bool
  /-- What is recorded under a key. -/
  get : σ → Key → Except Cause (Option (List UInt8))
  /-- The keys that start with a mark, in the order of iteration. -/
  keys : σ → (mark : List UInt8) → Except Cause (List Key)
  /-- Starts a transaction. -/
  start : σ → Except (σ × Cause) τ
  /-- What a transaction sees under a key. -/
  find : τ → Key → τ × Except Cause (Option (List UInt8))
  /-- Writes in a transaction. -/
  write : τ → Write → τ × Except Cause Unit
  /-- Ends a transaction and keeps what it wrote. -/
  commit : τ → σ × Except Cause Unit
  /-- Ends a transaction and drops what it wrote. -/
  discard : τ → σ
  /-- The packed form of a library. -/
  pack : List UInt8 → List UInt8
  /-- The library that packed bytes hold. -/
  unpack : List UInt8 → Except LibraryError (List UInt8)
  /-- The hash of a library. -/
  digest : List UInt8 → Digest

namespace Engine

variable {σ τ : Type} (e : Engine σ τ)

/-- Writes one after the other, up to the first that fails. -/
def writeAll (t : τ) : List Write → τ × Except Cause Unit
  | [] => (t, .ok ())
  | w :: rest =>
      match e.write t w with
      | (t, .error cause) => (t, .error cause)
      | (t, .ok ()) => writeAll t rest

/-- Does all of a transaction, or nothing if its body fails or it cannot be committed. -/
def update {α : Type} (d : σ) (body : τ → τ × Except Cause α) : σ × Except Cause α :=
  match e.start d with
  | .error (d, cause) => (d, .error cause)
  | .ok t =>
      match body t with
      | (t, .error cause) => (e.discard t, .error cause)
      | (t, .ok a) =>
          match e.commit t with
          | (d, .error cause) => (d, .error cause)
          | (d, .ok ()) => (d, .ok a)

end Engine

end RegisterVM.Library
