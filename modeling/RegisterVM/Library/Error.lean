import RegisterVM.Compression.Zstandard
import RegisterVM.ErrorCode
import RegisterVM.Files.Tree
/-!
# Library errors

An error about libraries has a cause and a context: what was being done, from the outside in. The
wording gives the context first.
-/

namespace RegisterVM.Library

/-- What went wrong. -/
inductive Cause where
  | notFound
  | chunkTooLarge
  | digestMismatch
  | emptyName
  /-- The store is closed. -/
  | closed
  /-- The name of a library is too long to be stored. -/
  | nameTooLong
  /-- A stored entry cannot be read. -/
  | malformedEntry
  /-- There is no room in the address space. -/
  | outOfSpace
  | frame (cause : Compression.Zstandard.FrameError)
  | file (cause : Files.FileError)
  /-- A source of libraries failed for a reason of its own. -/
  | other (reason : String)
  deriving DecidableEq, Repr

/-- The wording of a cause. -/
def Cause.message : Cause → String
  | .notFound => ErrorCode.libraryNotFound.wording
  | .chunkTooLarge => ErrorCode.chunkTooLarge.wording
  | .digestMismatch => ErrorCode.digestMismatch.wording
  | .emptyName => "empty library name"
  | .closed => "DB Closed"
  | .nameTooLong => "name exceeds 65000 bytes"
  | .malformedEntry => "malformed entry"
  | .outOfSpace => ErrorCode.outOfBounds.wording
  | .frame cause => cause.message
  | .file cause => cause.message
  | .other reason => reason

/-- The code of a cause. -/
def Cause.code? : Cause → Option ErrorCode
  | .notFound => some .libraryNotFound
  | .chunkTooLarge => some .chunkTooLarge
  | .digestMismatch => some .digestMismatch
  | .outOfSpace => some .outOfBounds
  | .frame .truncated => some .unexpectedEnd
  | _ => none

/-- A cause and what was being done, outermost first. -/
structure LibraryError where
  context : List String := []
  cause : Cause
  deriving DecidableEq, Repr

namespace LibraryError

/-- The wording of an error. -/
def message (e : LibraryError) : String := ": ".intercalate (e.context ++ [e.cause.message])

/-- An error seen from further outside. -/
def within (action : String) (e : LibraryError) : LibraryError :=
  { e with context := action :: e.context }

instance : Failure LibraryError := ⟨message, fun e => e.cause.code?⟩

end LibraryError

/-- A result whose error is seen from further outside. -/
def withinContext {α : Type} (action : String) (result : Except LibraryError α) :
    Except LibraryError α :=
  result.mapError (·.within action)

/-- Unpacks the stored form of a library. -/
def unpack (bytes : List UInt8) : Except LibraryError (List UInt8) :=
  (Compression.Zstandard.unpack bytes).mapError fun cause =>
    ⟨["failed to decompress"], .frame cause⟩

end RegisterVM.Library
