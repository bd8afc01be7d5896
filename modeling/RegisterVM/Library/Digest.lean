import RegisterVM.ErrorCode
import RegisterVM.Hash.Blake2b
import RegisterVM.Text.Base58
/-!
# Digests

Libraries are told apart by the hash of their bytes. A digest is shown in base 58, and the text of a
digest can be read back.
-/

namespace RegisterVM.Library

/-- The hash of a library: 32 bytes. -/
structure Digest where
  bytes : Vector UInt8 Hash.Blake2b.digestSize
  deriving DecidableEq, Repr

/-- Why a text is no digest. -/
inductive DigestError where
  | base58 (cause : Text.Base58.DecodeError)
  | length (count : Nat)
  deriving DecidableEq, Repr

/-- The wording of a refusal. -/
def DigestError.message : DigestError → String
  | .base58 cause => "invalid base58: " ++ cause.message
  | .length count => "invalid digest length: " ++ Text.nat count

instance : Failure DigestError := ⟨DigestError.message, fun _ => none⟩

namespace Digest

/-- The digest that starts with the given bytes, cut or filled up with zeros to the right length. -/
def ofBytes (bytes : List UInt8) : Digest := ⟨Vector.ofFn fun i => bytes.getD i.val 0⟩

/-- The bytes of a digest. -/
def toList (d : Digest) : List UInt8 := d.bytes.toList

/-- The digest of a library. -/
def of (library : List UInt8) : Digest := ofBytes (Hash.Blake2b.hash library)

/-- A digest as text. -/
def text (d : Digest) : String := Text.Base58.encode d.toList

/-- The digest that a text shows. -/
def parse (text : String) : Except DigestError Digest :=
  match Text.Base58.decode text.toList with
  | .error cause => .error (.base58 cause)
  | .ok bytes =>
      if bytes.length = Hash.Blake2b.digestSize then .ok (ofBytes bytes)
      else .error (.length bytes.length)

end Digest

end RegisterVM.Library
