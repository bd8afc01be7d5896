import RegisterVM.Library.Cbor
import RegisterVM.Library.Digest
import RegisterVM.Text.Utf8
/-!
# Library entries

An entry describes a stored library: its name, its size and its digest. Entries are kept as a CBOR
map with the keys 1, 2 and 3. Reading is lenient: keys may come in any order, unknown keys are
skipped, of equal keys the first counts, and a missing or null value is zero.
-/

namespace RegisterVM.Library

/-- The description of a stored library. -/
structure Entry where
  name : String := ""
  size : Int64 := 0
  digest : Digest := .ofBytes []
  deriving DecidableEq, Repr

namespace Entry

/-- The entry of a library, with the digest that a hash gives it. -/
def of (hash : List UInt8 → Digest) (name : String) (library : List UInt8) : Entry where
  name := name
  size := Int64.ofNat library.length
  digest := hash library

/-- The bytes of an entry. -/
def bytes (e : Entry) : List UInt8 :=
  Cbor.writeMapHead 3 ++ Cbor.writeInt 1 ++ Cbor.writeText e.name ++ Cbor.writeInt 2 ++
    Cbor.writeInt e.size.toInt ++ Cbor.writeInt 3 ++ Cbor.writeBytes e.digest.toList

/-- Whether an item stands for a missing value. -/
def isNull : Cbor.Item → Bool
  | .simple 22 _ | .simple 23 _ => true
  | _ => false

/-- The first value under an integer key that is not negative. -/
def valueOf? (key : Nat) (pairs : List (Cbor.Item × Cbor.Item)) : Option Cbor.Item :=
  (pairs.find? fun pair =>
    match pair.1 with
    | .unsigned n => n == key
    | _ => false).map Prod.snd

/-- A text value; every piece has to be well formed. -/
def textValue? : Cbor.Item → Option String
  | .text pieces => (pieces.mapM Text.Utf8.text?).map String.join
  | _ => none

/-- An integer value of 64 bits. -/
def intValue? : Cbor.Item → Option Int64
  | .unsigned n => if n < 0x8000000000000000 then some (Int64.ofNat n) else none
  | .negative n => if n < 0x8000000000000000 then some (Int64.ofInt (-1 - n)) else none
  | _ => none

/-- A byte given as a number, or zero if missing. -/
def byteValue? (item : Cbor.Item) : Option UInt8 :=
  if isNull item then some 0
  else
    match item with
    | .unsigned n => if n < 256 then some (UInt8.ofNat n) else none
    | _ => none

/-- A digest value: a byte string, or an array of bytes. -/
def digestValue? : Cbor.Item → Option Digest
  | .bytes content => some (.ofBytes content)
  | .array items => ((items.take Hash.Blake2b.digestSize).mapM byteValue?).map Digest.ofBytes
  | _ => none

/-- The value of a field, `missing` if there is none; nothing if it is of the wrong kind. -/
def field {α : Type} (pairs : List (Cbor.Item × Cbor.Item)) (key : Nat) (missing : α)
    (convert : Cbor.Item → Option α) : Option α :=
  match valueOf? key pairs with
  | none => some missing
  | some item => if isNull item then some missing else convert item

/-- The entry that bytes spell. -/
def ofBytes? (bytes : List UInt8) : Option Entry :=
  match Cbor.read bytes with
  | some (.map pairs) => do
      return {
        name := ← field pairs 1 "" textValue?
        size := ← field pairs 2 0 intValue?
        digest := ← field pairs 3 (.ofBytes []) digestValue? }
  | some item => if isNull item then some {} else none
  | none => none

end Entry

end RegisterVM.Library
