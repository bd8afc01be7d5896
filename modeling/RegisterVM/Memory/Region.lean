import RegisterVM.Bytes
import RegisterVM.ErrorCode
import RegisterVM.Text.Digits
/-!
# Regions

A region is a contiguous block of bytes at a base address with permissions. Every access is checked
first: the whole range must lie inside the region, and then the permission must be there. Reading
and writing after a successful check cannot fail.
-/

namespace RegisterVM

/-- What an access does. -/
inductive AccessKind where
  | read | write
  deriving DecidableEq, Repr

/-- Why an access was refused. -/
inductive AccessError where
  /-- The range does not lie inside the window. -/
  | outOfBounds
  /-- The range is inside, but the access is not permitted. -/
  | violation
  deriving DecidableEq, Repr

/-- The wording of an access error. -/
def AccessError.message : AccessError → String
  | .outOfBounds => ErrorCode.outOfBounds.wording
  | .violation => ErrorCode.accessViolation.wording

/-- The code of an access error. -/
def AccessError.code : AccessError → ErrorCode
  | .outOfBounds => .outOfBounds
  | .violation => .accessViolation

instance : Failure AccessError := ⟨AccessError.message, fun e => some e.code⟩

/-- Which accesses a region permits. -/
structure Permission where
  readable : Bool
  writable : Bool
  deriving DecidableEq, Repr

/-- Whether an access is permitted. -/
def Permission.allows (p : Permission) : AccessKind → Bool
  | .read => p.readable
  | .write => p.writable

/-- The permission given by flag bits: bit 0 reads, bit 1 writes. -/
def Permission.ofFlags (flags : Nat) : Permission := ⟨flags % 2 = 1, flags / 2 % 2 = 1⟩

/-- A contiguous block of bytes. A region owns its bytes: one that is made from bytes of the caller
holds them as they were then, and neither sees what the other writes. A program in which the two
share the bytes is modelled by putting a changed memory in place. -/
structure Region where
  name : String
  base : UInt32
  permission : Permission
  bytes : ByteArray

/-- A load that does not fit into a region. -/
structure LoadError where
  count : Nat
  address : UInt32
  region : String
  deriving DecidableEq, Repr

/-- The wording of a load error. -/
def LoadError.message (e : LoadError) : String :=
  "load " ++ Text.nat e.count ++ " bytes at " ++ Text.address e.address ++ " into " ++ e.region ++
    ": " ++ ErrorCode.outOfBounds.wording

instance : Failure LoadError := ⟨LoadError.message, fun _ => some .outOfBounds⟩

namespace Region

/-- A region of zero bytes. -/
def zeros (name : String) (base : UInt32) (size : Nat) (permission : Permission) : Region :=
  ⟨name, base, permission, zeroBytes size⟩

/-- A region with the given contents. -/
def ofBytes (name : String) (base : UInt32) (bytes : List UInt8)
    (permission : Permission) : Region :=
  ⟨name, base, permission, ⟨bytes.toArray⟩⟩

/-- How many bytes a region has. -/
def size (r : Region) : Nat := r.bytes.size

/-- Where an address lies in a region. -/
def offset (r : Region) (address : UInt32) : Nat := address.toNat - r.base.toNat

/-- Whether the `count` bytes from `address` on lie inside a region. -/
def covers (r : Region) (address : UInt32) (count : Nat) : Bool :=
  r.base ≤ address && r.offset address + count ≤ r.size

/-- Whether an address lies inside a region. -/
def contains (r : Region) (address : UInt32) : Bool := r.covers address 1

/-- Checks an access of `count` bytes: bounds first, then permission. -/
def check (r : Region) (kind : AccessKind) (address : UInt32) (count : Nat) :
    Except AccessError Unit :=
  if !r.covers address count then .error .outOfBounds
  else if !r.permission.allows kind then .error .violation
  else .ok ()

/-- The `count` bytes from `address` on. -/
def slice (r : Region) (address : UInt32) (count : Nat) : List UInt8 :=
  (r.bytes.extract (r.offset address) (r.offset address + count)).data.toList

/-- Replaces the bytes from `index` on; what lies past the end is dropped. -/
def overwrite (bytes : ByteArray) (index : Nat) : List UInt8 → ByteArray
  | [] => bytes
  | b :: rest =>
      if h : index < bytes.size then overwrite (bytes.set index b h) (index + 1) rest else bytes

/-- Replaces the bytes from `address` on, whatever the permissions. -/
def poke (r : Region) (address : UInt32) (data : List UInt8) : Region :=
  { r with bytes := overwrite r.bytes (address.toNat - r.base.toNat) data }

/-- Reads `count` bytes. -/
def read (r : Region) (address : UInt32) (count : Nat) : Except AccessError (List UInt8) := do
  r.check .read address count
  return r.slice address count

/-- Writes bytes. -/
def write (r : Region) (address : UInt32) (data : List UInt8) : Except AccessError Region := do
  r.check .write address data.length
  return r.poke address data

/-- Fills in contents without regard to permissions, for loaders of read-only regions. -/
def load (r : Region) (address : UInt32) (data : List UInt8) : Except LoadError Region :=
  if r.covers address data.length then .ok (r.poke address data)
  else .error ⟨data.length, address, r.name⟩

/-- A short description: name, base and size. -/
def text (r : Region) : String :=
  r.name ++ "[" ++ Text.address r.base ++ "+" ++ Text.nat r.size ++ "]"

end Region

end RegisterVM
