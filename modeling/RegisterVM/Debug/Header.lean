import RegisterVM.Debug.Table
/-!
# Debug headers

The debug information of a method starts with a header: where its line, instruction and address
tables lie relative to it (zero for none), and the names of its class, method and descriptor.

Reading is best effort. A location that cannot be resolved is `-1`, and a name that cannot be read
is empty; the reason is reported beside what was read.
-/

namespace RegisterVM.Debug

/-- How many bytes the fixed part of a header takes. -/
def headerSize : Nat := 6

/-- How many bytes of names are looked at. -/
def nameLimit : Int := 1024

/-- The debug header of a method. -/
structure Header where
  lineTable : Int16 := 0
  instructionTable : Int16 := 0
  addressTable : Int16 := 0
  className : String := ""
  methodName : String := ""
  descriptor : String := ""
  deriving DecidableEq, Repr

/-- A relative instruction address resolved against the tables of a method. -/
structure Location where
  className : String := ""
  methodName : String := ""
  descriptor : String := ""
  line : Int32 := -1
  instruction : Int32 := -1
  address : Int32 := -1
  deriving DecidableEq, Repr

/-! ### Reading -/

/-- Reads the table offset that stands `skip` bytes into the header. -/
def readOffset (m : Memory) (w skip : UInt32) : Except TextError Int16 :=
  match m.readNat (w + skip) 2 with
  | .error e => .error (.access e)
  | .ok n => .ok (Int16.ofNat n)

/-- Reads the header at `w`: what could be read, and why the rest could not. -/
def readHeader (m : Memory) (w : UInt32) : Header × Option TextError :=
  let h : Header := {}
  match readOffset m w 0 with
  | .error e => (h, some e)
  | .ok offset =>
  let h := { h with lineTable := offset }
  match readOffset m w 2 with
  | .error e => (h, some e)
  | .ok offset =>
  let h := { h with instructionTable := offset }
  match readOffset m w 4 with
  | .error e => (h, some e)
  | .ok offset =>
  let h := { h with addressTable := offset }
  match readText (Stream.readByte m) ⟨w + UInt32.ofNat headerSize, nameLimit⟩ with
  | (.error e, _) => (h, some e)
  | (.ok name, s) =>
  let h := { h with className := name }
  match readText (Stream.readByte m) s with
  | (.error e, _) => (h, some e)
  | (.ok name, s) =>
  let h := { h with methodName := name }
  match readText (Stream.readByte m) s with
  | (.error e, _) => (h, some e)
  | (.ok name, _) => ({ h with descriptor := name }, none)

/-- Looks up `pc` in the table at `offset` from the header at `w`. -/
def lookupAt (m : Memory) (w : UInt32) (offset : Int16) (wide : Bool) (pc : Int32) : Int32 :=
  if offset = 0 then -1
  else lookup m (w + offset.toInt32.toUInt32) wide pc

/-- Resolves `pc` against the tables of a header read from `w`. -/
def Header.resolve (h : Header) (m : Memory) (w : UInt32) (pc : Int32) : Location where
  className := h.className
  methodName := h.methodName
  descriptor := h.descriptor
  line := lookupAt m w h.lineTable true pc
  instruction := lookupAt m w h.instructionTable false pc
  address := lookupAt m w h.addressTable false pc

/-- Resolves `pc` against the header at `w`; address zero means that there is none. -/
def resolve (m : Memory) (w : UInt32) (pc : Int32) : Location :=
  if w = 0 then {} else (readHeader m w).1.resolve m w pc

/-! ### Writing -/

/-- The debug information of one method. -/
structure Method where
  className : List Char := []
  methodName : List Char := []
  descriptor : List Char := []
  lines : List TableEntry := []
  instructions : List TableEntry := []
  addresses : List TableEntry := []

/-- Why debug information could not be written. -/
inductive WriteError where
  /-- A name is too long. -/
  | name (cause : TextTooLong)
  /-- A table would start beyond what its offset can say. -/
  | tableOffset (index offset : Nat)
  /-- A table could not be written. -/
  | table (cause : TableError)
  deriving DecidableEq, Repr

/-- The wording of a write error. -/
def WriteError.message : WriteError → String
  | .name cause => cause.message
  | .tableOffset index offset =>
      "table " ++ Text.nat index ++ " at offset " ++ Text.nat offset ++ " out of range"
  | .table cause => cause.message

/-- The code of a write error. -/
def WriteError.code? : WriteError → Option ErrorCode
  | .table (.gap _) => some .tableGap
  | _ => none

instance : Failure WriteError := ⟨WriteError.message, WriteError.code?⟩

/-- Lays out tables from `offset` on: the offset of each, zero for an empty one, and their bytes. -/
def layoutTables : (index offset : Nat) → List (List TableEntry × Bool) →
    Except WriteError (List Nat × List UInt8)
  | _, _, [] => .ok ([], [])
  | index, offset, (entries, wide) :: rest =>
      if entries.isEmpty then do
        let (offsets, bytes) ← layoutTables (index + 1) offset rest
        return (0 :: offsets, bytes)
      else if 0x7FFF < offset then .error (.tableOffset index offset)
      else
        match tableBytes wide entries with
        | .error e => .error (.table e)
        | .ok table => do
            let (offsets, bytes) ← layoutTables (index + 1) (offset + table.length) rest
            return (offset :: offsets, table ++ bytes)

/-- Appends the stored forms of several names to bytes, one after the other. -/
def appendNames (bytes : List UInt8) : List (List Char) → Except WriteError (List UInt8)
  | [] => .ok bytes
  | name :: rest =>
      match appendText bytes name with
      | (_, some e) => .error (.name e)
      | (bytes, none) => appendNames bytes rest

/-- The bytes of the debug information of a method: header, names, tables. -/
def Method.bytes (method : Method) : Except WriteError (List UInt8) := do
  let names ← appendNames [] [method.className, method.methodName, method.descriptor]
  let (offsets, tables) ← layoutTables 0 (headerSize + names.length)
    [(method.lines, true), (method.instructions, false), (method.addresses, false)]
  return offsets.flatMap (toBigEndian 2) ++ names ++ tables

end RegisterVM.Debug
