import RegisterVM.Text.Digits
/-!
# Opcodes

The first byte of an instruction names an operation family and a variant of it. `Opcode` lists the
operations, `Opcode.ofByte?` is the assignment of bytes to them, and each operation determines its
family name, its mnemonic and the formats of its operands. Bytes without an operation are
unassigned.
-/

namespace RegisterVM

/-- The kinds of value that arithmetic and conversions distinguish. -/
inductive ValueKind where
  | integer | long | float | double
  deriving DecidableEq, Repr

/-- The sixteen arithmetic operations. -/
inductive MathOp where
  | add | sub | mul | div | rem | neg | shl | shr
  | ushr | and | or | xor | cmpl | cmpg | signByte | signHalf
  deriving DecidableEq, Repr

/-- The eight conditions of a register comparison. -/
inductive Comparison where
  | eq | ne | lt | le | gt | ge | always | never
  deriving DecidableEq, Repr

/-- The eight shapes in which memory holds a value. -/
inductive DataType where
  | byte | short | character | integer | long | float | double | object
  deriving DecidableEq, Repr

/-- The two directions of a memory operation. -/
inductive Direction where
  | store | load
  deriving DecidableEq, Repr

/-- How one operand stands in the instruction stream. -/
inductive Format where
  /-- An unsigned number of at most 15 bits, in one byte or two. -/
  | uint
  /-- A constant pool index, stored like `uint`. -/
  | pool
  /-- A relative jump: a 15-bit field with its sign in bit 14. -/
  | jump
  /-- A count followed by that many register indices. -/
  | registers
  | int32
  | float32
  | int64
  | float64
  deriving DecidableEq, Repr

/-- The operations that opcodes name. -/
inductive Opcode where
  /-- Arithmetic on two registers. -/
  | math (kind : ValueKind) (op : MathOp)
  /-- Arithmetic on a register and a constant. -/
  | mathConst (kind : ValueKind) (op : MathOp)
  /-- Branch on a comparison of two registers. -/
  | branch (condition : Comparison)
  /-- Call the address held in a register. -/
  | invoke
  /-- Leave the current frame. -/
  | return
  /-- Marks a method entry; does nothing. -/
  | entryMarker
  /-- Branch when a register equals a constant. -/
  | branchConst
  /-- Atomically increment a word of memory. -/
  | increment
  /-- Atomically decrement a word of memory and fetch the new value. -/
  | decrement
  /-- Load a constant pool entry. -/
  | loadPool
  /-- Memory operation with its offset in a register. -/
  | memory (direction : Direction) (type : DataType)
  /-- Memory operation with a constant offset. -/
  | memoryConst (direction : Direction) (type : DataType)
  /-- Conversion between value kinds. -/
  | convert (source target : ValueKind)
  deriving DecidableEq, Repr

/-! ### Numbering of the variants -/

/-- The value kind numbered by the two low bits of `n`. -/
def ValueKind.ofBits (n : Nat) : ValueKind :=
  match n % 4 with
  | 0 => .integer
  | 1 => .long
  | 2 => .float
  | _ => .double

/-- The arithmetic operation numbered by the four low bits of `n`. -/
def MathOp.ofBits (n : Nat) : MathOp :=
  match n % 16 with
  | 0 => .add
  | 1 => .sub
  | 2 => .mul
  | 3 => .div
  | 4 => .rem
  | 5 => .neg
  | 6 => .shl
  | 7 => .shr
  | 8 => .ushr
  | 9 => .and
  | 10 => .or
  | 11 => .xor
  | 12 => .cmpl
  | 13 => .cmpg
  | 14 => .signByte
  | _ => .signHalf

/-- The condition numbered by the three low bits of `n`. -/
def Comparison.ofBits (n : Nat) : Comparison :=
  match n % 8 with
  | 0 => .eq
  | 1 => .ne
  | 2 => .lt
  | 3 => .le
  | 4 => .gt
  | 5 => .ge
  | 6 => .always
  | _ => .never

/-- The data type numbered by the three low bits of `n`. -/
def DataType.ofBits (n : Nat) : DataType :=
  match n % 8 with
  | 0 => .byte
  | 1 => .short
  | 2 => .character
  | 3 => .integer
  | 4 => .long
  | 5 => .float
  | 6 => .double
  | _ => .object

/-- The direction named by bit 3 of `n`. -/
def Direction.ofBits (n : Nat) : Direction := if n / 8 % 2 = 1 then .load else .store

/-- The formats in the order of their numbers. -/
def Format.all : List Format :=
  [.uint, .pool, .jump, .registers, .int32, .float32, .int64, .float64]

/-! ### Names -/

/-- The name of a value kind. -/
def ValueKind.name : ValueKind → String
  | .integer => "INTEGER"
  | .long => "LONG"
  | .float => "FLOAT"
  | .double => "DOUBLE"

/-- The name of an arithmetic operation. -/
def MathOp.name : MathOp → String
  | .add => "ADD"
  | .sub => "SUB"
  | .mul => "MUL"
  | .div => "DIV"
  | .rem => "REM"
  | .neg => "NEG"
  | .shl => "SHL"
  | .shr => "SHR"
  | .ushr => "USHR"
  | .and => "AND"
  | .or => "OR"
  | .xor => "XOR"
  | .cmpl => "CMPL"
  | .cmpg => "CMPG"
  | .signByte => "SIGNX8"
  | .signHalf => "SIGNHALF"

/-- The name of a condition. -/
def Comparison.name : Comparison → String
  | .eq => "EQ"
  | .ne => "NE"
  | .lt => "LT"
  | .le => "LE"
  | .gt => "GT"
  | .ge => "GE"
  | .always => "TRUE"
  | .never => "FALSE"

/-- The name of a data type. -/
def DataType.name : DataType → String
  | .byte => "BYTE"
  | .short => "SHORT"
  | .character => "CHARACTER"
  | .integer => "INTEGER"
  | .long => "LONG"
  | .float => "FLOAT"
  | .double => "DOUBLE"
  | .object => "OBJECT"

/-- The name of a direction. -/
def Direction.name : Direction → String
  | .store => "STORE"
  | .load => "LOAD"

/-- The name of an operand format. -/
def Format.name : Format → String
  | .uint => "VUINT"
  | .pool => "VPOOL"
  | .jump => "VJUMP"
  | .registers => "REGLIST"
  | .int32 => "INT32"
  | .float32 => "FLOAT32"
  | .int64 => "INT64"
  | .float64 => "FLOAT64"

namespace Opcode

/-- The names of the operation families in the order of their numbers; number 0 is the family of the
unassigned bytes. -/
def familyNames : List String :=
  ["UNKNOWN", "MATH_REG_INT", "MATH_REG_LONG", "MATH_REG_FLOAT", "MATH_REG_DOUBLE", "IF_ICMP",
    "INVOKE", "RETURN", "ENTRY_MARKER", "IFEQ_CONST", "ATOMIC_INT_INCREMENT",
    "ATOMIC_INT_DECREMENT_AND_GET", "LOAD_POOL", "MEMORY_OFF_REG", "MATH_CONST_INT",
    "MATH_CONST_LONG", "MATH_CONST_FLOAT", "MATH_CONST_DOUBLE", "MEMORY_OFF_ICONST", "CONVERSION"]

/-- The name of the family numbered `n`. -/
def familyName (n : Nat) : String := familyNames.getD n ("Encoding(" ++ Text.nat n ++ ")")

/-- The name of the format numbered `n`. -/
def formatName (n : Nat) : String :=
  match Format.all[n]? with
  | some f => f.name
  | none => "ArgumentFormat(" ++ Text.nat n ++ ")"

/-- The number of the family of an operation. -/
def family : Opcode → Nat
  | .math .integer _ => 1
  | .math .long _ => 2
  | .math .float _ => 3
  | .math .double _ => 4
  | .branch _ => 5
  | .invoke => 6
  | .return => 7
  | .entryMarker => 8
  | .branchConst => 9
  | .increment => 10
  | .decrement => 11
  | .loadPool => 12
  | .memory _ _ => 13
  | .mathConst .integer _ => 14
  | .mathConst .long _ => 15
  | .mathConst .float _ => 16
  | .mathConst .double _ => 17
  | .memoryConst _ _ => 18
  | .convert _ _ => 19

/-- The part of a mnemonic that tells the variants of a family apart. -/
def variantName : Opcode → String
  | .math _ op | .mathConst _ op => ":" ++ op.name
  | .branch condition => ":" ++ condition.name
  | .memory direction type | .memoryConst direction type =>
      ":" ++ direction.name ++ ":" ++ type.name
  | .convert source target => ":" ++ source.name ++ ">" ++ target.name
  | _ => ""

/-- The operand formats of an operation, in stream order. -/
def formats : Opcode → List Format
  | .math _ _ => [.uint, .uint, .uint]
  | .mathConst .integer _ => [.uint, .int32, .uint]
  | .mathConst .long _ => [.uint, .int64, .uint]
  | .mathConst .float _ => [.uint, .float32, .uint]
  | .mathConst .double _ => [.uint, .float64, .uint]
  | .branch _ => [.uint, .uint, .jump]
  | .invoke => [.uint, .registers]
  | .return => []
  | .entryMarker => []
  | .branchConst => [.uint, .int32, .jump]
  | .increment => [.uint, .uint]
  | .decrement => [.uint, .uint, .uint]
  | .loadPool => [.pool, .uint]
  | .memory _ _ => [.uint, .uint, .uint]
  | .memoryConst _ _ => [.uint, .uint, .int32]
  | .convert _ _ => [.uint, .uint]

/-- Which operands of an operation name registers, by position. Register lists always do. -/
def registerOperands : Opcode → List Bool
  | .math _ _ => [true, true, true]
  | .mathConst _ _ => [true, false, true]
  | .branch _ => [true, true, false]
  | .invoke => [true, false]
  | .return => []
  | .entryMarker => []
  | .branchConst => [true, false, false]
  | .increment => [true, false]
  | .decrement => [true, true, false]
  | .loadPool => [false, true]
  | .memory _ _ => [true, true, true]
  | .memoryConst _ _ => [true, true, false]
  | .convert _ _ => [true, true]

/-- The operation that the byte with high nibble `high` and low nibble `low` names. -/
def ofNibbles? (high low : Nat) : Option Opcode :=
  match high with
  | 0x0 | 0x1 | 0x2 | 0x3 => some (.math (.ofBits high) (.ofBits low))
  | 0x4 =>
      match low with
      | 0x8 => some .invoke
      | 0x9 => some .return
      | 0xA => some .entryMarker
      | 0xB => some .branchConst
      | 0xC => some .increment
      | 0xD => some .decrement
      | 0xE => some .loadPool
      | 0xF => none
      | _ => some (.branch (.ofBits low))
  | 0x5 => some (.memory (.ofBits low) (.ofBits low))
  | 0x8 | 0x9 | 0xA | 0xB => some (.mathConst (.ofBits high) (.ofBits low))
  | 0xD => some (.memoryConst (.ofBits low) (.ofBits low))
  | 0xF => some (.convert (.ofBits (low / 4)) (.ofBits low))
  | _ => none

/-- The operation that a byte names, if it is assigned. -/
def ofByte? (b : UInt8) : Option Opcode := ofNibbles? (b.toNat / 16) (b.toNat % 16)

/-- The family number of a byte, 0 when it is unassigned. -/
def familyOf (b : UInt8) : Nat := ((ofByte? b).map family).getD 0

/-- The operand formats of a byte; none when it is unassigned. -/
def formatsOf (b : UInt8) : List Format := ((ofByte? b).map formats).getD []

/-- The readable name of an opcode byte. -/
def mnemonic (b : UInt8) : String :=
  match ofByte? b with
  | none => "UNKNOWN_" ++ Text.upperHex 2 b.toNat
  | some op => familyName op.family ++ op.variantName

/-- Every operation takes at most three operands. -/
theorem length_formats_le (op : Opcode) : op.formats.length ≤ 3 := by
  rcases op with ⟨_ | _ | _ | _, _⟩ | ⟨_ | _ | _ | _, _⟩ | _ | _ | _ | _ | _ | _ | _ |
    _ | _ | _ | _ <;>
    simp [formats]

end Opcode

end RegisterVM
