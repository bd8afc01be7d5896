import RegisterVM.Bytes
import RegisterVM.ErrorCode
import RegisterVM.Instruction.Basic
/-!
# The instruction stream

`decode` reads one instruction from the front of a byte sequence and returns what is left;
`encode` writes one. Variable-width numbers take one byte below `0x80` and otherwise two, the first
of them with its high bit set; register lists use the same form for their count, and two bytes per
entry once the count is wide. All other operands are big-endian constants.
-/

namespace RegisterVM

/-- Why no instruction could be read. -/
inductive DecodeError where
  /-- The sequence ends inside the instruction. -/
  | short
  /-- The opcode byte is unassigned. -/
  | unknownOpcode
  deriving DecidableEq, Repr

/-- The wording of a decoding error. -/
def DecodeError.message : DecodeError → String
  | .short => ErrorCode.shortInstruction.wording
  | .unknownOpcode => ErrorCode.unknownOpcode.wording

/-- The code of a decoding error. -/
def DecodeError.code : DecodeError → ErrorCode
  | .short => .shortInstruction
  | .unknownOpcode => .unknownOpcode

instance : Failure DecodeError := ⟨DecodeError.message, fun e => some e.code⟩

/-- How many bytes a failed read has consumed. -/
def DecodeError.consumed : DecodeError → Nat
  | .short => 0
  | .unknownOpcode => 1

/-- Why an instruction could not be written. -/
inductive EncodeError where
  /-- The opcode byte is unassigned. -/
  | unknownOpcode (opcode : UInt8)
  /-- An unsigned operand does not fit in 15 bits. -/
  | operandRange (position : Nat) (opcode : UInt8) (value : Int32)
  /-- A jump does not fit in 15 signed bits. -/
  | jumpRange (position : Nat) (opcode : UInt8) (value : Int32)
  /-- A register list has too many entries. -/
  | listLength (count : Nat)
  /-- An entry of a register list does not fit in 16 bits. -/
  | listEntry (entry : Int32)
  deriving DecidableEq, Repr

/-- What could not be encoded. -/
def EncodeError.context : EncodeError → String
  | .unknownOpcode opcode => "encode " ++ Text.byte opcode
  | .operandRange position opcode value =>
      "operand " ++ Text.nat position ++ " of " ++ Opcode.mnemonic opcode ++ " = " ++
        Text.int value.toInt
  | .jumpRange position opcode value =>
      "jump operand " ++ Text.nat position ++ " of " ++ Opcode.mnemonic opcode ++ " = " ++
        Text.int value.toInt
  | .listLength count => "register list of " ++ Text.nat count ++ " entries"
  | .listEntry entry => "register list entry " ++ Text.int entry.toInt

/-- The code of an encoding error. -/
def EncodeError.code : EncodeError → ErrorCode
  | .unknownOpcode _ => .unknownOpcode
  | _ => .operandRange

/-- The wording of an encoding error. -/
def EncodeError.message (e : EncodeError) : String := e.context ++ ": " ++ e.code.wording

instance : Failure EncodeError := ⟨EncodeError.message, fun e => some e.code⟩

namespace Instruction

/-! ### Jumps -/

/-- The largest unsigned operand, and the largest count of a register list. -/
def maxUnsigned : Int := 0x7FFF
/-- The farthest jump backwards. -/
def minJump : Int := -0x4000
/-- The farthest jump forwards. -/
def maxJump : Int := 0x3FFF

/-- The signed value of a 15-bit jump field; higher bits are ignored. -/
def signExtendJump (raw : Nat) : Int32 :=
  let field := raw % 0x8000
  Int32.ofInt (if 0x4000 ≤ field then (field : Int) - 0x8000 else field)

/-- The 15-bit field of a jump. -/
def jumpField (v : Int32) : Nat := v.toUInt32.toNat % 0x8000

/-! ### Reading -/

/-- Reads a variable-width number: its value and whether it took two bytes. -/
def readVariable : List UInt8 → Option ((Nat × Bool) × List UInt8)
  | [] => none
  | first :: rest =>
      if first < 0x80 then some ((first.toNat, false), rest)
      else
        match rest with
        | [] => none
        | second :: rest => some ((first.toNat % 128 * 256 + second.toNat, true), rest)

/-- Reads a register list. -/
def readList (bytes : List UInt8) : Option (Operand × List UInt8) := do
  let ((count, wide), rest) ← readVariable bytes
  if wide then
    let (entries, rest) ← takeExact (2 * count) rest
    return (.registers ((chunks 2 count entries).map fun e => Int32.ofNat (bigEndian e)) true, rest)
  else
    let (entries, rest) ← takeExact count rest
    return (.registers (entries.map fun e => Int32.ofNat e.toNat) false, rest)

/-- Reads an operand of format `f`; nothing when the sequence ends first. -/
def readOperand (f : Format) (bytes : List UInt8) : Option (Operand × List UInt8) :=
  match f with
  | .uint | .pool => do
      let ((value, wide), rest) ← readVariable bytes
      return (.number (Int32.ofNat value) wide, rest)
  | .jump => do
      let ((value, wide), rest) ← readVariable bytes
      return (.number (signExtendJump value) wide, rest)
  | .registers => readList bytes
  | .int32 | .float32 => do
      let (word, rest) ← takeExact 4 bytes
      return (.word (Int32.ofNat (bigEndian word)), rest)
  | .int64 | .float64 => do
      let (long, rest) ← takeExact 8 bytes
      return (.long (Int64.ofNat (bigEndian long)), rest)

/-- Reads operands of the given formats, in order. -/
def readOperands : List Format → List UInt8 → Option (List Operand × List UInt8)
  | [], bytes => some ([], bytes)
  | f :: formats, bytes => do
      let (operand, rest) ← readOperand f bytes
      let (operands, rest) ← readOperands formats rest
      return (operand :: operands, rest)

/-- Reads one instruction; what follows it is returned beside it. -/
def decode : List UInt8 → Except DecodeError (Instruction × List UInt8)
  | [] => .error .short
  | opcode :: rest =>
      match Opcode.ofByte? opcode with
      | none => .error .unknownOpcode
      | some op =>
          match readOperands op.formats rest with
          | none => .error .short
          | some (operands, rest) => .ok (⟨opcode, operands⟩, rest)

/-! ### Writing -/

/-- Writes a number below `2 ^ 15` in one byte or two. -/
def writeVariable (value : Nat) (wide : Bool) : List UInt8 :=
  if wide then [UInt8.ofNat (0x80 + value / 256), UInt8.ofNat value] else [UInt8.ofNat value]

/-- The first entry of a register list that does not fit in 16 bits. -/
def misfit? (list : List Int32) : Option Int32 :=
  list.find? fun r => r.toInt < 0 || 0xFFFF < r.toInt

/-- Writes a register list; it is wide when asked for, or when its length or an entry needs it. -/
def writeList (list : List Int32) (wide : Bool) : Except EncodeError (List UInt8) :=
  if 0x7FFF < list.length then .error (.listLength list.length)
  else
    match misfit? list with
    | some entry => .error (.listEntry entry)
    | none =>
        if wide || list.any (fun r => 0xFF < r.toInt) || 0x80 ≤ list.length then
          .ok (writeVariable list.length true ++
            list.flatMap fun r => toBigEndian 2 r.toUInt32.toNat)
        else
          .ok (writeVariable list.length false ++ list.map fun r => r.toUInt32.toUInt8)

/-- Writes the operand of format `f` at `position`. -/
def writeOperand (opcode : UInt8) (position : Nat) (f : Format) (operand : Operand) :
    Except EncodeError (List UInt8) :=
  match f with
  | .uint | .pool =>
      let v := operand.value
      if v.toInt < 0 || maxUnsigned < v.toInt then .error (.operandRange position opcode v)
      else .ok (writeVariable v.toInt.toNat (operand.isWide || 0x80 ≤ v.toInt))
  | .jump =>
      let v := operand.value
      if v.toInt < minJump || maxJump < v.toInt then .error (.jumpRange position opcode v)
      else .ok (writeVariable (jumpField v) (operand.isWide || v.toInt < 0 || 0x80 ≤ v.toInt))
  | .registers => writeList operand.list operand.isWide
  | .int32 | .float32 => .ok (toBigEndian 4 operand.value.toUInt32.toNat)
  | .int64 | .float64 => .ok (toBigEndian 8 operand.longValue.toUInt64.toNat)

/-- Writes operands of the given formats from `position` on; a missing operand counts as zero. -/
def writeOperands (opcode : UInt8) : (position : Nat) → List Format → List Operand →
    Except EncodeError (List UInt8)
  | _, [], _ => .ok []
  | position, f :: formats, operands => do
      let operand := operands.head?.getD (operandOf 0 0 [] false f)
      let front ← writeOperand opcode position f operand
      let back ← writeOperands opcode (position + 1) formats operands.tail
      return front ++ back

/-- Writes one instruction. -/
def encode (inst : Instruction) : Except EncodeError (List UInt8) :=
  match Opcode.ofByte? inst.opcode with
  | none => .error (.unknownOpcode inst.opcode)
  | some op => do
      let operands ← writeOperands inst.opcode 0 op.formats inst.operands
      return inst.opcode :: operands

end Instruction

end RegisterVM
