import RegisterVM.Instruction.Codec
import RegisterVM.Number.Shortest
/-!
# Listings

The readable form of an instruction, and of a whole instruction stream.
-/

namespace RegisterVM.Instruction

/-- The text of an operand of format `f`. -/
def operandText (f : Format) (operand : Operand) : String :=
  match f with
  | .jump => Text.signed operand.value.toInt
  | .pool => "@" ++ Text.int operand.value.toInt
  | .registers =>
      "(" ++ String.intercalate ", " (operand.list.map fun r => "r" ++ Text.int r.toInt) ++ ")"
  | .float32 => Number.text32 operand.value.toUInt32
  | .int64 => Text.int operand.longValue.toInt
  | .float64 => Number.text64 operand.longValue.toUInt64
  | .uint | .int32 => Text.int operand.value.toInt

/-- The mnemonic of an instruction followed by its operands. -/
def text (inst : Instruction) : String :=
  let operands := ((Opcode.formatsOf inst.opcode).zip inst.operands).map fun (f, o) =>
    operandText f o
  Opcode.mnemonic inst.opcode ++
    (if operands.isEmpty then "" else " " ++ String.intercalate ", " operands)

/-- An instruction stream read from the front: the instructions with their offsets, and where and
why reading stopped before the end. `fuel` bounds the number of instructions. -/
def listingFrom : (fuel offset : Nat) → List UInt8 →
    List (Nat × Instruction) × Option (Nat × DecodeError)
  | _, _, [] => ([], none)
  | 0, _, _ => ([], none)
  | fuel + 1, offset, bytes =>
      match decode bytes with
      | .error e => ([], some (offset, e))
      | .ok (inst, rest) =>
          let (lines, stop) := listingFrom fuel (offset + inst.size) rest
          ((offset, inst) :: lines, stop)

/-- The instructions of a stream; every instruction takes a byte, so the length bounds their
number. -/
def listing (bytes : List UInt8) : List (Nat × Instruction) × Option (Nat × DecodeError) :=
  listingFrom bytes.length 0 bytes

end RegisterVM.Instruction
