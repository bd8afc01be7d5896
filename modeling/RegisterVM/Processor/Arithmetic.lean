import RegisterVM.Instruction.Opcode
import RegisterVM.Number.Conversion
/-!
# Arithmetic

The integer operations on 32-bit two's complement words. Results wrap around, shifts use the five
low bits of their amount, and division truncates toward zero.
-/

namespace RegisterVM

/-- The result of an operation on two words; none for division or remainder by zero. -/
def MathOp.apply (op : MathOp) (a b : Int32) : Option Int32 :=
  match op with
  | .add => some (a + b)
  | .sub => some (a - b)
  | .mul => some (a * b)
  | .div => if b = 0 then none else some (a / b)
  | .rem => if b = 0 then none else some (a % b)
  | .neg => some (-a)
  | .shl => some (a <<< (b &&& 31))
  | .shr => some (a >>> (b &&& 31))
  | .ushr => some (a.toUInt32 >>> (b.toUInt32 &&& 31)).toInt32
  | .and => some (a &&& b)
  | .or => some (a ||| b)
  | .xor => some (a ^^^ b)
  | .cmpl | .cmpg => some (if a < b then -1 else if a = b then 0 else 1)
  | .signByte => some a.toInt8.toInt32
  | .signHalf => some a.toInt16.toInt32

/-- Whether two words compare as the condition asks. -/
def Comparison.holds (c : Comparison) (a b : Int32) : Bool :=
  match c with
  | .eq => a = b
  | .ne => a ≠ b
  | .lt => a < b
  | .le => a ≤ b
  | .gt => a > b
  | .ge => a ≥ b
  | .always => true
  | .never => false

/-- A register value converted between kinds. Integers become 32-bit floating point and floating
point becomes an integer; every other conversion keeps the word. -/
def convertValue (source target : ValueKind) (v : Int32) : Int32 :=
  match source, target with
  | .integer, .float => (Number.ofInt v).toInt32
  | .integer, _ => v
  | _, .integer => Number.toInt v.toUInt32
  | _, _ => v

end RegisterVM
