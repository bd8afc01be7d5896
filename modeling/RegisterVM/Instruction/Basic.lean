import RegisterVM.Instruction.Opcode
import RegisterVM.Instruction.Register
/-!
# Instructions

An instruction is an opcode byte with its operands in stream order. An operand of a variable-width
format remembers whether it stands in its two-byte form, so that encoding gives back the very bytes.

An instruction can also be looked at by position: `arg`, `long`, `registers` and `isWide` give the
value at a position, and zero where the instruction has no such operand.
-/

namespace RegisterVM

/-- One operand of an instruction. -/
inductive Operand where
  /-- A number of a variable-width format. -/
  | number (value : Int32) (wide : Bool)
  /-- A register list. -/
  | registers (list : List Int32) (wide : Bool)
  /-- A 32-bit constant. -/
  | word (value : Int32)
  /-- A 64-bit constant. -/
  | long (value : Int64)
  deriving DecidableEq, Repr

namespace Operand

/-- The 32-bit value of an operand, zero if it has none. -/
def value : Operand → Int32
  | .number v _ | .word v => v
  | _ => 0

/-- The 64-bit value of an operand, zero if it has none. -/
def longValue : Operand → Int64
  | .long v => v
  | _ => 0

/-- The register list of an operand, empty if it has none. -/
def list : Operand → List Int32
  | .registers l _ => l
  | _ => []

/-- Whether an operand stands in its two-byte form. -/
def isWide : Operand → Bool
  | .number _ wide | .registers _ wide => wide
  | _ => false

/-- How many bytes an operand takes. -/
def size : Operand → Nat
  | .number _ wide => if wide then 2 else 1
  | .registers l wide => if wide then 2 + 2 * l.length else 1 + l.length
  | .word _ => 4
  | .long _ => 8

end Operand

/-- An opcode byte with its operands. -/
structure Instruction where
  opcode : UInt8
  operands : List Operand
  deriving DecidableEq, Repr

namespace Instruction

/-- How many positions an instruction can be looked at by. -/
def positions : Nat := 6

/-- No instruction is longer than this. -/
def maxSize : Nat := 1 + positions * 8 + 2 + 2 * 0x7FFF

/-- How many bytes an instruction takes. -/
def size (inst : Instruction) : Nat :=
  1 + inst.operands.foldr (fun operand total => operand.size + total) 0

/-- The 32-bit value at position `i`. -/
def arg (inst : Instruction) (i : Nat) : Int32 := (inst.operands[i]?.map Operand.value).getD 0

/-- The 64-bit value at position `i`. -/
def long (inst : Instruction) (i : Nat) : Int64 := (inst.operands[i]?.map Operand.longValue).getD 0

/-- The register list of the instruction. -/
def registers (inst : Instruction) : List Int32 := inst.operands.flatMap Operand.list

/-- Whether the operand at position `i` stands in its two-byte form. -/
def isWide (inst : Instruction) (i : Nat) : Bool :=
  (inst.operands[i]?.map Operand.isWide).getD false

/-- The operand of format `f` that the given values call for. -/
def operandOf (value : Int32) (long : Int64) (list : List Int32) (wide : Bool) : Format → Operand
  | .uint | .pool | .jump => .number value wide
  | .registers => .registers list wide
  | .int32 | .float32 => .word value
  | .int64 | .float64 => .long long

/-- The instruction whose operands are taken by position from the given values, as the formats of
the opcode call for them. -/
def ofPositions (opcode : UInt8) (args : Nat → Int32) (longs : Nat → Int64) (list : List Int32)
    (wide : Nat → Bool) : Instruction where
  opcode
  operands := (Opcode.formatsOf opcode).mapIdx fun i f =>
    operandOf (args i) (longs i) list (wide i) f

end Instruction

end RegisterVM
