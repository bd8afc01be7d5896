import RegisterVM.Memory.Region
/-!
# Faults

A fault stops a processor at an instruction. It says why, where, at which opcode, and which memory
address was involved, if one was. Division by zero is a trap: the host may turn it into an
exception. All other faults are fatal.
-/

namespace RegisterVM

/-- Why an instruction could not be executed. -/
inductive FaultCause where
  /-- Memory refused an access. -/
  | access (cause : AccessError)
  /-- The opcode byte is unassigned. -/
  | invalidOpcode
  /-- The opcode names an operation that the processor does not have. -/
  | unsupported
  /-- The instruction is malformed or too long. -/
  | invalidInstruction
  /-- An operand names no register. -/
  | invalidRegister
  /-- Division or remainder by zero. -/
  | divisionByZero
  deriving DecidableEq, Repr

/-- The code of a fault's cause. -/
def FaultCause.code : FaultCause → ErrorCode
  | .access cause => cause.code
  | .invalidOpcode => .invalidOpcode
  | .unsupported => .unsupportedInstruction
  | .invalidInstruction => .invalidInstruction
  | .invalidRegister => .invalidRegister
  | .divisionByZero => .divisionByZero

/-- The wording of a fault's cause. -/
def FaultCause.message (cause : FaultCause) : String := cause.code.wording

/-- A fault at an instruction. -/
structure Fault where
  cause : FaultCause
  /-- Where the instruction stands. -/
  pc : UInt32
  opcode : UInt8
  /-- The memory address involved, zero if there is none. -/
  address : UInt32 := 0
  deriving DecidableEq, Repr

namespace Fault

/-- Whether the fault is a trap. -/
def isTrap (f : Fault) : Bool := f.cause = .divisionByZero

/-- The wording of a fault with the given cause; address zero is not shown. -/
def describe (pc : UInt32) (opcode : UInt8) (address : UInt32) (cause : String) : String :=
  "cpu fault at pc=" ++ Text.address pc ++ " op=" ++ Text.byte opcode ++
    (if address = 0 then "" else " addr=" ++ Text.address address) ++ ": " ++ cause

/-- The wording of a fault. -/
def message (f : Fault) : String := describe f.pc f.opcode f.address f.cause.message

instance : Failure Fault := ⟨message, fun f => some f.cause.code⟩

end Fault

end RegisterVM
