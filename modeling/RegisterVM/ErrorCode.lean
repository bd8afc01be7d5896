/-!
# Error codes

Errors have types of their own where they arise. A host that only wants to tell kinds of errors
apart goes by their codes: an error that stands for one of the kinds below has its code, however
much context its wording gives. The wording of a kind is part of the wording of every such error.
-/

namespace RegisterVM

/-- The kinds of errors that have a code. -/
inductive ErrorCode where
  | outOfBounds
  | accessViolation
  | overlap
  | shortInstruction
  | unknownOpcode
  | operandRange
  | invalidOpcode
  | unsupportedInstruction
  | invalidInstruction
  | invalidRegister
  | divisionByZero
  | malformedText
  | tableGap
  | libraryNotFound
  | chunkTooLarge
  | digestMismatch
  | noProcessors
  | invalidSettings
  | canceled
  | unexpectedEnd
  | endOfStream
  deriving DecidableEq, Repr

namespace ErrorCode

/-- The name of a code. -/
def name : ErrorCode → String
  | .outOfBounds => "out_of_bounds"
  | .accessViolation => "access_violation"
  | .overlap => "overlap"
  | .shortInstruction => "short_instruction"
  | .unknownOpcode => "unknown_opcode"
  | .operandRange => "operand_range"
  | .invalidOpcode => "invalid_opcode"
  | .unsupportedInstruction => "unsupported_instruction"
  | .invalidInstruction => "invalid_instruction"
  | .invalidRegister => "invalid_register"
  | .divisionByZero => "division_by_zero"
  | .malformedText => "malformed_utf"
  | .tableGap => "table_gap"
  | .libraryNotFound => "library_not_found"
  | .chunkTooLarge => "chunk_too_large"
  | .digestMismatch => "digest_mismatch"
  | .noProcessors => "no_processors"
  | .invalidSettings => "invalid_config"
  | .canceled => "canceled"
  | .unexpectedEnd => "unexpected_eof"
  | .endOfStream => "eof"

/-- The wording of a kind of error. -/
def wording : ErrorCode → String
  | .outOfBounds => "memory access out of bounds"
  | .accessViolation => "memory access violation"
  | .overlap => "memory windows overlap"
  | .shortInstruction => "instruction truncated"
  | .unknownOpcode => "unknown opcode"
  | .operandRange => "operand out of range"
  | .invalidOpcode => "invalid opcode"
  | .unsupportedInstruction => "unsupported instruction"
  | .invalidInstruction => "invalid instruction"
  | .invalidRegister => "invalid register"
  | .divisionByZero => "division by zero"
  | .malformedText => "malformed modified UTF-8"
  | .tableGap => "debug table gap too large"
  | .libraryNotFound => "library not found"
  | .chunkTooLarge => "library larger than suite chunk"
  | .digestMismatch => "library digest mismatch"
  | .noProcessors => "no processors"
  | .invalidSettings => "invalid configuration"
  | .canceled => "context canceled"
  | .unexpectedEnd => "unexpected EOF"
  | .endOfStream => "EOF"

/-- All codes. -/
def all : List ErrorCode :=
  [.outOfBounds, .accessViolation, .overlap, .shortInstruction, .unknownOpcode, .operandRange,
    .invalidOpcode, .unsupportedInstruction, .invalidInstruction, .invalidRegister, .divisionByZero,
    .malformedText, .tableGap, .libraryNotFound, .chunkTooLarge, .digestMismatch, .noProcessors,
    .invalidSettings, .canceled, .unexpectedEnd, .endOfStream]

/-- The code of a name. -/
def ofName? (name : String) : Option ErrorCode := all.find? fun code => code.name == name

end ErrorCode

/-- Errors that can be shown and, where they are of a known kind, told apart. -/
class Failure (ε : Type) where
  message : ε → String
  code? : ε → Option ErrorCode := fun _ => none

end RegisterVM
