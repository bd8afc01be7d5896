import RegisterVM.Instruction.Listing
import RegisterVM.Processor.Run
import RegisterVM.Processor.Trace
import RegisterVM.Text.Utf8
/-!
# Step printer

The step printer shows every step on two lines: where it happens and what it is, then its operands,
with special registers named, beside the values of the registers they name. Class names are cut to
their last twenty bytes, so the output is a byte sequence and not always well-formed text.
-/

namespace RegisterVM.StepPrinter

/-- Text in a colour, where colours are wanted. -/
def colored (color : Bool) (code : String) (text : List UInt8) : List UInt8 :=
  if color then Text.Utf8.bytes ("\x1b[" ++ code ++ "m") ++ text ++ Text.Utf8.bytes "\x1b[0m"
  else text

/-- The operands to show: their values, and whether they name registers. A call shows its target and
then its register list. -/
def operands (inst : Instruction) : List (Int32 × Bool) :=
  match Opcode.ofByte? inst.opcode with
  | none => []
  | some .invoke => (inst.arg 0, true) :: inst.registers.map fun r => (r, true)
  | some op => op.registerOperands.mapIdx fun i isRegister => (inst.arg i, isRegister)

/-- An operand in a column of ten characters. -/
def operandText (color : Bool) (operand : Int32 × Bool) : List UInt8 :=
  let name := if operand.2 then Register.name operand.1.toInt else ""
  if name = "" then Text.Utf8.bytes (Text.padLeft 10 (Text.int operand.1.toInt))
  else colored color "33" (Text.Utf8.bytes (Text.padLeft 10 name))

/-- The value of the register that an operand names, in a column of ten characters. -/
def valueText (f : Frame) (operand : Int32 × Bool) : String :=
  let index := operand.1.toInt
  if operand.2 && 0 ≤ index then
    match f.registers[index.toNat]? with
    | some v => Text.padLeft 10 (Text.signed v.toInt)
    | none => "----------"
  else "----------"

/-- The first line of a step, without its end. -/
def headLine (f : Frame) (inst : Instruction) (location : TraceElement) : List UInt8 :=
  let className := Text.Utf8.bytes location.className
  Text.Utf8.bytes
      ("***** @" ++ Text.hex 8 f.pc.toNat ++ " " ++
        Text.padRight 32 (Opcode.mnemonic inst.opcode) ++
        " | L" ++ Text.padRight 4 (Text.int location.line.toInt) ++ "/J" ++
        Text.padRight 3 (Text.int location.address.toInt) ++ " ") ++
    Text.Utf8.columnRight 20 (className.drop (className.length - 20)) ++
    Text.Utf8.bytes ("::" ++ location.methodName ++ ":" ++ location.descriptor)

/-- The two lines of a step. -/
def stepLines (color : Bool) (f : Frame) (inst : Instruction)
    (location : TraceElement) : List UInt8 :=
  let shown := operands inst
  let comma := Text.Utf8.bytes ", "
  colored color "1;36" (headLine f inst location) ++ Text.Utf8.bytes "\n  A:[" ++
    ((shown.map (operandText color)).intersperse comma).flatten ++
    Text.Utf8.bytes ("] | V:[" ++ String.intercalate ", " (shown.map (valueText f)) ++ "]\n")

/-- The line that sums a step up: depth, position, instruction. -/
def summaryLine (view : StepView) : String :=
  Text.nat view.depth ++ " " ++ Text.hex 8 view.frame.pc.toNat ++ " " ++ view.instruction.text

/-- How much of a step is shown. -/
inductive Detail where
  | nothing
  /-- One line that sums the step up. -/
  | summary
  /-- Both lines, with or without colours. -/
  | full (color : Bool)
  deriving DecidableEq, Repr

/-- What was shown of a run. -/
structure Printout where
  headers : Debug.HeaderCache
  /-- What was shown of each step. -/
  steps : Array (List UInt8) := #[]
  /-- How many steps there were, shown or not. -/
  count : Nat := 0

namespace Printout

/-- All that was shown. -/
def bytes (p : Printout) : List UInt8 := p.steps.toList.flatten

/-- Shows a step. -/
def push (detail : Detail) (p : Printout) (m : Memory) (view : StepView) : Printout :=
  match p with
  | ⟨headers, steps, count⟩ =>
      match detail with
      | .nothing => ⟨headers, steps, count + 1⟩
      | .summary => ⟨headers, steps.push (Text.Utf8.bytes (summaryLine view)), count + 1⟩
      | .full color =>
          let (location, headers) := view.frame.locate m headers
          ⟨headers, steps.push (stepLines color view.frame view.instruction location), count + 1⟩

end Printout

/-- The observer that shows every step and stops a run by the number of its steps. -/
def observer (detail : Detail) (stop? : Nat → Option StopReason) : Observer Printout where
  observe := Printout.push detail
  stop? p := stop? p.count

end RegisterVM.StepPrinter
