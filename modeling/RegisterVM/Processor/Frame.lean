import RegisterVM.Instruction.Register
/-!
# Frames

A frame is one activation of a method: its registers and its position. Entering a method passes the
global registers on and puts the arguments in place; leaving it passes the globals back.
-/

namespace RegisterVM

/-- The registers of a frame. -/
abbrev RegisterFile := Vector Int32 registerCount

/-- One activation of a method. -/
structure Frame where
  registers : RegisterFile
  /-- Where the next instruction stands. -/
  pc : UInt32
  /-- Where the method was entered. -/
  entry : UInt32
  /-- Where the instruction started last stands. -/
  last : UInt32
  /-- The position in the reference queue, for the host. -/
  queuePosition : Int32 := 0
  /-- How many arguments found no register. -/
  spilled : Nat := 0
  /-- The number by which the host holds the frame, if the host entered it. -/
  ticket : Option Nat := none

namespace Frame

/-- The value of a register. -/
def get (f : Frame) (r : Register) : Int32 := f.registers[r]

/-- The frame with a register changed. -/
def set (f : Frame) (r : Register) (value : Int32) : Frame :=
  { f with registers := f.registers.set r.val value r.isLt }

/-- How many arguments registers can take. -/
def argumentRoom : Nat := registerCount - Register.argumentBase

/-- The registers of a fresh frame. Globals come from the caller, with the pool register taken from
its next-pool register; arguments fill the argument registers and then the locals; everything else
is zero, and so is the zero register. -/
def enteredRegisters (caller : Option RegisterFile) (arguments : List Int32) : RegisterFile :=
  let arguments := arguments.toArray
  Vector.ofFn fun i =>
    let inherited : Int32 :=
      match caller with
      | none => 0
      | some regs =>
          if i = Register.pool then regs[Register.nextPool]
          else if i.val < Register.localBase then regs[i]
          else 0
    if i = Register.zero then 0
    else if Register.argumentBase ≤ i.val then
      arguments.getD (i.val - Register.argumentBase) inherited
    else inherited

/-- A frame entered at `pc`. -/
def enter (caller : Option RegisterFile) (pc : UInt32) (arguments : List Int32)
    (ticket : Option Nat) : Frame where
  registers := enteredRegisters caller arguments
  pc
  entry := pc
  last := pc
  spilled := arguments.length - argumentRoom
  ticket

/-- The registers of a caller after a callee left: the globals come back, except the pool register;
the next-pool register is cleared. -/
def returnedRegisters (caller callee : RegisterFile) : RegisterFile :=
  Vector.ofFn fun i =>
    if i = Register.nextPool then 0
    else if i = Register.pool then caller[i]
    else if i.val < Register.localBase then callee[i]
    else caller[i]

/-- A caller after a callee left. -/
def resume (caller callee : Frame) : Frame :=
  { caller with registers := returnedRegisters caller.registers callee.registers }

end Frame

end RegisterVM
