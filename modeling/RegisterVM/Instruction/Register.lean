/-!
# Registers

Every frame has 64 registers. The first twenty are global: a call copies them into the callee and a
return copies them back. Some of them have names and fixed duties.
-/

namespace RegisterVM

/-- How many registers a frame has. -/
abbrev registerCount : Nat := 64

/-- A register of a frame. -/
abbrev Register := Fin registerCount

namespace Register

/-- Reads as zero in a fresh frame. -/
def zero : Register := 0
/-- The return value; wide values take the next register too. -/
def result : Register := 1
/-- The active constant pool. -/
def pool : Register := 7
/-- The pool that the next callee starts with. -/
def nextPool : Register := 8
/-- The address of the debug header of the running method. -/
def whereIs : Register := 9
/-- The index of the first argument register. -/
def argumentBase : Nat := 12
/-- The index of the first register that a call does not share. -/
def localBase : Nat := 20

/-- Whether a register index is propagated across calls. -/
def isGlobal (index : Int) : Bool := 0 ≤ index && index < localBase

/-- The name of a special register, empty for plain argument and local registers. -/
def name (index : Int) : String :=
  match index with
  | 0 => "zero"
  | 1 => "return1"
  | 2 => "return2"
  | 3 => "exception"
  | 4 => "sfieldptr"
  | 5 => "ctableptr"
  | 6 => "thread"
  | 7 => "pool"
  | 8 => "nextpool"
  | 9 => "whereis"
  | 10 => "vola"
  | 11 => "volb"
  | 12 => "a0/this"
  | _ => ""

end Register

end RegisterVM
