import RegisterVM.Instruction.Basic
import RegisterVM.Memory.Basic
import RegisterVM.Processor.Arithmetic
import RegisterVM.Processor.Fault
import RegisterVM.Processor.Frame
/-!
# Operations and their effects

A decoded instruction becomes an `Operation`, in which operands that name registers are registers of
the frame. The effect of an operation is worked out from the frame and memory without changing
either; only a complete `Effect` is ever applied. A fault therefore leaves everything as it was.
-/

namespace RegisterVM

/-- A value given by a register or by a constant. -/
inductive Source where
  | register (r : Register)
  | constant (value : Int32)
  deriving DecidableEq, Repr

/-- The operations that a processor has. -/
inductive Operation where
  /-- `dest := left op right`. -/
  | math (op : MathOp) (left : Register) (right : Source) (dest : Register)
  /-- Branch by `distance` when the comparison holds. -/
  | branch (condition : Comparison) (left : Register) (right : Source) (distance : Int32)
  /-- Call the address in `target` with the values of `arguments`. -/
  | invoke (target : Register) (arguments : List Register)
  /-- Leave the frame. -/
  | leave
  /-- Do nothing. -/
  | marker
  /-- Increment the word at `base + offset`. -/
  | increment (base : Register) (offset : Int32)
  /-- Decrement the word at `base + offset`, and put the new value into `dest`. -/
  | decrement (dest base : Register) (offset : Int32)
  /-- Load a value from `base + offset`. -/
  | load (type : DataType) (dest base : Register) (offset : Source)
  /-- Store a value at `base + offset`. -/
  | store (type : DataType) (source base : Register) (offset : Source)
  /-- `dest := source`, converted. -/
  | convert (sourceKind targetKind : ValueKind) (source dest : Register)
  deriving DecidableEq, Repr

/-- The register that an operand names. -/
def namedRegister (v : Int32) : Except FaultCause Register :=
  if h : v.toUInt32.toNat < registerCount then .ok ⟨v.toUInt32.toNat, h⟩
  else .error .invalidRegister

/-- The register after `r`, the second of the pair that holds a wide value. -/
def pairedRegister (r : Register) : Except FaultCause Register :=
  if h : r.val + 1 < registerCount then .ok ⟨r.val + 1, h⟩ else .error .invalidRegister

/-- The memory operation of a direction. -/
def memoryOperation (direction : Direction) (type : DataType) (value base : Register)
    (offset : Source) : Operation :=
  match direction with
  | .load => .load type value base offset
  | .store => .store type value base offset

/-- The operation that an instruction asks for. -/
def Operation.ofInstruction (inst : Instruction) : Except FaultCause Operation :=
  match Opcode.ofByte? inst.opcode, inst.operands with
  | some (.math .integer op), [.number a _, .number b _, .number d _] => do
      return .math op (← namedRegister a) (.register (← namedRegister b)) (← namedRegister d)
  | some (.mathConst .integer op), [.number a _, .word c, .number d _] => do
      return .math op (← namedRegister a) (.constant c) (← namedRegister d)
  | some (.branch condition), [.number a _, .number b _, .number distance _] => do
      return .branch condition (← namedRegister a) (.register (← namedRegister b)) distance
  | some .branchConst, [.number a _, .word c, .number distance _] => do
      return .branch .eq (← namedRegister a) (.constant c) distance
  | some .invoke, [.number target _, .registers list _] => do
      return .invoke (← namedRegister target) (← list.mapM namedRegister)
  | some .return, [] => .ok .leave
  | some .entryMarker, [] => .ok .marker
  | some .increment, [.number base _, .number offset _] => do
      return .increment (← namedRegister base) offset
  | some .decrement, [.number dest _, .number base _, .number offset _] => do
      return .decrement (← namedRegister dest) (← namedRegister base) offset
  | some (.memory direction type), [.number value _, .number base _, .number offset _] => do
      return memoryOperation direction type (← namedRegister value) (← namedRegister base)
        (.register (← namedRegister offset))
  | some (.memoryConst direction type), [.number value _, .number base _, .word offset] => do
      return memoryOperation direction type (← namedRegister value) (← namedRegister base)
        (.constant offset)
  | some (.convert source target), [.number a _, .number d _] => do
      return .convert source target (← namedRegister a) (← namedRegister d)
  | some (.math .long _), _ | some (.math .float _), _ | some (.math .double _), _
  | some (.mathConst .long _), _ | some (.mathConst .float _), _ | some (.mathConst .double _), _
  | some .loadPool, _ => .error .unsupported
  | _, _ => .error .invalidInstruction

/-! ### Effects -/

/-- Where execution goes on. -/
inductive Flow where
  /-- In the same frame, at an address. -/
  | goto (pc : UInt32)
  /-- In a new frame; the current one goes on after the call. -/
  | call (resume target : UInt32) (arguments : List Int32)
  /-- In the frame below; the current one is left pointing past the instruction. -/
  | leave (pc : UInt32)
  deriving DecidableEq, Repr

/-- All that an operation changes. -/
structure Effect where
  /-- The registers to set, in order. -/
  registers : List (Register × Int32) := []
  /-- The bytes to write, and where. -/
  store : Option (UInt32 × List UInt8) := none
  /-- Whether the operation counts as atomic. -/
  atomic : Bool := false
  flow : Flow
  deriving DecidableEq, Repr

/-- A fault's cause with the memory address involved, zero if there is none. -/
abbrev Refusal := FaultCause × UInt32

/-- The refusal of an access at an address. -/
def refuse (address : UInt32) (e : AccessError) : Refusal := (.access e, address)

/-- The value of a source in a frame. -/
def Frame.source (f : Frame) : Source → Int32
  | .register r => f.get r
  | .constant v => v

/-- The address `base + offset`, wrapping around. -/
def Frame.address (f : Frame) (base : Register) (offset : Source) : UInt32 :=
  (f.get base + f.source offset).toUInt32

/-- How many bytes a value takes in memory. -/
def DataType.width : DataType → Nat
  | .byte => 1
  | .short | .character => 2
  | .integer | .float | .object => 4
  | .long | .double => 8

/-- Whether a value takes a pair of registers. -/
def DataType.isWide : DataType → Bool
  | .long | .double => true
  | _ => false

/-- The register value of a loaded number of a type that takes one register. -/
def DataType.extend (type : DataType) (n : Nat) : Int32 :=
  match type with
  | .byte => (Int8.ofNat n).toInt32
  | .short => (Int16.ofNat n).toInt32
  | _ => Int32.ofNat n

/-- A 32-bit word from memory, changed by `f`: the new value and where and what to write. -/
def updateWord (m : Memory) (address : UInt32) (f : UInt32 → UInt32) :
    Except Refusal (UInt32 × (UInt32 × List UInt8)) := do
  let n ← (m.readNat address 4).mapError (refuse address)
  (m.check .write address 4).mapError (refuse address)
  let v := f (UInt32.ofNat n)
  return (v, (address, toBigEndian 4 v.toNat))

/-- The registers that a load sets. -/
def loadEffect (f : Frame) (m : Memory) (type : DataType) (dest base : Register) (offset : Source) :
    Except Refusal (List (Register × Int32)) := do
  let address := f.address base offset
  if type.isWide then
    let second ← (pairedRegister dest).mapError (·, 0)
    let n ← (m.readNat address 8).mapError (refuse address)
    return [(dest, Int32.ofNat (n >>> 32)), (second, Int32.ofNat n)]
  else
    let n ← (m.readNat address type.width).mapError (refuse address)
    return [(dest, type.extend n)]

/-- What a store writes, and where. -/
def storeEffect (f : Frame) (m : Memory) (type : DataType) (source base : Register)
    (offset : Source) : Except Refusal (UInt32 × List UInt8) := do
  let address := f.address base offset
  let bytes ←
    if type.isWide then do
      let second ← (pairedRegister source).mapError (·, 0)
      pure
        (toBigEndian 4 (f.get source).toUInt32.toNat ++ toBigEndian 4 (f.get second).toUInt32.toNat)
    else pure (toBigEndian type.width (f.get source).toUInt32.toNat)
  (m.check .write address bytes.length).mapError (refuse address)
  return (address, bytes)

/-- The effect of an operation that stands at the frame's `pc`, with `next` after it. -/
def Operation.effect (op : Operation) (f : Frame) (m : Memory) (next : UInt32) :
    Except Refusal Effect :=
  match op with
  | .math op left right dest =>
      match op.apply (f.get left) (f.source right) with
      | none => .error (.divisionByZero, 0)
      | some v => .ok { registers := [(dest, v)], flow := .goto next }
  | .branch condition left right distance =>
      .ok { flow := .goto
              (if condition.holds (f.get left) (f.source right) then f.pc + distance.toUInt32
                else next) }
  | .invoke target arguments =>
      .ok { flow := .call next (f.get target).toUInt32 (arguments.map f.get) }
  | .leave => .ok { flow := .leave next }
  | .marker => .ok { flow := .goto next }
  | .increment base offset => do
      let (_, change) ← updateWord m (f.address base (.constant offset)) (· + 1)
      return { store := some change, atomic := true, flow := .goto next }
  | .decrement dest base offset => do
      let (v, change) ← updateWord m (f.address base (.constant offset)) (· - 1)
      return { registers := [(dest, v.toInt32)], store := some change, atomic := true,
               flow := .goto next }
  | .load type dest base offset => do
      return { registers := ← loadEffect f m type dest base offset, flow := .goto next }
  | .store type source base offset => do
      return { store := some (← storeEffect f m type source base offset), flow := .goto next }
  | .convert sourceKind targetKind source dest =>
      .ok
        { registers := [(dest, convertValue sourceKind targetKind (f.get source))],
          flow := .goto next }

end RegisterVM
