import RegisterVM.Instruction.Codec
import RegisterVM.Text.Quoted
/-!
# Assembler

An assembler collects instructions, raw bytes and labels. A branch to a label always takes the
two-byte form of its jump, so where an instruction lies never depends on how far a branch reaches;
`finish` writes the distances into the code and gives the bytes.

The first error sticks: from then on no instruction is added, while labels and raw bytes still are.
-/

namespace RegisterVM

/-- Why assembling failed. -/
inductive AssemblyError where
  /-- An instruction could not be encoded. -/
  | encode (cause : EncodeError)
  /-- A label was bound twice. -/
  | duplicateLabel (label : String)
  /-- A branch refers to a label that is not bound. -/
  | undefinedLabel (label : String)
  /-- A branch reaches too far. -/
  | jumpTooFar (label : String) (distance : Int)
  deriving DecidableEq, Repr

/-- The wording of an assembly error. -/
def AssemblyError.message : AssemblyError → String
  | .encode cause => cause.message
  | .duplicateLabel label => "duplicate label " ++ Text.quote label
  | .undefinedLabel label => "undefined label " ++ Text.quote label
  | .jumpTooFar label distance =>
      "jump to " ++ Text.quote label ++ " of " ++ Text.int distance ++ ": " ++
        ErrorCode.operandRange.wording

/-- The code of an assembly error. -/
def AssemblyError.code? : AssemblyError → Option ErrorCode
  | .encode cause => some cause.code
  | .jumpTooFar _ _ => some .operandRange
  | _ => none

instance : Failure AssemblyError := ⟨AssemblyError.message, AssemblyError.code?⟩

/-- A branch whose distance is still to be written. -/
structure BranchSite where
  label : String
  /-- Where the two bytes of the jump stand. -/
  field : Nat
  /-- Where the branching instruction starts. -/
  start : Nat
  deriving DecidableEq, Repr

/-- An instruction stream under construction. -/
structure Assembler where
  code : Array UInt8 := #[]
  /-- The bound labels, the latest first. -/
  labels : List (String × Nat) := []
  /-- The branches to labels, the latest first. -/
  sites : List BranchSite := []
  error : Option AssemblyError := none

namespace Assembler

/-- The offset at which the next instruction will stand. -/
def position (a : Assembler) : Nat := a.code.size

/-- Binds a label to the current offset. -/
def label (a : Assembler) (name : String) : Assembler :=
  let duplicate := (a.labels.lookup name).isSome
  { a with
    labels := (name, a.position) :: a.labels
    error := a.error.or (if duplicate then some (.duplicateLabel name) else none) }

/-- Adds bytes as they are. -/
def raw (a : Assembler) (bytes : List UInt8) : Assembler := { a with code := a.code ++ bytes }

/-- Adds an instruction, unless an error has happened. -/
def emit (a : Assembler) (inst : Instruction) : Assembler :=
  match a.error with
  | some _ => a
  | none =>
      match inst.encode with
      | .error cause => { a with error := some (.encode cause) }
      | .ok bytes => a.raw bytes

/-- Adds an instruction with the given 32-bit operands. -/
def emitWords (a : Assembler) (opcode : UInt8) (args : List Int32) : Assembler :=
  a.emit (.ofPositions opcode (fun i => args.getD i 0) (fun _ => 0) [] fun _ => false)

/-- Adds a branch to `label`: its jump follows the given operands and takes two bytes. -/
def emitBranch (a : Assembler) (opcode : UInt8) (args : List Int32) (label : String) : Assembler :=
  let start := a.position
  let a := a.emit
    (.ofPositions opcode (fun i => args.getD i 0) (fun _ => 0) [] fun i => i == args.length)
  { a with sites := ⟨label, a.position - 2, start⟩ :: a.sites }

/-! ### Helpers by operation

Opcode bytes are formed by setting the bits of the variant in the first byte of the family. -/

/-- `dest := left op right` on registers. -/
def math (a : Assembler) (op : UInt8) (left right dest : Int32) : Assembler :=
  a.emitWords (0x00 ||| op) [left, right, dest]

/-- `dest := left op constant`. -/
def mathConst (a : Assembler) (op : UInt8) (left constant dest : Int32) : Assembler :=
  a.emitWords (0x80 ||| op) [left, constant, dest]

/-- Branches to `label` when two registers compare as asked. -/
def branch (a : Assembler) (condition : UInt8) (left right : Int32) (label : String) : Assembler :=
  a.emitBranch (0x40 ||| condition) [left, right] label

/-- Branches to `label` always. -/
def jump (a : Assembler) (label : String) : Assembler := a.branch 6 0 0 label

/-- Branches to `label` when a register equals a constant. -/
def branchConst (a : Assembler) (left constant : Int32) (label : String) : Assembler :=
  a.emitBranch 0x4B [left, constant] label

/-- Calls the address held in a register with the values of the listed registers. -/
def invoke (a : Assembler) (target : Int32) (arguments : List Int32) : Assembler :=
  a.emit (.ofPositions 0x48 (fun i => if i = 0 then target else 0) (fun _ => 0) arguments
    fun _ => false)

/-- Leaves the current frame. -/
def ret (a : Assembler) : Assembler := a.emitWords 0x49 []

/-- Marks a method entry. -/
def entryMarker (a : Assembler) : Assembler := a.emitWords 0x4A []

/-- Atomically increments the word at `base + offset`. -/
def increment (a : Assembler) (base offset : Int32) : Assembler := a.emitWords 0x4C [base, offset]

/-- Atomically decrements the word at `base + offset` into `dest`. -/
def decrement (a : Assembler) (dest base offset : Int32) : Assembler :=
  a.emitWords 0x4D [dest, base, offset]

/-- Loads a value from `base + offset` with a constant offset. -/
def load (a : Assembler) (type : UInt8) (dest base offset : Int32) : Assembler :=
  a.emitWords (0xD8 ||| type) [dest, base, offset]

/-- Stores a value at `base + offset` with a constant offset. -/
def store (a : Assembler) (type : UInt8) (source base offset : Int32) : Assembler :=
  a.emitWords (0xD0 ||| type) [source, base, offset]

/-- Loads a value from `base + offset` with the offset in a register. -/
def loadIndexed (a : Assembler) (type : UInt8) (dest base offset : Int32) : Assembler :=
  a.emitWords (0x58 ||| type) [dest, base, offset]

/-- Stores a value at `base + offset` with the offset in a register. -/
def storeIndexed (a : Assembler) (type : UInt8) (source base offset : Int32) : Assembler :=
  a.emitWords (0x50 ||| type) [source, base, offset]

/-- `dest := source` converted between value kinds. -/
def convert (a : Assembler) (sourceKind targetKind : UInt8) (source dest : Int32) : Assembler :=
  a.emitWords ((0xF0 : UInt8) ||| ((sourceKind &&& 3) <<< 2) ||| (targetKind &&& 3)) [source, dest]

/-! ### Finishing -/

/-- Writes the distance of a branch into its field. -/
def patch (code : Array UInt8) (site : BranchSite) (distance : Int) : Array UInt8 :=
  let raw := Instruction.jumpField (Int32.ofInt distance)
  (code.setIfInBounds site.field (UInt8.ofNat (0x80 + raw / 256))).setIfInBounds (site.field + 1)
    (UInt8.ofNat raw)

/-- Writes the distances of the given branches, up to the first that cannot be resolved. -/
def resolve (labels : List (String × Nat)) (code : Array UInt8) :
    List BranchSite → Array UInt8 × Option AssemblyError
  | [] => (code, none)
  | site :: sites =>
      match labels.lookup site.label with
      | none => (code, some (.undefinedLabel site.label))
      | some target =>
          let distance : Int := (target : Int) - site.start
          if distance < Instruction.minJump || Instruction.maxJump < distance then
            (code, some (.jumpTooFar site.label distance))
          else resolve labels (patch code site distance) sites

/-- Resolves the branches in the order they were added, and gives the assembled bytes. The code
keeps the distances written so far, so finishing may be repeated. -/
def finish (a : Assembler) : Assembler × Except AssemblyError (List UInt8) :=
  match a.error with
  | some e => (a, .error e)
  | none =>
      match resolve a.labels a.code a.sites.reverse with
      | (code, some e) => ({ a with code }, .error e)
      | (code, none) => ({ a with code }, .ok code.toList)

end Assembler

end RegisterVM
