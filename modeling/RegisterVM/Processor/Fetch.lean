import RegisterVM.Instruction.Codec
import RegisterVM.Memory.Basic
import RegisterVM.Processor.Fault
/-!
# Fetching instructions

A processor reads code through a window of cached bytes. The window is moved to the current address
when that lies outside of it, or beyond the part of it that may be used (the spill), and when an
instruction crosses its end. An instruction longer than the whole cache is read straight from
memory.
-/

namespace RegisterVM

/-- Cached code: consecutive bytes from an address on. -/
structure CodeWindow where
  base : UInt32
  bytes : List UInt8
  deriving DecidableEq, Repr

/-- The code cache of a processor. -/
structure CodeCache where
  /-- How many bytes are read at once. -/
  size : Nat
  /-- How far into the window the address may move before the window follows it. -/
  spill : Nat
  window : Option CodeWindow := none
  deriving DecidableEq, Repr

namespace CodeCache

/-- The cache size where none is asked for. -/
def defaultSize : Nat := 2048
/-- The spill where none is asked for. -/
def defaultSpill : Nat := 1024

/-- An empty cache. A size or spill that is not positive stands for the default, and the spill never
exceeds the size. -/
def ofOptions (size spill : Int) : CodeCache :=
  let size := if size ≤ 0 then defaultSize else size.toNat
  let spill := if spill ≤ 0 then defaultSpill else spill.toNat
  ⟨size, min spill size, none⟩

/-- Forgets the cached bytes. -/
def invalidate (c : CodeCache) : CodeCache := { c with window := none }

/-- The window, if `pc` lies in the part of it that may be used. Distances are 32-bit numbers, and
so is the bound that they are held against. -/
def hit? (c : CodeCache) (pc : UInt32) : Option CodeWindow :=
  match c.window with
  | none => none
  | some w =>
      if w.base ≤ pc && pc - w.base < UInt32.ofNat (min c.spill w.bytes.length) then some w
      else none

end CodeCache

/-! ### Reading ahead -/

/-- The largest `n` in `[low, high)` for which `n` bytes at `pc` are readable, by bisection, when
that holds at `low` and not at `high`. -/
def bisectReadable (m : Memory) (pc : UInt32) (low high : Nat) : Nat :=
  if _h : low + 1 < high then
    let mid := (low + high) / 2
    match m.check .read pc mid with
    | .ok _ => bisectReadable m pc mid high
    | .error _ => bisectReadable m pc low mid
  else low
termination_by high - low

/-- As many of the `count` bytes at `pc` as can be read, at least one. The error is that of reading
them all. -/
def readablePart (m : Memory) (pc : UInt32) (count : Nat) : Except AccessError (List UInt8) :=
  match m.read pc count with
  | .ok bytes => .ok bytes
  | .error e =>
      match bisectReadable m pc 0 count with
      | 0 => .error e
      | n + 1 => m.read pc (n + 1)

/-- A window at `pc`. -/
def readWindow (m : Memory) (pc : UInt32) (size : Nat) : Except Fault CodeWindow :=
  match readablePart m pc size with
  | .error e => .error ⟨.access e, pc, 0, pc⟩
  | .ok bytes => .ok ⟨pc, bytes⟩

/-! ### Decoding -/

/-- The fault of memory ending inside an instruction of which only `bytes` can be read. -/
def truncatedFault (pc : UInt32) (bytes : List UInt8) : Fault :=
  ⟨.access .outOfBounds, pc, bytes.headD 0, pc + UInt32.ofNat bytes.length⟩

/-- Decodes an instruction longer than the cache from memory, doubling what is read until it
fits. -/
def decodeLong (m : Memory) (pc : UInt32) : (fuel size : Nat) → Except Fault Instruction
  | 0, _ => .error ⟨.invalidInstruction, pc, 0, 0⟩
  | fuel + 1, size =>
      let size := min size Instruction.maxSize
      match readablePart m pc size with
      | .error e => .error ⟨.access e, pc, 0, pc⟩
      | .ok bytes =>
          match Instruction.decode bytes with
          | .ok (inst, _) => .ok inst
          | .error .unknownOpcode => .error ⟨.invalidOpcode, pc, bytes.headD 0, 0⟩
          | .error .short =>
              if bytes.length < size then .error (truncatedFault pc bytes)
              else if size = Instruction.maxSize then
                .error ⟨.invalidInstruction, pc, bytes.headD 0, 0⟩
              else decodeLong m pc fuel (2 * size)

/-- What a fetch did: the cache after it, how often the window was read, and the outcome. -/
structure Fetched where
  cache : CodeCache
  refills : Nat
  outcome : Except Fault Instruction

/-- Decodes the instruction at the start of a window. -/
def decodeAtStart (m : Memory) (size : Nat) (w : CodeWindow) : Except Fault Instruction :=
  match Instruction.decode w.bytes with
  | .ok (inst, _) => .ok inst
  | .error .unknownOpcode => .error ⟨.invalidOpcode, w.base, w.bytes.headD 0, 0⟩
  | .error .short =>
      if w.bytes.length < size then .error (truncatedFault w.base w.bytes)
      else decodeLong m w.base Instruction.maxSize (2 * size)

/-- Moves the window to `pc` and decodes there, after `refills` earlier reads. -/
def refetch (m : Memory) (pc : UInt32) (c : CodeCache) (refills : Nat) : Fetched :=
  match readWindow m pc c.size with
  | .error f => ⟨c.invalidate, refills + 1, .error f⟩
  | .ok w => ⟨{ c with window := some w }, refills + 1, decodeAtStart m c.size w⟩

/-- Fetches the instruction at `pc`. -/
def fetch (m : Memory) (pc : UInt32) (c : CodeCache) : Fetched :=
  match c.hit? pc with
  | none => refetch m pc c 0
  | some w =>
      let bytes := w.bytes.drop (pc.toNat - w.base.toNat)
      match Instruction.decode bytes with
      | .ok (inst, _) => ⟨c, 0, .ok inst⟩
      | .error .unknownOpcode => ⟨c, 0, .error ⟨.invalidOpcode, pc, bytes.headD 0, 0⟩⟩
      | .error .short =>
          if w.base = pc then ⟨c, 0, decodeAtStart m c.size w⟩
          else refetch m pc c 0

end RegisterVM
