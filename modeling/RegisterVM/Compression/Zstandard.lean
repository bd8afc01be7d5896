import RegisterVM.Bytes
import RegisterVM.ErrorCode
/-!
# Zstandard frames

Compressed data is a sequence of frames. A frame has a header, which may give the size of its
content, and blocks; a skippable frame has arbitrary bytes instead and stands for nothing. A block
holds its bytes as they are, or one byte and how often it is repeated. These two kinds of blocks are
enough to store any content: `pack` writes one frame of plain blocks, and `unpack` reads any
sequence of frames made of them. Blocks with entropy-coded contents, dictionaries and checksums are
refused.

Numbers inside frames are written least significant byte first.
-/

namespace RegisterVM.Compression.Zstandard

/-- Why data cannot be unpacked. -/
inductive FrameError where
  /-- The data ends inside a frame. -/
  | truncated
  /-- A frame does not start with the frame mark. -/
  | badMagic
  /-- The header uses a bit that has no meaning yet. -/
  | reservedBit
  /-- A block is of the kind that has no meaning yet. -/
  | reservedBlock
  /-- A block does not fit into the window. -/
  | windowExceeded
  /-- The blocks hold more than the header announces. -/
  | sizeExceeded
  /-- The blocks hold less than the header announces. -/
  | sizeMismatch
  /-- The frame uses a feature that is not read. -/
  | unsupported
  deriving DecidableEq, Repr

/-- The wording of a refusal. -/
def FrameError.message : FrameError → String
  | .truncated => ErrorCode.unexpectedEnd.wording
  | .badMagic => "invalid input: magic number mismatch"
  | .reservedBit => "reserved bit set on frame header"
  | .reservedBlock => "invalid input: reserved block type encountered"
  | .windowExceeded => "window size exceeded"
  | .sizeExceeded => "frame size exceeded"
  | .sizeMismatch => "frame size does not match size on stream"
  | .unsupported => "unsupported frame feature"

/-- The bytes that mark a frame. -/
def frameMark : List UInt8 := [0x28, 0xB5, 0x2F, 0xFD]

/-- The most bytes that a block may hold. -/
def maxBlock : Nat := 131072

/-- The smallest window. -/
def minWindow : Nat := 1024

/-- The number that bytes spell, least significant first. -/
def littleEndian (bytes : List UInt8) : Nat := bigEndian bytes.reverse

/-- The `width` low-order bytes of a number, least significant first. -/
def toLittleEndian (width n : Nat) : List UInt8 := (toBigEndian width n).reverse

/-- Whether four bytes mark a skippable frame. -/
def isSkippable (mark : List UInt8) : Bool :=
  match mark with
  | [a, 0x2A, 0x4D, 0x18] => a &&& 0xF0 == 0x50
  | _ => false

/-- Cuts off bytes that have to be there. -/
def cut (count : Nat) (bytes : List UInt8) : Except FrameError (List UInt8 × List UInt8) :=
  match takeExact count bytes with
  | some parts => .ok parts
  | none => .error .truncated

/-- What a frame header says. -/
structure Header where
  /-- The most bytes that a block of the frame may hold. -/
  window : Nat
  /-- How many bytes the blocks hold together, where it is said. -/
  contentSize : Option Nat
  deriving DecidableEq, Repr

/-- The width of the content size field, by the two high bits of the first header byte. -/
def sizeFieldWidth (flag : Nat) (single : Bool) : Nat :=
  match flag with
  | 0 => if single then 1 else 0
  | 1 => 2
  | 2 => 4
  | _ => 8

/-- The content size that a field gives. Two bytes count from 256 on. -/
def contentSizeOf (field : List UInt8) : Option Nat :=
  match field.length with
  | 0 => none
  | 2 => some (littleEndian field + 256)
  | _ => some (littleEndian field)

/-- The window size that a descriptor byte gives. -/
def windowOf (descriptor : Nat) : Nat :=
  let base := Nat.pow 2 (10 + descriptor / 8)
  base + base / 8 * (descriptor % 8)

/-- Reads a frame header after its mark. -/
def readHeader (bytes : List UInt8) : Except FrameError (Header × List UInt8) := do
  let (first, bytes) ← cut 1 bytes
  let flags := littleEndian first
  let single := flags / 32 % 2 = 1
  if flags / 8 % 2 = 1 then throw .reservedBit
  let (descriptor, bytes) ← cut (if single then 0 else 1) bytes
  if flags % 8 ≠ 0 then throw .unsupported
  let (field, bytes) ← cut (sizeFieldWidth (flags / 64) single) bytes
  let contentSize := contentSizeOf field
  let window := if single then max (contentSize.getD 0) minWindow
    else windowOf (littleEndian descriptor)
  return (⟨window, contentSize⟩, bytes)

/-- Reads a block: whether it is the last of its frame, what it holds, and the rest of the input. -/
def readBlock (window : Nat) (bytes : List UInt8) :
    Except FrameError (Bool × List UInt8 × List UInt8) := do
  let (head, bytes) ← cut 3 bytes
  let number := littleEndian head
  let last := number % 2 = 1
  let size := number / 8
  match number / 2 % 4 with
  | 0 =>
      if maxBlock < size || window < size then throw .windowExceeded
      let (content, bytes) ← cut size bytes
      return (last, content, bytes)
  | 1 =>
      if maxBlock < size || window < size then throw .windowExceeded
      let (content, bytes) ← cut 1 bytes
      return (last, repeatBytes size content, bytes)
  | 2 => throw .unsupported
  | _ => throw .reservedBlock

/-- Whether more bytes have come than a header announced. -/
def Header.exceeded (header : Header) (count : Nat) : Bool :=
  match header.contentSize with
  | some size => size < count
  | none => false

/-- Reads the blocks of a frame. `count` bytes have come before; `fuel` bounds the blocks. -/
def readBlocks (header : Header) (count : Nat) :
    (fuel : Nat) → List UInt8 → Except FrameError (List UInt8 × List UInt8)
  | 0, _ => .error .truncated
  | fuel + 1, bytes => do
      let (last, content, bytes) ← readBlock header.window bytes
      let count := count + content.length
      if header.exceeded count then throw .sizeExceeded
      if last then
        if header.contentSize.any (· != count) then throw .sizeMismatch
        return (content, bytes)
      else
        let (rest, bytes) ← readBlocks header count fuel bytes
        return (content ++ rest, bytes)

/-- Reads a frame: what it stands for, and the rest of the input. -/
def readFrame (bytes : List UInt8) : Except FrameError (List UInt8 × List UInt8) := do
  let (mark, bytes) ← cut 4 bytes
  if isSkippable mark then
    let (size, bytes) ← cut 4 bytes
    let (_, bytes) ← cut (littleEndian size) bytes
    return ([], bytes)
  else if mark = frameMark then
    let (header, bytes) ← readHeader bytes
    readBlocks header 0 bytes.length bytes
  else throw .badMagic

/-- Reads frames to the end of the input; `fuel` bounds their number. -/
def readFrames : (fuel : Nat) → List UInt8 → Except FrameError (List UInt8)
  | 0, _ => .ok []
  | _ + 1, [] => .ok []
  | fuel + 1, bytes => do
      let (content, rest) ← readFrame bytes
      return content ++ (← readFrames fuel rest)

/-- What packed data stands for. -/
def unpack (bytes : List UInt8) : Except FrameError (List UInt8) := readFrames bytes.length bytes

/-! ### Packing -/

/-- A plain block. -/
def plainBlock (last : Bool) (content : List UInt8) : List UInt8 :=
  toLittleEndian 3 (content.length * 8 + if last then 1 else 0) ++ content

/-- The blocks of a frame; `full` counts the full blocks before the last. -/
def plainBlocks : (full : Nat) → List UInt8 → List UInt8
  | 0, content => plainBlock true content
  | full + 1, content =>
      plainBlock false (content.take maxBlock) ++ plainBlocks full (content.drop maxBlock)

/-- A frame that stands for the given content. -/
def pack (content : List UInt8) : List UInt8 :=
  frameMark ++ [0xE0] ++ toLittleEndian 8 content.length ++
    plainBlocks ((content.length - 1) / maxBlock) content

end RegisterVM.Compression.Zstandard
