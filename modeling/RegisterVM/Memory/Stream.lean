import RegisterVM.Memory.Basic
/-!
# Byte streams over memory

A stream reads consecutive bytes from an address on, at most a given number of them. A read of
several bytes takes them all at once where one region holds them, and otherwise byte by byte up to
the first that cannot be read.
-/

namespace RegisterVM

/-- Why a stream gave no byte. -/
inductive StreamError where
  /-- The limit is reached. -/
  | endOfStream
  /-- The next byte cannot be read. -/
  | access (cause : AccessError)
  deriving DecidableEq, Repr

/-- The wording of a stream error. -/
def StreamError.message : StreamError → String
  | .endOfStream => ErrorCode.endOfStream.wording
  | .access cause => cause.message

/-- The code of a stream error. -/
def StreamError.code : StreamError → ErrorCode
  | .endOfStream => .endOfStream
  | .access cause => cause.code

instance : Failure StreamError := ⟨StreamError.message, fun e => some e.code⟩

/-- A position in memory with the number of bytes that may still be read. -/
structure Stream where
  address : UInt32
  remaining : Int
  deriving DecidableEq, Repr

namespace Stream

/-- The stream after `count` bytes. -/
def advance (s : Stream) (count : Nat) : Stream :=
  ⟨s.address + UInt32.ofNat count, s.remaining - count⟩

/-- Reads one byte. -/
def readByte (m : Memory) (s : Stream) : Except StreamError (UInt8 × Stream) :=
  if s.remaining ≤ 0 then .error .endOfStream
  else
    match m.readByte s.address with
    | .error e => .error (.access e)
    | .ok b => .ok (b, s.advance 1)

/-- Reads up to `count` bytes one by one, stopping at the first that cannot be read. -/
def readEach (m : Memory) : (count : Nat) → Stream → List UInt8 × Option StreamError × Stream
  | 0, s => ([], none, s)
  | count + 1, s =>
      match readByte m s with
      | .error e => ([], some e, s)
      | .ok (b, s) =>
          let (bytes, e, s) := readEach m count s
          (b :: bytes, e, s)

/-- Reads up to `count` bytes: what was read, why it is less than asked for within the limit, and
the stream after it. -/
def read (m : Memory) (count : Nat) (s : Stream) : List UInt8 × Option StreamError × Stream :=
  if s.remaining ≤ 0 then ([], some .endOfStream, s)
  else
    let count := min count s.remaining.toNat
    match m.read s.address count with
    | .ok bytes => (bytes, none, s.advance count)
    | .error _ => readEach m count s

end Stream

end RegisterVM
