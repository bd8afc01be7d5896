import RegisterVM.Debug.HeaderCache
import RegisterVM.Processor.Step
/-!
# Traces

A trace names the source location of every active frame, innermost first. The where-is register of a
frame points at the debug header of its method.
-/

namespace RegisterVM

/-- The source location of one frame; a number that is not known is `-1`. -/
structure TraceElement where
  className : String
  methodName : String
  descriptor : String
  pc : UInt32
  line : Int32
  instruction : Int32
  address : Int32
  deriving DecidableEq, Repr

namespace TraceElement

/-- A location number with its letter, if it is known. -/
def field (letter : String) (value : Int32) : String :=
  if value = -1 then "" else " " ++ letter ++ Text.int value.toInt

/-- The names of the element followed by what is known of its position. -/
def text (e : TraceElement) : String :=
  (if e.className = "" && e.methodName = "" then "<unknown>"
    else e.className ++ "::" ++ e.methodName ++ ":" ++ e.descriptor) ++
    " @" ++ Text.hex 8 e.pc.toNat ++ field "L" e.line ++ field "J" e.address ++
    field "I" e.instruction

end TraceElement

/-- Where the debug header of a frame's method lies. -/
def Frame.whereIs (f : Frame) : UInt32 := (f.get Register.whereIs).toUInt32

/-- The instruction address of a frame, relative to its method. -/
def Frame.relativePc (f : Frame) : Int32 := (f.pc - f.entry).toInt32

/-- The trace element of a frame that is at a location. -/
def Frame.element (f : Frame) (location : Debug.Location) : TraceElement :=
  ⟨location.className, location.methodName, location.descriptor, f.pc, location.line,
    location.instruction, location.address⟩

/-- The location of a frame. -/
def Frame.locate (f : Frame) (m : Memory) (cache : Debug.HeaderCache) :
    TraceElement × Debug.HeaderCache :=
  let (location, cache) := cache.resolve m f.whereIs f.relativePc
  (f.element location, cache)

/-- The locations of frames, in order. -/
def traceFrames (m : Memory) :
    List Frame → Debug.HeaderCache → List TraceElement × Debug.HeaderCache
  | [], cache => ([], cache)
  | f :: rest, cache =>
      let (element, cache) := f.locate m cache
      let (elements, cache) := traceFrames m rest cache
      (element :: elements, cache)

/-- The trace of a processor, innermost frame first. -/
def Processor.trace (p : Processor) (m : Memory) (cache : Debug.HeaderCache) :
    List TraceElement × Debug.HeaderCache :=
  traceFrames m p.frames cache

end RegisterVM
