import RegisterVM.ErrorCode
import RegisterVM.Text.Digits
import RegisterVM.Text.Utf8
/-!
# Durations

A duration is written as a sequence of decimal numbers, each with a unit, after a sign if there is
one. It counts nanoseconds and fits into 64 bits. Fractions are weighed in binary floating point and
cut to whole nanoseconds.
-/

namespace RegisterVM.Settings

/-- Why a text is no duration. -/
inductive DurationError where
  | invalid (text : String)
  | missingUnit (text : String)
  | unknownUnit (unit text : String)
  deriving DecidableEq, Repr

namespace Duration

/-- A character inside quotation marks: everything outside printable ASCII is given byte by byte. -/
def escape (c : Char) : String :=
  if c = '"' || c = '\\' then String.ofList ['\\', c]
  else if c.toNat < 0x20 || 0x80 ≤ c.toNat then
    String.join ((Text.Utf8.bytes (String.singleton c)).map fun b => "\\x" ++ Text.hex 2 b.toNat)
  else String.singleton c

/-- Text in quotation marks. -/
def quoted (text : String) : String := "\"" ++ String.join (text.toList.map escape) ++ "\""

end Duration

/-- The wording of a refusal. -/
def DurationError.message : DurationError → String
  | .invalid text => "time: invalid duration " ++ Duration.quoted text
  | .missingUnit text => "time: missing unit in duration " ++ Duration.quoted text
  | .unknownUnit unit text =>
      "time: unknown unit " ++ Duration.quoted unit ++ " in duration " ++ Duration.quoted text

instance : Failure DurationError := ⟨DurationError.message, fun _ => none⟩

namespace Duration

/-- The largest count of nanoseconds, up to its sign. -/
def limit : Nat := 0x8000000000000000

/-- How many nanoseconds a unit has. -/
def unit? (name : String) : Option Nat :=
  match name with
  | "ns" => some 1
  | "us" | "µs" | "μs" => some 1000
  | "ms" => some 1000000
  | "s" => some 1000000000
  | "m" => some 60000000000
  | "h" => some 3600000000000
  | _ => none

/-- The digits of a fraction as far as they fit into 64 bits. -/
structure Fraction where
  digits : Nat := 0
  /-- How much a whole counts for, in units of the last digit. -/
  scale : Float := 1
  /-- Whether a digit did not fit; no later digit is taken. -/
  full : Bool := false

/-- Takes in a digit of a fraction. -/
def Fraction.push (f : Fraction) (c : Char) : Fraction :=
  let next := f.digits * 10 + (c.toNat - '0'.toNat)
  if f.full || (limit - 1) / 10 < f.digits || limit < next then { f with full := true }
  else { f with digits := next, scale := f.scale * 10 }

/-- The nanoseconds of a fraction of a unit. -/
def Fraction.nanos (f : Fraction) (unit : Nat) : Nat :=
  if f.digits = 0 then 0
  else
    ((UInt64.ofNat f.digits).toFloat * ((UInt64.ofNat unit).toFloat / f.scale)).toUInt64.toNat

/-- Whether a character belongs to a number. -/
def isNumeric (c : Char) : Bool := c == '.' || c.isDigit

/-- One number with its unit: its nanoseconds and what follows. `text` is the whole duration. -/
def component (text : String) (chars : List Char) : Except DurationError (Nat × List Char) := do
  let whole := chars.takeWhile Char.isDigit
  let rest := chars.dropWhile Char.isDigit
  let n := whole.foldl (fun n c => n * 10 + (c.toNat - '0'.toNat)) 0
  if limit < n then throw (.invalid text)
  let (fraction, rest) :=
    match rest with
    | '.' :: rest => (rest.takeWhile Char.isDigit, rest.dropWhile Char.isDigit)
    | rest => ([], rest)
  if whole.isEmpty && fraction.isEmpty then throw (.invalid text)
  let name := String.ofList (rest.takeWhile fun c => !isNumeric c)
  let rest := rest.dropWhile fun c => !isNumeric c
  if name.isEmpty then throw (.missingUnit text)
  match unit? name with
  | none => throw (.unknownUnit name text)
  | some unit =>
      if limit / unit < n then throw (.invalid text)
      let nanos := n * unit + (fraction.foldl Fraction.push {}).nanos unit
      if limit < nanos then throw (.invalid text)
      return (nanos, rest)

/-- The sum of the components, counted in 64 bits; `fuel` bounds their number. -/
def total (text : String) : (fuel : Nat) → List Char → Nat → Except DurationError Nat
  | _, [], sum => .ok sum
  | 0, _, _ => .error (.invalid text)
  | fuel + 1, chars, sum => do
      let (nanos, rest) ← component text chars
      let sum := (sum + nanos) % UInt64.size
      if limit < sum then throw (.invalid text)
      total text fuel rest sum

/-- The nanoseconds that a text stands for. -/
def parse (text : String) : Except DurationError Int := do
  let (negative, chars) :=
    match text.toList with
    | '-' :: rest => (true, rest)
    | '+' :: rest => (false, rest)
    | chars => (false, chars)
  if chars = ['0'] then return 0
  if chars.isEmpty then throw (.invalid text)
  let nanos ← total text chars.length chars 0
  if negative then return -nanos
  if limit ≤ nanos then throw (.invalid text)
  return nanos

/-- A text for a count of nanoseconds. -/
def text (nanos : Int) : String := Text.int nanos ++ "ns"

end Duration

end RegisterVM.Settings
