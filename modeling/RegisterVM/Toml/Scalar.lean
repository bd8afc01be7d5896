import RegisterVM.Toml.Text
/-!
# TOML scalars

Numbers, moments, booleans and texts. An integer fits into 64 bits; of a fractional number and of a
moment only the well-formedness matters here, so their values are not kept.
-/

namespace RegisterVM.Toml

/-- A value without parts. -/
inductive Scalar where
  | integer (n : Int)
  | real
  | moment
  | text (s : String)
  | boolean (b : Bool)
  deriving DecidableEq, Repr

/-! ### Integers -/

/-- Whether every underscore stands between digits, and the last character is a digit. -/
def underscoresOk (chars : List Char) : Bool :=
  let step (state : Bool × Bool) (c : Char) : Bool × Bool :=
    (state.1 && (c != '_' || state.2), (Text.hexValue? c).isSome)
  let (ok, last) := chars.foldl step (true, false)
  ok && last

/-- Whether a decimal number starts with a zero that is not its only digit. -/
def hasLeadingZero : List Char → Bool
  | '0' :: 'b' :: _ | '0' :: 'o' :: _ | '0' :: 'x' :: _ => false
  | '0' :: _ :: _ => true
  | '-' :: '0' :: _ :: _ | '+' :: '0' :: _ :: _ => true
  | _ => false

/-- The number that digits of a base spell, underscores aside. -/
def digitsValue (base : Nat) (chars : List Char) : Nat :=
  (chars.filterMap Text.hexValue?).foldl (fun n d => n * base + d) 0

/-- The value of an integer literal. -/
def integerValue : List Char → Int
  | '0' :: 'b' :: digits => digitsValue 2 digits
  | '0' :: 'o' :: digits => digitsValue 8 digits
  | '0' :: 'x' :: digits => digitsValue 16 digits
  | '-' :: digits => -(digitsValue 10 digits : Int)
  | digits => digitsValue 10 digits

/-- The integer that a literal stands for. -/
def integer? (literal : List Char) : Option Scalar :=
  if !underscoresOk literal || hasLeadingZero literal then none
  else
    let n := integerValue literal
    if Int64.minValue.toInt ≤ n ∧ n ≤ Int64.maxValue.toInt then some (.integer n) else none

/-! ### Fractional numbers -/

/-- Whether a character divides the parts of a fractional number. -/
def isRealMark (c : Char) : Bool := c == '.' || c == 'e' || c == 'E'

/-- The parts between marks, empty ones left out. -/
def realParts (literal : List Char) : List (List Char) :=
  let step (c : Char) (parts : List (List Char)) : List (List Char) :=
    match parts with
    | [] => [[]]
    | part :: rest => if isRealMark c then [] :: part :: rest else (c :: part) :: rest
  (literal.foldr step [[]]).filter fun part => !part.isEmpty

/-- Whether every point is followed by a digit. -/
def pointsOk : List Char → Bool
  | [] => true
  | '.' :: c :: rest => c.isDigit && pointsOk (c :: rest)
  | ['.'] => false
  | _ :: rest => pointsOk rest

/-- An exponent: a mark, a sign if there is one, digits. -/
def exponent? : List Char → Option Int
  | [] => some 0
  | _ :: rest =>
      let (negative, digits) :=
        match rest with
        | '-' :: digits => (true, digits)
        | '+' :: digits => (false, digits)
        | digits => (false, digits)
      if digits.isEmpty || !digits.all Char.isDigit then none
      else
        let n : Int := digitsValue 10 digits
        some (if negative then -n else n)

/-- Whether `digits * 10 ^ power` rounds to a number of 64 bits that is not infinite. -/
def isFinite (digits : List Char) (power : Int) : Bool :=
  let significant := digits.dropWhile (· == '0')
  let size := significant.length + power
  if significant.isEmpty || size < 300 then true
  else if 320 < size then false
  else
    let n := digitsValue 10 significant
    let limit := Nat.pow 2 1024 - Nat.pow 2 970
    if power < 0 then n < limit * Nat.pow 10 (-power).toNat else n * Nat.pow 10 power.toNat < limit

/-- The fractional number that a literal stands for. -/
def real? (literal : List Char) : Option Scalar :=
  let parts := realParts literal
  if !parts.all underscoresOk || hasLeadingZero (parts.headD []) || !pointsOk literal then none
  else
    let plain := literal.filter (· != '_')
    let unsigned :=
      match plain with
      | '-' :: rest | '+' :: rest => rest
      | rest => rest
    let whole := unsigned.takeWhile Char.isDigit
    let rest := unsigned.dropWhile Char.isDigit
    let (fraction, rest) :=
      match rest with
      | '.' :: rest => (rest.takeWhile Char.isDigit, rest.dropWhile Char.isDigit)
      | rest => ([], rest)
    match rest with
    | [] => if isFinite (whole ++ fraction) (-fraction.length) then some .real else none
    | mark :: _ =>
        if mark != 'e' && mark != 'E' then none
        else do
          let power ← exponent? rest
          if isFinite (whole ++ fraction) (power - fraction.length) then some .real else none

/-! ### Moments -/

/-- The number that two digits at the front spell, and the rest. -/
def twoDigits : List Char → Option (Nat × List Char)
  | a :: b :: rest => if a.isDigit && b.isDigit then some (digitsValue 10 [a, b], rest) else none
  | _ => none

/-- A given character at the front, and the rest. -/
def mark (c : Char) : List Char → Option (List Char)
  | d :: rest => if c = d then some rest else none
  | [] => none

/-- The length of a month. -/
def daysIn (year month : Nat) : Nat :=
  match month with
  | 2 => if year % 4 = 0 && (year % 100 ≠ 0 || year % 400 = 0) then 29 else 28
  | 4 | 6 | 9 | 11 => 30
  | _ => 31

/-- What follows a date. -/
def afterDate (chars : List Char) : Option (List Char) := do
  let (century, rest) ← twoDigits chars
  let (year, rest) ← twoDigits rest
  let (month, rest) ← twoDigits (← mark '-' rest)
  let (day, rest) ← twoDigits (← mark '-' rest)
  if 1 ≤ month && month ≤ 12 && 1 ≤ day && day ≤ daysIn (century * 100 + year) month then some rest
  else none

/-- What follows a time of day. Seconds and their fraction may be missing. -/
def afterTime (chars : List Char) : Option (List Char) := do
  let (hour, rest) ← twoDigits chars
  let (minute, rest) ← twoDigits (← mark ':' rest)
  if 23 < hour || 59 < minute then none
  else
    match rest with
    | ':' :: rest => do
        let (second, rest) ← twoDigits rest
        if 59 < second then none
        else
          match rest with
          | '.' :: c :: rest => if c.isDigit then some (rest.dropWhile Char.isDigit) else none
          | rest => some rest
    | rest => some rest

/-- Whether an offset from universal time, or none, is all that is left. -/
def isOffset : List Char → Bool
  | [] => true
  | ['Z'] => true
  | sign :: rest =>
      (sign == '+' || sign == '-') &&
        (do
          let (hour, rest) ← twoDigits rest
          let (minute, rest) ← twoDigits (← mark ':' rest)
          return rest.isEmpty && hour ≤ 24 && minute ≤ 60).getD false

/-- The moment that a literal stands for: a date, a time of day, or both. -/
def moment? (literal : List Char) : Option Scalar :=
  let trimmed := (literal.reverse.dropWhile (· == ' ')).reverse
  let plain := trimmed.map fun c =>
    if c == 't' || c == ' ' then 'T' else if c == 'z' then 'Z' else c
  let ok :=
    match afterDate plain with
    | some [] => true
    | some ('T' :: rest) => (afterTime rest).any isOffset
    | some _ => false
    | none => afterTime plain == some []
  if ok then some .moment else none

/-! ### Reading -/

/-- Characters of a moment. -/
def isMomentChar (c : Char) : Bool := c.isDigit || "-:Tt .Zz+".toList.contains c

/-- Characters of a fractional number. -/
def isRealChar (c : Char) : Bool := c.isDigit || "_.-+eE".toList.contains c

/-- Characters of a decimal integer. -/
def isDecimalChar (c : Char) : Bool := c.isDigit || c == '_'

/-- Reads a decimal number: the characters before it and those that are left. -/
def readDecimal (front chars : List Char) : Option (Scalar × List Char) := do
  let whole := front ++ chars.takeWhile isDecimalChar
  let rest := chars.dropWhile isDecimalChar
  if rest.head?.any isRealMark then
    return (← real? (whole ++ rest.takeWhile isRealChar), rest.dropWhile isRealChar)
  else return (← integer? whole, rest)

/-- Reads an integer of another base after its designator. -/
def readBased (front : List Char) (base : Nat) (chars : List Char) :
    Option (Scalar × List Char) := do
  let isDigit (c : Char) : Bool := (Text.hexValue? c).any (· < base)
  if !chars.head?.any isDigit then none
  else
    let isPart (c : Char) : Bool := isDigit c || c == '_'
    return (← integer? (front ++ chars.takeWhile isPart), chars.dropWhile isPart)

/-- Reads a number or a moment that starts with a digit. -/
def readUnsigned (chars : List Char) : Option (Scalar × List Char) :=
  match chars with
  | '0' :: 'b' :: rest => readBased ['0', 'b'] 2 rest
  | '0' :: 'o' :: rest => readBased ['0', 'o'] 8 rest
  | '0' :: 'x' :: rest => readBased ['0', 'x'] 16 rest
  | _ =>
      let digits := chars.takeWhile Char.isDigit
      let rest := chars.dropWhile Char.isDigit
      if rest.head?.any (fun c => c == '-' || c == ':') && 2 ≤ digits.length then do
        return (← moment? (digits ++ rest.takeWhile isMomentChar), rest.dropWhile isMomentChar)
      else readDecimal [] chars

/-- Reads a number after its sign. -/
def readSigned (sign : Char) (chars : List Char) : Option (Scalar × List Char) :=
  match chars with
  | 'i' :: 'n' :: 'f' :: rest | 'n' :: 'a' :: 'n' :: rest => some (.real, rest)
  | '0' :: 'b' :: _ | '0' :: 'o' :: _ | '0' :: 'x' :: _ => none
  | c :: _ => if c.isDigit then readDecimal [sign] chars else none
  | [] => none

/-- Reads a scalar. -/
def readScalar (chars : List Char) : Option (Scalar × List Char) :=
  match chars with
  | '"' :: _ | '\'' :: _ => (readText chars).map fun (text, rest) => (.text text, rest)
  | '+' :: rest => readSigned '+' rest
  | '-' :: rest => readSigned '-' rest
  | 'i' :: 'n' :: 'f' :: rest | 'n' :: 'a' :: 'n' :: rest => some (.real, rest)
  | 't' :: 'r' :: 'u' :: 'e' :: rest => some (.boolean true, rest)
  | 'f' :: 'a' :: 'l' :: 's' :: 'e' :: rest => some (.boolean false, rest)
  | c :: _ => if c.isDigit then readUnsigned chars else none
  | [] => none

end RegisterVM.Toml
