import RegisterVM.Number.Binary
import RegisterVM.Text.Digits
/-!
# Decimal text of floating-point numbers

`shortest` finds the fewest decimal digits that read back as the same number: for one digit, two
digits and so on it tests the two neighbours of the value on that decimal grid against the interval
of reals that round to it. `general` lays the digits out, plain or with an exponent, and `fixedSix`
writes six decimal places.
-/

namespace RegisterVM.Number

/-- A decimal value `digits · 10 ^ (scale - number of digits + 1)`: `scale` is the power of ten of
the first digit. -/
structure Decimal where
  digits : List Char
  scale : Int

/-- Whether `p / q ≤ r / s`, with positive denominators. -/
def quotientLe (p q r s : Nat) : Bool := p * s ≤ r * q

/-- The power of ten of the first digit of a positive quotient below one, counted down from `-n`. -/
def scaleBelowOne (num den : Nat) : (fuel n : Nat) → Int
  | 0, n => -n
  | fuel + 1, n => if den ≤ num * Nat.pow 10 n then -n else scaleBelowOne num den fuel (n + 1)

/-- The power of ten of the first digit of a positive quotient. -/
def scaleOf (num den : Nat) : Int :=
  if den ≤ num then ((Nat.toDigits 10 (num / den)).length - 1 : Nat)
  else scaleBelowOne num den 400 1

/-- Decimal digits without the zeros at the end. -/
def trimZeros (digits : List Char) : List Char :=
  (digits.reverse.dropWhile (· == '0')).reverse

/-- The interval of reals that round to a magnitude, as numerators over one denominator, with the
value itself: `(low, value, high, denominator)`. -/
def roundingInterval (m : Magnitude) : Nat × Nat × Nat × Nat :=
  let low := if m.narrowBelow then 4 * m.mantissa - 1 else 4 * m.mantissa - 2
  let value := 4 * m.mantissa
  let high := 4 * m.mantissa + 2
  match m.exponent with
  | .ofNat e => (low * Nat.pow 2 e, value * Nat.pow 2 e, high * Nat.pow 2 e, 4)
  | .negSucc e => (low, value, high, 4 * Nat.pow 2 (e + 1))

/-- The best value of `count` digits inside the rounding interval of `m`, if one lies there. -/
def digitsAt (m : Magnitude) (scale : Int) (count : Nat) : Option Decimal :=
  let (low, value, high, den) := roundingInterval m
  -- The grid is the multiples of 10 ^ (scale - count + 1) = up / down.
  let (up, down) : Nat × Nat :=
    match scale - count + 1 with
    | .ofNat e => (Nat.pow 10 e, 1)
    | .negSucc e => (1, Nat.pow 10 (e + 1))
  let below := value * down / (den * up)
  let inside (n : Nat) : Bool :=
    if m.mantissa % 2 = 0 then
      quotientLe low den (n * up) down && quotientLe (n * up) down high den
    else
      !quotientLe (n * up) down low den && !quotientLe high den (n * up) down
  let result (n : Nat) : Option Decimal :=
    let digits := Nat.toDigits 10 n
    some ⟨trimZeros digits, scale + digits.length - count⟩
  match inside below, inside (below + 1) with
  | true, true => result (roundQuotient (value * down) (den * up))
  | true, false => result below
  | false, true => result (below + 1)
  | false, false => none

/-- The first digit count from `count` on that names the magnitude. -/
def shortestFrom (m : Magnitude) (scale : Int) : (fuel count : Nat) → Decimal
  | 0, _ => ⟨['0'], 0⟩
  | fuel + 1, count => (digitsAt m scale count).getD (shortestFrom m scale fuel (count + 1))

/-- The fewest decimal digits that read back as the magnitude. -/
def shortest (m : Magnitude) : Decimal :=
  if m.mantissa = 0 then ⟨['0'], 0⟩
  else shortestFrom m (scaleOf m.quotient.1 m.quotient.2) 20 1

/-- An exponent as written: a sign and at least two digits. -/
def exponentText (e : Int) : String :=
  (if e < 0 then "-" else "+") ++ Text.zeroPadded 2 e.natAbs

/-- A decimal value in plain form when its first digit stands from `10 ^ -4` up to below `10 ^ 6`,
and with an exponent otherwise. -/
def Decimal.general (d : Decimal) : String :=
  if d.scale < -4 || 6 ≤ d.scale then
    let tail := d.digits.drop 1
    String.ofList (d.digits.take 1 ++ (if tail.isEmpty then [] else '.' :: tail)) ++
      "e" ++ exponentText d.scale
  else if d.scale < 0 then
    "0." ++ String.ofList (List.replicate (d.scale.natAbs - 1) '0' ++ d.digits)
  else
    let wholeDigits := d.scale.toNat + 1
    let whole := d.digits.take wholeDigits
    let fraction := d.digits.drop wholeDigits
    String.ofList (whole ++ List.replicate (wholeDigits - whole.length) '0') ++
      (if fraction.isEmpty then "" else "." ++ String.ofList fraction)

/-- The text of a number that is not finite; an infinity always carries its sign. -/
def infiniteText (negative : Bool) : String := if negative then "-Inf" else "+Inf"

/-- The shortest text of the number with bit pattern `bits`. -/
def generalText (f : BinaryFormat) (bits : Nat) : String :=
  match f.classify bits with
  | .nan => "NaN"
  | .infinite negative => infiniteText negative
  | .finite negative m => (if negative then "-" else "") ++ (shortest m).general

/-- The text of the 64-bit number `bits` with six decimal places, correctly rounded. -/
def fixedSix (bits : UInt64) : String :=
  match binary64.classify bits.toNat with
  | .nan => "NaN"
  | .infinite negative => infiniteText negative
  | .finite negative m =>
      let (num, den) := m.quotient
      let scaled := roundQuotient (num * 1000000) den
      (if negative then "-" else "") ++ Text.nat (scaled / 1000000) ++ "." ++
        Text.zeroPadded 6 (scaled % 1000000)

/-- The shortest text of a 32-bit number. -/
def text32 (bits : UInt32) : String := generalText binary32 bits.toNat

/-- The shortest text of a 64-bit number. -/
def text64 (bits : UInt64) : String := generalText binary64 bits.toNat

end RegisterVM.Number
