/-!
# Binary floating point by its bits

A floating-point number is given by its bit pattern and the widths of its fields. `classify` says
what the pattern means: not a number, an infinity, or a sign with a magnitude
`mantissa · 2 ^ exponent`. All later arithmetic on these values is exact arithmetic on natural
numbers.
-/

namespace RegisterVM.Number

/-- The field widths of a binary interchange format. -/
structure BinaryFormat where
  /-- Bits of the stored fraction. -/
  fractionBits : Nat
  /-- Bits of the biased exponent. -/
  exponentBits : Nat

/-- The 32-bit format. -/
def binary32 : BinaryFormat := ⟨23, 8⟩

/-- The 64-bit format. -/
def binary64 : BinaryFormat := ⟨52, 11⟩

/-- A positive or zero magnitude `mantissa · 2 ^ exponent`. -/
structure Magnitude where
  mantissa : Nat
  exponent : Int
  /-- Whether the next smaller number is only half as far away as the next larger one. -/
  narrowBelow : Bool

/-- What a bit pattern means. -/
inductive Binary where
  /-- Not a number. -/
  | nan
  /-- An infinity of the given sign. -/
  | infinite (negative : Bool)
  /-- A finite number. -/
  | finite (negative : Bool) (magnitude : Magnitude)

namespace BinaryFormat

/-- The exponent of the unit in the last place of the smallest numbers. -/
def leastExponent (f : BinaryFormat) : Int :=
  2 - (Nat.pow 2 (f.exponentBits - 1) : Nat) - f.fractionBits

/-- What the bit pattern `bits` means in format `f`. -/
def classify (f : BinaryFormat) (bits : Nat) : Binary :=
  let fraction := bits % Nat.pow 2 f.fractionBits
  let biased := bits / Nat.pow 2 f.fractionBits % Nat.pow 2 f.exponentBits
  let negative := bits / Nat.pow 2 (f.fractionBits + f.exponentBits) % 2 = 1
  if biased = Nat.pow 2 f.exponentBits - 1 then
    if fraction = 0 then .infinite negative else .nan
  else if biased = 0 then
    .finite negative ⟨fraction, f.leastExponent, false⟩
  else
    .finite negative
      ⟨Nat.pow 2 f.fractionBits + fraction, f.leastExponent + (biased - 1 : Nat),
        fraction = 0 && 1 < biased⟩

end BinaryFormat

/-- The magnitude as a quotient of natural numbers. -/
def Magnitude.quotient (m : Magnitude) : Nat × Nat :=
  match m.exponent with
  | .ofNat e => (m.mantissa * Nat.pow 2 e, 1)
  | .negSucc e => (m.mantissa, Nat.pow 2 (e + 1))

/-- The whole part of a magnitude. -/
def Magnitude.whole (m : Magnitude) : Nat := m.quotient.1 / m.quotient.2

/-- The quotient `num / den` rounded to the nearest natural number, a tie to the even neighbour. -/
def roundQuotient (num den : Nat) : Nat :=
  let below := num / den
  let twice := 2 * (num % den)
  if twice < den then below
  else if den < twice then below + 1
  else if below % 2 = 0 then below else below + 1

end RegisterVM.Number
