/-!
# Integer literals

Integers as they are typed: a sign if there is one, a base given by the front (`0x`, `0o`, `0b`, a
leading zero for base eight, otherwise ten), and digits. An underscore may stand between two digits,
or between the front and a digit. Whether a number is too large is decided at the first digit that
makes it so.
-/

namespace RegisterVM.Number

/-- Why a text is no integer of the width asked for. -/
inductive LiteralError where
  | malformed
  | outOfRange
  deriving DecidableEq, Repr

/-- The wording of a refusal. -/
def LiteralError.message : LiteralError → String
  | .malformed => "invalid syntax"
  | .outOfRange => "value out of range"

namespace Literal

/-- The value of a digit, letters going on after nine. -/
def digit? (c : Char) : Option Nat :=
  if c.isDigit then some (c.toNat - '0'.toNat)
  else if 'a' ≤ c && c ≤ 'z' then some (c.toNat - 'a'.toNat + 10)
  else if 'A' ≤ c && c ≤ 'Z' then some (c.toNat - 'A'.toNat + 10)
  else none

/-- The base of a number and its digits. -/
def base : List Char → Nat × List Char
  | '0' :: letter :: c :: rest =>
      match letter.toLower with
      | 'b' => (2, c :: rest)
      | 'o' => (8, c :: rest)
      | 'x' => (16, c :: rest)
      | _ => (8, letter :: c :: rest)
  | '0' :: rest => (8, rest)
  | chars => (10, chars)

/-- Takes digits onto a number that must stay below `bound`. -/
def digits (base bound : Nat) : Nat → List Char → Except LiteralError Nat
  | n, [] => .ok n
  | n, '_' :: rest => digits base bound n rest
  | n, c :: rest =>
      match digit? c with
      | none => .error .malformed
      | some d =>
          if base ≤ d then .error .malformed
          else if bound ≤ n * base + d then .error .outOfRange
          else digits base bound (n * base + d) rest

/-- Whether underscores only stand after a digit or a front, and before a digit. -/
def underscoresOk : (afterDigit : Bool) → List Char → Bool
  | _, [] => true
  | afterDigit, '_' :: c :: rest => afterDigit && c != '_' && underscoresOk true rest
  | _, ['_'] => false
  | _, _ :: rest => underscoresOk true rest

/-- Whether the underscores of a whole number stand in the right places. -/
def separated : List Char → Bool
  | '0' :: letter :: rest =>
      if ['b', 'o', 'x'].contains letter.toLower then underscoresOk true rest
      else underscoresOk true (letter :: rest)
  | chars => underscoresOk false chars

/-- The natural number of `bits` bits that a text stands for. -/
def natural (bits : Nat) (chars : List Char) : Except LiteralError Nat := do
  if chars.isEmpty then throw .malformed
  let (radix, rest) := base chars
  let n ← digits radix (Nat.pow 2 bits) 0 rest
  if separated chars then return n else throw .malformed

/-- The integer of `bits` bits with a sign that a text stands for. -/
def integer (bits : Nat) (chars : List Char) : Except LiteralError Int := do
  let (negative, rest) :=
    match chars with
    | '-' :: rest => (true, rest)
    | '+' :: rest => (false, rest)
    | rest => (false, rest)
  let n ← natural bits rest
  let half := Nat.pow 2 (bits - 1)
  if negative then
    if half < n then throw .outOfRange else return -n
  else if half ≤ n then throw .outOfRange
  else return n

end Literal

end RegisterVM.Number
