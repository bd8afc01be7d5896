import RegisterVM.Bytes
import RegisterVM.Text.Quoted
/-!
# Base 58

Byte sequences as text over 58 letters and digits that are hard to confuse. The bytes are read as
one number, most significant byte first, and written in base 58. Zero bytes in front do not show in
the number, so each is written as one `1`.
-/

namespace RegisterVM.Text.Base58

/-- The digits in the order of their values. -/
def alphabet : List Char := "123456789ABCDEFGHJKLMNPQRSTUVWXYZabcdefghijkmnopqrstuvwxyz".toList

/-- The digit of a value below 58. -/
def digitChar (value : Nat) : Char := alphabet.getD value '1'

/-- The value of a digit. -/
def digitValue? (c : Char) : Option Nat := alphabet.findIdx? (· == c)

/-- The digits of a number in a base above one, most significant first; none for zero. -/
def digits (base n : Nat) : List Nat :=
  if _h : 1 < base ∧ 0 < n then digits base (n / base) ++ [n % base] else []
termination_by n
decreasing_by exact Nat.div_lt_self _h.2 _h.1

/-- The number that digits spell, most significant first. -/
def ofDigits (base : Nat) (values : List Nat) : Nat := values.foldl (fun n d => n * base + d) 0

/-- The text of a byte sequence. -/
def encode (bytes : List UInt8) : String :=
  let zeros := bytes.takeWhile (· == 0)
  String.ofList (List.replicate zeros.length '1' ++ (digits 58 (bigEndian bytes)).map digitChar)

/-- Why a text stands for no bytes. -/
inductive DecodeError where
  | empty
  | highBit
  | invalidDigit (c : Char)
  deriving DecidableEq, Repr

/-- The wording of a refusal. -/
def DecodeError.message : DecodeError → String
  | .empty => "zero length string"
  | .highBit => "high-bit set on invalid digit"
  | .invalidDigit c => "invalid base58 digit (" ++ quoteChar c ++ ")"

/-- The value of a digit, or why there is none. -/
def readDigit (c : Char) : Except DecodeError Nat :=
  if 127 < c.toNat then .error .highBit
  else
    match digitValue? c with
    | some value => .ok value
    | none => .error (.invalidDigit c)

/-- The bytes that a text stands for. -/
def decode (text : List Char) : Except DecodeError (List UInt8) := do
  if text.isEmpty then throw .empty
  let values ← text.mapM readDigit
  let zeros := values.takeWhile (· == 0)
  return List.replicate zeros.length 0 ++ (digits 256 (ofDigits 58 values)).map UInt8.ofNat

end RegisterVM.Text.Base58
