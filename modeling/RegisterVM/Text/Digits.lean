/-!
# Numbers as text

Decimal and hexadecimal spellings with the paddings that listings, fault messages and tables use.
-/

namespace RegisterVM.Text

/-- Blanks in front of `text` up to `width` characters. -/
def padLeft (width : Nat) (text : String) : String :=
  String.ofList (List.replicate (width - text.length) ' ') ++ text

/-- Blanks after `text` up to `width` characters. -/
def padRight (width : Nat) (text : String) : String :=
  text ++ String.ofList (List.replicate (width - text.length) ' ')

/-- Lower-case hexadecimal digits of `n`, with leading zeros up to `width`. -/
def hex (width n : Nat) : String :=
  let digits := Nat.toDigits 16 n
  String.ofList (List.replicate (width - digits.length) '0' ++ digits)

/-- Upper-case hexadecimal digits of `n`, with leading zeros up to `width`. -/
def upperHex (width n : Nat) : String := (hex width n).toUpper

/-- Decimal digits of a natural number. -/
def nat (n : Nat) : String := String.ofList (Nat.toDigits 10 n)

/-- Decimal digits of an integer, with a minus sign where it is negative. -/
def int : Int → String
  | .ofNat n => nat n
  | .negSucc n => "-" ++ nat (n + 1)

/-- Decimal digits of an integer, always with a sign. -/
def signed (n : Int) : String := if n < 0 then int n else "+" ++ int n

/-- Decimal digits of `n` with leading zeros up to `width`. -/
def zeroPadded (width n : Nat) : String :=
  let digits := Nat.toDigits 10 n
  String.ofList (List.replicate (width - digits.length) '0' ++ digits)

/-- The two hexadecimal digits of each byte, in order. -/
def hexBytes (bytes : List UInt8) : String :=
  String.ofList
    (bytes.flatMap fun b => [Nat.digitChar (b.toNat / 16), Nat.digitChar (b.toNat % 16)])

/-- The value of a hexadecimal digit. -/
def hexValue? (c : Char) : Option Nat :=
  if c.isDigit then some (c.toNat - '0'.toNat)
  else if 'a' ≤ c && c ≤ 'f' then some (c.toNat - 'a'.toNat + 10)
  else if 'A' ≤ c && c ≤ 'F' then some (c.toNat - 'A'.toNat + 10)
  else none

/-- The number that hexadecimal digits spell; other characters count as zero. -/
def ofHex (digits : List Char) : Nat := digits.foldl (fun n c => n * 16 + (hexValue? c).getD 0) 0

/-- Takes the bytes that pairs of hexadecimal digits spell onto `done`. -/
def pushHexBytes (done : Array UInt8) : List Char → Array UInt8
  | a :: b :: rest => pushHexBytes (done.push (UInt8.ofNat (ofHex [a, b]))) rest
  | _ => done

/-- The bytes that pairs of hexadecimal digits spell. -/
def ofHexBytes (text : String) : List UInt8 := (pushHexBytes #[] text.toList).toList

/-- An address as it stands in messages: `0x` and eight digits. -/
def address (a : UInt32) : String := "0x" ++ hex 8 a.toNat

/-- A byte as it stands in messages: `0x` and two digits. -/
def byte (b : UInt8) : String := "0x" ++ hex 2 b.toNat

end RegisterVM.Text
