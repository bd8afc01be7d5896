import RegisterVM.Number.Binary
/-!
# Between integers and 32-bit floating point

`ofInt` rounds an integer to the nearest 32-bit number, ties to even; `toInt` drops the fraction and
saturates at the ends of the integer range.
-/

namespace RegisterVM.Number

/-- The bit pattern of a positive integer below `2 ^ 32`, rounded to 24 significant bits. -/
def bitsOfNat (n : Nat) : Nat :=
  if n = 0 then 0
  else
    let length := n.log2 + 1
    let excess := length - 24
    let short := 24 - length
    let mantissa := if 24 < length then roundQuotient n (Nat.pow 2 excess) else n * Nat.pow 2 short
    -- A carry out of rounding doubles the mantissa, which the exponent field absorbs.
    (127 + 23 + excess - short - 1) * 0x800000 + mantissa

/-- The 32-bit number nearest to an integer. -/
def ofInt (v : Int32) : UInt32 :=
  let n := v.toInt
  UInt32.ofNat (if n < 0 then 0x80000000 + bitsOfNat n.natAbs else bitsOfNat n.natAbs)

/-- The integer nearest to zero from a 32-bit number, saturating; not-a-number gives zero. -/
def toInt (bits : UInt32) : Int32 :=
  let saturate (n : Int) : Int32 :=
    if n ≤ -2147483648 then Int32.ofInt (-2147483648)
    else if 2147483647 ≤ n then Int32.ofInt 2147483647
    else Int32.ofInt n
  match binary32.classify bits.toNat with
  | .nan => 0
  | .infinite negative => saturate (if negative then -2147483648 else 2147483647)
  | .finite negative m => saturate (if negative then -(m.whole : Int) else m.whole)

end RegisterVM.Number
