import RegisterVM.Number.Binary
/-!
# The order of 64-bit floating-point numbers

Numbers are compared by their bit patterns: the two zeros are equal, and a pattern that is not a
number is not comparable with any.
-/

namespace RegisterVM.Number

/-- Whether a pattern is not a number. -/
def isNan (bits : UInt64) : Bool := 0x7FF0000000000000 < bits.toNat % 0x8000000000000000

/-- An integer that grows with the number; meaningful where the pattern is a number. -/
def orderKey (bits : UInt64) : Int :=
  let magnitude : Int := (bits.toNat % 0x8000000000000000 : Nat)
  if bits.toNat < 0x8000000000000000 then magnitude else -magnitude

/-- Whether `a ≤ b` as numbers. -/
def le (a b : UInt64) : Bool := !isNan a && !isNan b && orderKey a ≤ orderKey b

/-- The order for sorting: what is not a number comes first, then the numbers ascend. -/
def sortsBefore (a b : UInt64) : Bool := isNan a || (!isNan b && orderKey a ≤ orderKey b)

end RegisterVM.Number
