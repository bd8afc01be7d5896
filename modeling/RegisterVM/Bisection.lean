/-!
# Bisection

Finding where a test starts to hold, in as many looks as the range has binary digits.
-/

namespace RegisterVM

/-- The first index from `low` up to `high` at which a test holds, by bisection; `high` where it
holds at none. The test has to go on holding once it holds. -/
def firstWhere (test : Nat → Bool) (low high : Nat) : Nat :=
  if _h : low < high then
    let middle := (low + high) / 2
    if test middle then firstWhere test low middle else firstWhere test (middle + 1) high
  else low
termination_by high - low

end RegisterVM
