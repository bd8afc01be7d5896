/-!
# Byte sequences

Numbers inside byte sequences are written most significant byte first. `bigEndian` reads such a
number and `toBigEndian` writes one at a fixed width; `takeExact` cuts a prefix of a required
length.
-/

namespace RegisterVM

/-- The number that a byte sequence spells, most significant byte first. -/
def bigEndian (bytes : List UInt8) : Nat :=
  bytes.foldl (fun n b => n * 256 + b.toNat) 0

/-- The `width` low-order bytes of `n`, most significant byte first. -/
def toBigEndian : (width n : Nat) → List UInt8
  | 0, _ => []
  | width + 1, n => UInt8.ofNat (n >>> (8 * width)) :: toBigEndian width n

@[simp] theorem length_toBigEndian (width n : Nat) : (toBigEndian width n).length = width := by
  induction width with
  | zero => rfl
  | succ width ih => simp [toBigEndian, ih]

/-- The first `n` elements and the rest, if there are that many. -/
def takeExact {α : Type} (n : Nat) (list : List α) : Option (List α × List α) :=
  let front := list.take n
  if front.length = n then some (front, list.drop n) else none

/-- A cut loses nothing: the two parts join to the input, and the first has the length asked for. -/
theorem takeExact_eq_some {α : Type} {n : Nat} {list front back : List α}
    (cut : takeExact n list = some (front, back)) : list = front ++ back ∧ front.length = n := by
  grind [takeExact, List.take_append_drop]

/-- Groups of `size` elements from the front; an incomplete last group is dropped. -/
def chunks {α : Type} (size : Nat) : (count : Nat) → List α → List (List α)
  | 0, _ => []
  | count + 1, list => list.take size :: chunks size count (list.drop size)

/-- A byte sequence repeated `count` times. -/
def repeatBytes (count : Nat) (bytes : List UInt8) : List UInt8 :=
  (List.replicate count bytes).flatten

/-- `count` zero bytes, built by doubling so that large blocks cost few appends. -/
def zeroBytes (count : Nat) : ByteArray :=
  if _h : count = 0 then ByteArray.empty
  else
    let half := zeroBytes (count / 2)
    if count % 2 = 0 then half ++ half else (half ++ half).push 0
termination_by count

end RegisterVM
