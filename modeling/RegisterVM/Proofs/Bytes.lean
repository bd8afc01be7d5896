import Mathlib
import RegisterVM.Bytes

/-!
# Byte sequences: laws

The two directions of big-endian numbers undo each other at a fixed width, and cutting a prefix of a
required length is decided by the length alone. Every reader and writer of the library that moves
numbers through bytes rests on these.
-/

namespace RegisterVM

/-! ### Big-endian numbers -/

/-- The bytes already folded in are worth their place value. Reading a number is a fold with an
accumulator, so every induction on the bytes needs it in this form. -/
theorem foldl_bigEndian (bytes : List UInt8) (acc : Nat) :
    bytes.foldl (fun n b => n * 256 + b.toNat) acc =
        acc * 256 ^ bytes.length + bigEndian bytes := by
  induction bytes generalizing acc with
  | nil => simp [bigEndian]
  | cons b rest ih =>
      have hrest : bigEndian (b :: rest) = b.toNat * 256 ^ rest.length + bigEndian rest := by
        rw [bigEndian, List.foldl_cons, Nat.zero_mul, Nat.zero_add, ih]
      rw [List.foldl_cons, ih, hrest, List.length_cons, Nat.pow_succ, Nat.add_mul, Nat.mul_assoc,
        Nat.mul_comm 256, Nat.add_assoc]

@[simp] theorem bigEndian_nil : bigEndian [] = 0 := rfl

theorem bigEndian_cons (b : UInt8) (rest : List UInt8) :
    bigEndian (b :: rest) = b.toNat * 256 ^ rest.length + bigEndian rest := by
  rw [bigEndian, List.foldl_cons, foldl_bigEndian, Nat.zero_mul, Nat.zero_add]

/-- A number of `n` bytes is below `256 ^ n`. This is what lets a written field be bounded by its
width alone. -/
theorem bigEndian_lt (bytes : List UInt8) : bigEndian bytes < 256 ^ bytes.length := by
  induction bytes with
  | nil => simp
  | cons b rest ih =>
      have hb : b.toNat + 1 ≤ 256 := b.toNat_lt
      have hmul := Nat.mul_le_mul_right (256 ^ rest.length) hb
      rw [Nat.add_mul, Nat.one_mul] at hmul
      rw [bigEndian_cons, List.length_cons, Nat.pow_succ, Nat.mul_comm _ 256]
      omega

/-- Writing looks at the low-order bytes of a number only, so whatever exceeds the width is lost
without a trace. -/
theorem toBigEndian_add_mul (width n k : Nat) :
    toBigEndian width (n + k * 256 ^ width) = toBigEndian width n := by
  induction width generalizing k with
  | zero => rfl
  | succ width ih =>
      have hsplit : n + k * 256 ^ (width + 1) = n + (k * 256) * 256 ^ width := by
        rw [Nat.pow_succ, Nat.mul_comm (256 ^ width), Nat.mul_assoc]
      have hpow : 2 ^ (8 * width) = 256 ^ width := by rw [Nat.pow_mul]
      have hpos : 0 < 256 ^ width := Nat.pow_pos (by decide)
      rw [toBigEndian, toBigEndian, hsplit, ih, Nat.shiftRight_eq_div_pow,
        Nat.shiftRight_eq_div_pow, hpow, Nat.add_mul_div_right _ _ hpos]
      congr 1
      apply UInt8.toNat_inj.mp
      simp only [UInt8.toNat_ofNat']
      omega

/-- Writing undoes reading at the width of what was read. By induction from the first byte: it is
the quotient by the place value of the rest, and the rest does not see it
(`toBigEndian_add_mul`). -/
@[simp] theorem toBigEndian_bigEndian (bytes : List UInt8) :
    toBigEndian bytes.length (bigEndian bytes) = bytes := by
  induction bytes with
  | nil => rfl
  | cons b rest ih =>
      have hpow : 2 ^ (8 * rest.length) = 256 ^ rest.length := by rw [Nat.pow_mul]
      have hpos : 0 < 256 ^ rest.length := Nat.pow_pos (by decide)
      have hdiv : (b.toNat * 256 ^ rest.length + bigEndian rest) / 256 ^ rest.length = b.toNat := by
        rw [Nat.add_comm, Nat.add_mul_div_right _ _ hpos, Nat.div_eq_of_lt (bigEndian_lt rest),
          Nat.zero_add]
      rw [List.length_cons, toBigEndian, bigEndian_cons, Nat.shiftRight_eq_div_pow, hpow, hdiv,
        UInt8.ofNat_toNat, Nat.add_comm, toBigEndian_add_mul, ih]

/-- Reading what was written gives the part of the number that fits the width; a number below
`256 ^ width` therefore comes back as it was. -/
theorem bigEndian_toBigEndian (width n : Nat) :
    bigEndian (toBigEndian width n) = n % 256 ^ width := by
  induction width with
  | zero => rw [toBigEndian, bigEndian_nil, Nat.pow_zero, Nat.mod_one]
  | succ width ih =>
      have hpow : 2 ^ (8 * width) = 256 ^ width := by rw [Nat.pow_mul]
      rw [toBigEndian, bigEndian_cons, length_toBigEndian, ih, Nat.shiftRight_eq_div_pow, hpow,
        UInt8.toNat_ofNat', Nat.mod_pow_succ (x := n), Nat.add_comm, Nat.mul_comm]

/-! ### Cutting prefixes -/

/-- A prefix is refused for want of bytes and for nothing else. -/
theorem takeExact_eq_none_iff {α : Type} {n : Nat} {list : List α} :
    takeExact n list = none ↔ list.length < n := by
  simp only [takeExact, List.length_take]
  split <;> simp <;> omega

/-- What was cut once is cut the same way whatever follows. A reader built of such cuts never looks
ahead. -/
theorem takeExact_append {α : Type} {n : Nat} {front back : List α} (h : front.length = n) :
    takeExact n (front ++ back) = some (front, back) := by
  subst h
  simp [takeExact]

/-- Groups of one size, taken from a list of just as many, join to that list: nothing is dropped at
the seams and nothing is left over. -/
theorem flatten_chunks {α : Type} {size count : Nat} {list : List α}
    (h : list.length = size * count) : (chunks size count list).flatten = list := by
  induction count generalizing list with
  | zero =>
      rw [Nat.mul_zero] at h
      rw [List.length_eq_zero_iff.mp h]
      rfl
  | succ count ih =>
      have hdrop : (list.drop size).length = size * count := by
        rw [List.length_drop, h, Nat.mul_succ, Nat.add_sub_cancel]
      rw [chunks, List.flatten_cons, ih hdrop, List.take_append_drop]

/-- Groups written one after another are found again, since each is as long as the reader takes it
to be. -/
theorem chunks_flatMap {α β : Type} {size : Nat} {f : α → List β} (hf : ∀ a, (f a).length = size)
    (list : List α) : chunks size list.length (list.flatMap f) = list.map f := by
  induction list with
  | nil => rfl
  | cons a rest ih =>
      rw [List.length_cons, chunks, List.flatMap_cons, List.take_left' (hf a),
        List.drop_left' (hf a), ih, List.map_cons]

@[simp] theorem length_chunks {α : Type} (size count : Nat) (list : List α) :
    (chunks size count list).length = count := by
  induction count generalizing list with
  | zero => rfl
  | succ count ih => rw [chunks, List.length_cons, ih]

/-- Every group has the size asked for when there is enough to take. -/
theorem length_of_mem_chunks {α : Type} {size count : Nat} {list group : List α}
    (h : list.length = size * count) (hgroup : group ∈ chunks size count list) :
    group.length = size := by
  induction count generalizing list with
  | zero => simp [chunks] at hgroup
  | succ count ih =>
      rw [chunks, List.mem_cons] at hgroup
      rw [Nat.mul_succ] at h
      rcases hgroup with rfl | hrest
      · rw [List.length_take, h]
        omega
      · exact ih (by rw [List.length_drop, h, Nat.add_sub_cancel]) hrest

/-! ### Computations that fail -/

theorem ok_bind {ε α β : Type} (a : α) (f : α → Except ε β) : (Except.ok a >>= f) = f a := rfl

/-- A computation of two steps that succeeds has succeeded in both. Effects are taken apart with it
step by step, so that no proof unfolds the monad. -/
theorem bind_eq_ok {ε α β : Type} {x : Except ε α} {f : α → Except ε β} {b : β}
    (h : x >>= f = .ok b) : ∃ a, x = .ok a ∧ f a = .ok b := by
  cases x with
  | error e => cases h
  | ok a => exact ⟨a, rfl, h⟩

end RegisterVM
