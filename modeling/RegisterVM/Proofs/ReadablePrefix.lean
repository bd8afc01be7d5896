import RegisterVM.Proofs.ByteAccess
import RegisterVM.Proofs.CheckedFetch

/-!
# The readable prefix of an array

Filling an array from memory fills as much of it as one read could. Which reads succeed is settled
by the region that the first address goes to: some bytes can be read exactly if no more are asked
for than that region has from there on (`Memory.read_isOk_iff_le`), so a read that is refused stays
refused when it is made longer, and the bisection over lengths is sound. The reads it makes on the
way write to the array as well; the last read, which is of the length found, puts in order what they
left.
-/

namespace RegisterVM

namespace Memory

variable {m : Memory} {pc : UInt32} {count : Nat}

/-- A number of bytes that is not zero can be read exactly if that many are readable. This makes the
set of lengths that can be read closed downwards, which is what bisection needs. -/
theorem read_isOk_iff_le (hcount : 0 < count) :
    (∃ bytes, m.read pc count = .ok bytes) ↔ count ≤ (m.readableFrom pc).length :=
  read_isOk_iff.trans (check_read_iff hcount)

/-- One byte cannot be read exactly where nothing is readable. Reading no bytes is a different
matter: that may succeed at the end of a region. -/
theorem read_one_isError_iff : (∃ e, m.read pc 1 = .error e) ↔ m.readableFrom pc = [] := by
  constructor
  · rintro ⟨e, he⟩
    refine List.eq_nil_of_length_eq_zero (Nat.eq_zero_of_not_pos fun hpos => ?_)
    obtain ⟨bytes, hbytes⟩ := (read_isOk_iff_le Nat.one_pos).mpr hpos
    rw [hbytes] at he
    cases he
  · intro hcode
    have hlt : (m.readableFrom pc).length < 1 := by rw [hcode]; exact Nat.one_pos
    obtain ⟨e, -, he⟩ := read_eq_error Nat.one_pos hlt
    exact ⟨e, he⟩

/-- The longest read that an array of some length has room for. It is cut short by the array or by
the region, whichever ends first. -/
theorem isGreatest_min_readable (hcode : m.readableFrom pc ≠ []) (hcount : 0 < count) :
    IsGreatest {n | n ≤ count ∧ ∃ bytes, m.read pc n = .ok bytes}
      (min count (m.readableFrom pc).length) := by
  have hpos : 0 < (m.readableFrom pc).length := List.length_pos_iff.mpr hcode
  refine ⟨⟨Nat.min_le_left .., (read_isOk_iff_le (by omega)).mpr (Nat.min_le_right ..)⟩, ?_⟩
  rintro n ⟨hle, hread⟩
  rcases Nat.eq_zero_or_pos n with rfl | hn
  · exact Nat.zero_le _
  · exact Nat.le_min.mpr ⟨hle, (read_isOk_iff_le hn).mp hread⟩

end Memory

/-- `after` is the array `buf` with its first `n` bytes read from `pc` on, and no longer read that
the array has room for would have succeeded. What stands behind the first `n` bytes is left open:
reads on the way may have written there. -/
structure FilledTo (m : Memory) (pc : UInt32) (buf after : List UInt8) (n : Nat) : Prop where
  positive : 0 < n
  largest : IsGreatest {k | k ≤ buf.length ∧ ∃ bytes, m.read pc k = .ok bytes} n
  read : m.read pc n = .ok (after.take n)
  bytes : ∀ i < n, after[i]? = m.byte? (pc.toNat + i)
  length : after.length = buf.length

/-- An array whose front is what is readable is filled as far as can be. Here the list that the
bisection leaves is turned into what can be said of it by reading. -/
theorem filledTo_of_take {m : Memory} (hm : m.Ordered) {pc : UInt32} {buf after : List UInt8}
    (hbuf : 0 < buf.length) (hcode : m.readableFrom pc ≠ []) (hlength : after.length = buf.length)
    (htake : after.take (min buf.length (m.readableFrom pc).length) =
      (m.readableFrom pc).take buf.length) :
    FilledTo m pc buf after (min buf.length (m.readableFrom pc).length) := by
  have hpos : 0 < (m.readableFrom pc).length := List.length_pos_iff.mpr hcode
  have hread : m.read pc (min buf.length (m.readableFrom pc).length) =
      .ok (after.take (min buf.length (m.readableFrom pc).length)) := by
    rw [Memory.read_eq_ok (by omega) (Nat.min_le_right ..), htake, ← List.take_eq_take_min]
  refine ⟨by omega, Memory.isGreatest_min_readable hcode hbuf, hread, fun i hi => ?_, hlength⟩
  rw [← (Memory.getElem?_read hm hread).2 i hi, List.getElem?_take_of_lt hi]

/-- Filling an array finds the largest readable prefix, in every memory made of regions and nested
maps, with any contents. It fails exactly where not even one byte can be read, with the error of
reading them all. Otherwise it fills the array as far as any read could, and what stands there are
the bytes of memory, however the reads on the way ended. Reading ahead for a window ends in the same
way.

The proof rests on `read_isOk_iff_le`: lengths that can be read come before lengths that cannot, so
the bisection ends at the boundary, and the last read, which is of the length found, puts the whole
front in place. -/
theorem fillPrefix_fills_largest {built m : Memory} (hbuilt : built.Composed)
    (hstate : m.blank = built.blank) (pc : UInt32) {buf : List UInt8} (hbuf : buf ≠ []) :
    ((∃ e, fillPrefix m pc buf = some (.error e)) ↔ ∃ e, m.read pc 1 = .error e) ∧
    (∀ e, m.read pc 1 = .error e → ∃ e', m.read pc buf.length = .error e' ∧
      fillPrefix m pc buf = some (.error e') ∧ readablePart m pc buf.length = .error e') ∧
    ∀ bytes, m.read pc 1 = .ok bytes → ∃ after n, fillPrefix m pc buf = some (.ok (after, n)) ∧
      FilledTo m pc buf after n ∧ readablePart m pc buf.length = .ok (after.take n) := by
  have hm : m.Ordered := Memory.ordered_of_blank hstate.symm hbuilt.built.ordered
  have hpos : 0 < buf.length := List.length_pos_iff.mpr hbuf
  have hrefused (hcode : m.readableFrom pc = []) : ∃ e', m.read pc buf.length = .error e' ∧
      fillPrefix m pc buf = some (.error e') ∧ readablePart m pc buf.length = .error e' := by
    obtain ⟨e', hpart, hfill⟩ := fillPrefix_of_unreadable hpos hcode
    obtain ⟨e, hcheck, hwhole⟩ := readablePart_eq_error hpos hcode
    obtain rfl : e = e' := Except.error.inj (hwhole.symm.trans hpart)
    refine ⟨e, ?_, hfill, hpart⟩
    rw [Memory.read_eq hpos, hcheck]
    rfl
  have hfilled (hcode : m.readableFrom pc ≠ []) : ∃ after n,
      fillPrefix m pc buf = some (.ok (after, n)) ∧ FilledTo m pc buf after n ∧
        readablePart m pc buf.length = .ok (after.take n) := by
    obtain ⟨after, hfill, hlength, htake⟩ := fillPrefix_of_readable hpos hcode
    refine ⟨after, _, hfill, filledTo_of_take hm hpos hcode hlength htake, ?_⟩
    rw [readablePart_eq_ok hpos hcode, htake]
  refine ⟨?_, fun e he => hrefused (Memory.read_one_isError_iff.mp ⟨e, he⟩), fun bytes hbytes => ?_⟩
  · rw [Memory.read_one_isError_iff]
    constructor
    · rintro ⟨e, he⟩
      by_contra hcode
      obtain ⟨after, n, hfill, -, -⟩ := hfilled hcode
      rw [hfill] at he
      cases he
    · intro hcode
      obtain ⟨e', -, hfill, -⟩ := hrefused hcode
      exact ⟨e', hfill⟩
  · refine hfilled fun hcode => ?_
    obtain ⟨e, he⟩ := Memory.read_one_isError_iff.mpr hcode
    rw [hbytes] at he
    cases he

/-- From the second byte of a region of four, an array of eight is filled with the three bytes that
are left, although the next region follows without a gap. -/
theorem fillPrefix_fills_largest_summit :
    (Memory.map Memory.summit).Composed ∧
      ∃ after, fillPrefix (.map Memory.summit) 0xFFFFFFF9 (List.replicate 8 0) =
        some (.ok (after, 3)) ∧
        after.take 3 = [2, 3, 4] := by
  have hmap : (Memory.map Memory.summit).Composed := by
    refine .map fun part hpart => ?_
    simp only [List.mem_cons, List.not_mem_nil, or_false] at hpart
    rcases hpart with rfl | rfl <;> exact .region _
  have hnext : (Memory.map Memory.summit).read 0xFFFFFFF9 3 = .ok [2, 3, 4] := by decide
  have hroom : List.replicate 8 (0 : UInt8) ≠ [] := by decide
  obtain ⟨-, -, hread⟩ := fillPrefix_fills_largest hmap rfl 0xFFFFFFF9 hroom
  obtain ⟨after, n, hfill, hto, -⟩ := hread [2] (by decide)
  have hthree : n = 3 := by
    have hle := hto.largest.2 ⟨by decide, _, hnext⟩
    obtain ⟨bytes, hbytes⟩ := hto.largest.1.2
    refine Nat.le_antisymm ?_ hle
    refine ((Memory.read_isOk_iff_le hto.positive).mp ⟨bytes, hbytes⟩).trans ?_
    decide
  subst hthree
  exact ⟨hmap, after, hfill, (Except.ok.inj (hnext.symm.trans hto.read)).symm⟩

end RegisterVM
