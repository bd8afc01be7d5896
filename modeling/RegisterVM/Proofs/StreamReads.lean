import RegisterVM.Memory.Stream
import RegisterVM.Proofs.ByteAccess

/-!
# Reading several bytes from a stream

A stream reads several bytes at once where one region holds them, and otherwise one by one. The two
ways fail on different occasions: a map refuses a range that goes on in the next region, while
single reads pass from one region into the next. That must not show. `Singly` says what single reads
give without saying how they are made; it leaves one outcome, and both ways have it.
-/

namespace RegisterVM.Stream

/-- What up to `count` single reads give, stopping at the first that fails: the bytes are those of
successive reads, and there are `count` of them unless the read after the last one fails. -/
structure Singly (m : Memory) (count : Nat) (s : Stream) (bytes : List UInt8)
    (error : Option StreamError) (after : Stream) : Prop where
  each : ∀ i b, bytes[i]? = some b → readByte m (s.advance i) = .ok (b, s.advance (i + 1))
  ends : after = s.advance bytes.length
  all : error = none → bytes.length = count
  stopped : ∀ e, error = some e → bytes.length < count ∧ readByte m after = .error e

/-! ### Positions -/

@[simp] theorem advance_zero (s : Stream) : s.advance 0 = s := by
  simp [advance]

@[simp] theorem remaining_advance (s : Stream) (n : Nat) :
    (s.advance n).remaining = s.remaining - n := rfl

/-- Moving on twice is moving on once by both. Addresses wrap around; the limit does not. -/
theorem advance_advance (s : Stream) (i j : Nat) : (s.advance i).advance j = s.advance (i + j) := by
  simp only [advance, UInt32.ofNat_add, UInt32.add_assoc, Nat.cast_add, Stream.mk.injEq, true_and]
  omega

theorem readByte_of_ok {m : Memory} {s : Stream} {b : UInt8} (hleft : 0 < s.remaining)
    (h : m.readByte s.address = .ok b) : readByte m s = .ok (b, s.advance 1) := by
  rw [readByte, if_neg (Int.not_le.mpr hleft), h]

/-! ### Single reads -/

section

variable {m : Memory} {count : Nat} {s : Stream}

/-- One more single read in front. -/
theorem Singly.cons {b : UInt8} {bytes : List UInt8} {error : Option StreamError} {after : Stream}
    (hbyte : readByte m s = .ok (b, s.advance 1))
    (h : Singly m count (s.advance 1) bytes error after) :
    Singly m (count + 1) s (b :: bytes) error after := by
  refine ⟨?_, ?_, ?_, ?_⟩
  · intro i c hc
    cases i with
    | zero =>
        rw [List.getElem?_cons_zero] at hc
        cases hc
        rwa [advance_zero]
    | succ i =>
        have hnext := h.each i c hc
        rwa [advance_advance, advance_advance, Nat.add_comm 1 i, Nat.add_comm 1 (i + 1)] at hnext
  · rw [h.ends, advance_advance, List.length_cons, Nat.add_comm]
  · intro hnone
    rw [List.length_cons, h.all hnone]
  · intro e he
    obtain ⟨hlength, hfail⟩ := h.stopped e he
    exact ⟨Nat.succ_lt_succ hlength, hfail⟩

/-- Reading one by one gives what single reads give. -/
theorem singly_readEach (m : Memory) (count : Nat) (s : Stream) :
    Singly m count s (readEach m count s).1 (readEach m count s).2.1 (readEach m count s).2.2 := by
  induction count generalizing s with
  | zero => exact ⟨by simp [readEach], by simp [readEach], fun _ => rfl, by simp [readEach]⟩
  | succ count ih =>
      rw [readEach]
      cases hread : readByte m s with
      | error e => exact ⟨by simp, by simp, by simp, by simp [hread]⟩
      | ok next =>
          obtain ⟨b, after⟩ := next
          obtain rfl : after = s.advance 1 := by
            unfold readByte at hread
            split at hread
            · cases hread
            · split at hread <;> cases hread
              rfl
          exact (ih (s.advance 1)).cons hread

/-- Of two outcomes of single reads neither has fewer bytes. -/
theorem Singly.length_le {bytes bytes' : List UInt8} {error error' : Option StreamError}
    {after after' : Stream} (h : Singly m count s bytes error after)
    (h' : Singly m count s bytes' error' after') : bytes'.length ≤ bytes.length := by
  by_contra hlt
  have hmore : bytes.length < bytes'.length := Nat.lt_of_not_le hlt
  -- the read after the last of the fewer bytes succeeds in the other outcome
  have hgoes := h'.each bytes.length _ (List.getElem?_eq_getElem hmore)
  cases error with
  | none =>
      have hall := h.all rfl
      cases error' with
      | none => have hall' := h'.all rfl; omega
      | some e => have hstopped := (h'.stopped e rfl).1; omega
  | some e =>
      have hfail := (h.stopped e rfl).2
      rw [h.ends, hgoes] at hfail
      cases hfail

/-- Single reads have one outcome. So it is enough to show of a way to read that its outcome is one
of single reads. -/
theorem Singly.unique {bytes bytes' : List UInt8} {error error' : Option StreamError}
    {after after' : Stream} (h : Singly m count s bytes error after)
    (h' : Singly m count s bytes' error' after') :
    (bytes, error, after) = (bytes', error', after') := by
  have hlength : bytes.length = bytes'.length := Nat.le_antisymm (h'.length_le h) (h.length_le h')
  obtain rfl : bytes = bytes' := by
    apply List.ext_getElem hlength
    intro i hi hi'
    have hbyte := h.each i _ (List.getElem?_eq_getElem hi)
    rw [h'.each i _ (List.getElem?_eq_getElem hi')] at hbyte
    exact (congrArg Prod.fst (Except.ok.inj hbyte)).symm
  obtain rfl : after = after' := h.ends.trans h'.ends.symm
  have herror : error = error' := by
    cases error with
    | none =>
        cases error' with
        | none => rfl
        | some e => exact absurd (h.all rfl) (Nat.ne_of_lt (h'.stopped e rfl).1)
    | some e =>
        cases error' with
        | none => exact absurd (h'.all rfl) (Nat.ne_of_lt (h.stopped e rfl).1)
        | some e' =>
            have hfail := (h.stopped e rfl).2
            rw [(h'.stopped e' rfl).2] at hfail
            cases hfail
            rfl
  rw [herror]

end

/-! ### Reads of a range -/

/-- A range that is read as a whole is what single reads of it give. That the memory ends within the
address space keeps the addresses from wrapping around. -/
theorem singly_of_read {m : Memory} (hm : m.Ordered) (hend : m.EndsInSpace) {s : Stream}
    {count : Nat} {bytes : List UInt8} (h : m.read s.address count = .ok bytes)
    (hlimit : count ≤ s.remaining) :
    Singly m count s bytes none (s.advance count) := by
  obtain ⟨rfl, -⟩ := Memory.getElem?_read hm h
  refine ⟨?_, rfl, fun _ => rfl, by simp⟩
  intro i b hb
  obtain ⟨hi, rfl⟩ := List.getElem?_eq_some_iff.mp hb
  have hleft : 0 < (s.advance i).remaining := by
    unfold advance
    dsimp only
    omega
  have hbyte : m.readByte (s.advance i).address = .ok bytes[i] :=
    Memory.readByte_of_read hm hend h hi
  rw [readByte_of_ok hleft hbyte, advance_advance]

/-- Reading several bytes from a stream is reading them one by one. In a memory put together from
regions that end within the address space, with any contents, a read of up to `count` bytes from a
stream that has bytes left gives the bytes, the error and the stream that as many single reads give
as the limit allows, stopping at the first that fails. It never gives more bytes than the limit
allows.

Both ways to read have an outcome of single reads (`singly_of_read`, `singly_readEach`), and there
is only one (`Singly.unique`). -/
theorem read_is_singly {composed m : Memory} (hmap : composed.Composed)
    (hstate : m.blank = composed.blank) (hend : m.EndsInSpace) {s : Stream}
    (hleft : 0 < s.remaining) (count : Nat) :
    read m count s = readEach m (min count s.remaining.toNat) s ∧
      ∃ bytes error after, read m count s = (bytes, error, after) ∧
        Singly m (min count s.remaining.toNat) s bytes error after ∧
        bytes.length ≤ s.remaining ∧ bytes.length ≤ count := by
  have hm : m.Ordered := Memory.ordered_of_blank hstate.symm hmap.built.ordered
  have heach := singly_readEach m (min count s.remaining.toNat) s
  have hread : read m count s = readEach m (min count s.remaining.toNat) s := by
    rw [read, if_neg (Int.not_le.mpr hleft)]
    dsimp only
    cases hrange : m.read s.address (min count s.remaining.toNat) with
    | error e => rfl
    | ok bytes => exact (singly_of_read hm hend hrange (by omega)).unique heach
  refine ⟨hread, _, _, _, hread, heach, ?_⟩
  have hlength : (readEach m (min count s.remaining.toNat) s).1.length ≤
      min count s.remaining.toNat := by
    cases herror : (readEach m (min count s.remaining.toNat) s).2.1 with
    | none => exact Nat.le_of_eq (heach.all herror)
    | some e => exact Nat.le_of_lt (heach.stopped e herror).1
  omega

/-- Two readable regions without a gap between them, and one behind them that must not be read. -/
def adjoining : Memory :=
  .map (Memory.attempts []
    [.region (.ofBytes "first" 0x10 [1, 2] ⟨true, false⟩),
      .region (.ofBytes "second" 0x12 [3, 4] ⟨true, true⟩),
      .region (.ofBytes "closed" 0x14 [5, 6] ⟨false, true⟩)])

/-- A read from the first region passes into the second and stops before the third. -/
theorem read_is_singly_adjoining :
    adjoining.EndsInSpace ∧ adjoining.read 0x11 8 = .error .outOfBounds ∧
      read adjoining 8 ⟨0x11, 100⟩ = readEach adjoining 8 ⟨0x11, 100⟩ ∧
      Singly adjoining 8 ⟨0x11, 100⟩ [2, 3, 4] (some (.access .violation)) ⟨0x14, 97⟩ := by
  have hmap : adjoining.Composed := by
    refine .map fun part hpart => ?_
    simp only [List.mem_cons, List.not_mem_nil, or_false] at hpart
    rcases hpart with rfl | rfl | rfl <;> exact .region _
  have hend : adjoining.EndsInSpace := by
    unfold Memory.EndsInSpace
    decide
  obtain ⟨heach, bytes, error, after, hread, hsingly, -⟩ :=
    read_is_singly hmap rfl hend (s := ⟨0x11, 100⟩) (by decide) 8
  obtain ⟨rfl, rfl, rfl⟩ : bytes = [2, 3, 4] ∧ error = some (.access .violation) ∧
      after = ⟨0x14, 97⟩ := by
    have houtcome : read adjoining 8 ⟨0x11, 100⟩ =
        ([2, 3, 4], some (.access .violation), ⟨0x14, 97⟩) := by decide
    rw [hread] at houtcome
    cases houtcome
    exact ⟨rfl, rfl, rfl⟩
  exact ⟨hend, by decide, heach, hsingly⟩

end RegisterVM.Stream
