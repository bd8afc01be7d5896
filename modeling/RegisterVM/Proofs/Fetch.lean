import RegisterVM.Proofs.Codec
import RegisterVM.Proofs.ReadAhead

/-!
# Fetching: agreement with memory

`decodeAt` decodes straight from memory, without a cache. A cache is coherent when its window holds
what memory holds there, cut to the size of the cache. From a coherent cache every path of `fetch`
ends where `decodeAt` does: decoding looks only at a prefix, a window that is long enough holds that
prefix, and one that is not is read anew or passed over by growing reads.
-/

namespace RegisterVM

/-- Decodes the code that stands at `pc`; it ends where memory does. The faults are those of a
fetch, so that the two can be compared outright. -/
def decodeCode (pc : UInt32) (code : List UInt8) : Except Fault Instruction :=
  match Instruction.decode code with
  | .ok (inst, _) => .ok inst
  | .error .unknownOpcode => .error ⟨.invalidOpcode, pc, code.headD 0, 0⟩
  | .error .short => .error (truncatedFault pc code)

/-- Decodes the instruction at `pc` straight from memory. There is no cache in it and no growing
read, which makes it the specification of `fetch` wherever every region can be read. -/
def decodeAt (m : Memory) (pc : UInt32) : Except Fault Instruction :=
  if m.readableFrom pc = [] then .error ⟨.access .outOfBounds, pc, 0, pc⟩
  else decodeCode pc (m.readableFrom pc)

namespace CodeCache

/-- The window holds what memory holds at its base, as far as the cache reaches. It says nothing of
where the window lies; a stale window is one that lost this by a write. -/
def Coherent (c : CodeCache) (m : Memory) : Prop :=
  ∀ w, c.window = some w → w.bytes = (m.readableFrom w.base).take c.size

theorem size_ofOptions_pos (size spill : Int) : 0 < (ofOptions size spill).size := by
  unfold ofOptions defaultSize
  dsimp only
  split <;> omega

/-- A hit lies inside the window. The spill that keeps hits away from the end of the window does not
matter for what is found there, so it is dropped here. -/
theorem hit?_eq_some {c : CodeCache} {pc : UInt32} {w : CodeWindow} (h : c.hit? pc = some w) :
    c.window = some w ∧ w.base ≤ pc ∧ pc.toNat - w.base.toNat < w.bytes.length := by
  rw [hit?] at h
  cases hw : c.window with
  | none => simp [hw] at h
  | some v =>
      simp only [hw] at h
      split at h
      · rename_i hin
        obtain rfl := Option.some.inj h
        rw [Bool.and_eq_true, decide_eq_true_eq, decide_eq_true_eq] at hin
        obtain ⟨hle, hlt⟩ := hin
        rw [UInt32.lt_iff_toNat_lt, UInt32.toNat_sub_of_le _ _ hle, UInt32.toNat_ofNat'] at hlt
        have hmod := Nat.mod_le (min c.spill v.bytes.length) (2 ^ 32)
        exact ⟨rfl, hle, by omega⟩
      · simp at h

end CodeCache

/-! ### Decoding prefixes -/

section

variable {code : List UInt8} {n : Nat}

/-- An instruction found in a prefix of the code is the one found in the code, because decoding does
not look past it (`Instruction.decode_append`). -/
theorem decodeCode_of_take_ok {pc : UInt32} {inst : Instruction} {rest : List UInt8}
    (h : Instruction.decode (code.take n) = .ok (inst, rest)) : decodeCode pc code = .ok inst := by
  have happend := Instruction.decode_append h (code.drop n)
  rw [List.take_append_drop] at happend
  rw [decodeCode, happend]

theorem decodeCode_of_take_unknown {pc : UInt32}
    (h : Instruction.decode (code.take n) = .error .unknownOpcode) :
    decodeCode pc code = .error ⟨.invalidOpcode, pc, (code.take n).headD 0, 0⟩ := by
  obtain ⟨happend, hhead⟩ := Instruction.decode_append_unknown h (code.drop n)
  rw [List.take_append_drop] at happend hhead
  simp only [decodeCode, happend, hhead]

/-- A prefix that ends inside the instruction is all the code there is, or it is as long as was
asked for and that was less than the longest instruction. -/
theorem decode_take_short (pc : UInt32) (h : Instruction.decode (code.take n) = .error .short) :
    ((code.take n).length < n ∧ decodeCode pc code = .error (truncatedFault pc (code.take n))) ∨
      ((code.take n).length = n ∧ n < Instruction.maxSize) := by
  by_cases hlt : (code.take n).length < n
  · have hall : code.take n = code := by
      rw [List.length_take] at hlt
      exact List.take_of_length_le (by omega)
    refine .inl ⟨hlt, ?_⟩
    rw [hall] at h ⊢
    simp only [decodeCode, h]
  · have hle : (code.take n).length ≤ n := List.length_take_le n code
    have hmax := Instruction.length_lt_of_decode_short h
    exact .inr ⟨by omega, by omega⟩

/-- What decoding a prefix of the code tells: the instruction, that there is none, that memory ends
inside it, or that the prefix is too short to tell. Every path of a fetch is one of these four cases
at some length. -/
theorem decode_take_cases (pc : UInt32) (code : List UInt8) (n : Nat) :
    (∃ inst rest, Instruction.decode (code.take n) = .ok (inst, rest) ∧
      decodeCode pc code = .ok inst) ∨
    (Instruction.decode (code.take n) = .error .unknownOpcode ∧
      decodeCode pc code = .error ⟨.invalidOpcode, pc, (code.take n).headD 0, 0⟩) ∨
    (Instruction.decode (code.take n) = .error .short ∧ (code.take n).length < n ∧
      decodeCode pc code = .error (truncatedFault pc (code.take n))) ∨
    (Instruction.decode (code.take n) = .error .short ∧ (code.take n).length = n ∧
      n < Instruction.maxSize) := by
  cases hdecode : Instruction.decode (code.take n) with
  | ok found => exact .inl ⟨found.1, found.2, rfl, decodeCode_of_take_ok hdecode⟩
  | error e =>
      cases e with
      | unknownOpcode => exact .inr (.inl ⟨rfl, decodeCode_of_take_unknown hdecode⟩)
      | short =>
          rcases decode_take_short pc hdecode with ⟨hlt, hc⟩ | ⟨hfull, hless⟩
          · exact .inr (.inr (.inl ⟨rfl, hlt, hc⟩))
          · exact .inr (.inr (.inr ⟨rfl, hfull, hless⟩))

end

theorem le_double {bound size fuel : Nat} (h : bound ≤ size * 2 ^ (fuel + 1)) :
    bound ≤ 2 * size * 2 ^ fuel := by
  rw [Nat.pow_succ, ← Nat.mul_assoc] at h
  rw [Nat.mul_assoc]
  omega

/-- As many doublings as the longest instruction has bytes pass it from any size. The bound is far
from sharp; it only has to exist before the loop starts. -/
theorem enough_doublings {size : Nat} (hsize : 0 < size) :
    2 * Instruction.maxSize ≤ 2 * size * 2 ^ Instruction.maxSize := by
  have hpow : Instruction.maxSize < 2 ^ Instruction.maxSize := Nat.lt_two_pow_self
  calc 2 * Instruction.maxSize
      ≤ 2 * 2 ^ Instruction.maxSize := Nat.mul_le_mul_left 2 (Nat.le_of_lt hpow)
    _ ≤ 2 * size * 2 ^ Instruction.maxSize := Nat.mul_le_mul_right _ (by omega)

section

variable {m : Memory} {pc : UInt32}

/-- Reads that grow until the instruction fits find what stands there, if they may double often
enough to pass the longest instruction. A read that still ends inside an instruction although it got
all it asked for was shorter than that, so the loop goes on with fuel left. -/
theorem decodeLong_eq (hcode : m.readableFrom pc ≠ []) {fuel size : Nat} (hsize : 0 < size)
    (hlt : size < 2 * Instruction.maxSize) (hfuel : 2 * Instruction.maxSize ≤ size * 2 ^ fuel) :
    decodeLong m pc fuel size = decodeCode pc (m.readableFrom pc) := by
  induction fuel generalizing size with
  | zero => omega
  | succ fuel ih =>
      have hmax : 0 < Instruction.maxSize := by decide
      have hpos : 0 < min size Instruction.maxSize := by omega
      rw [decodeLong]
      simp only [readablePart_eq_ok hpos hcode]
      obtain ⟨inst, rest, hd, hc⟩ | ⟨hd, hc⟩ | ⟨hd, hshort, hc⟩ | ⟨hd, hfull, hless⟩ :=
        decode_take_cases pc (m.readableFrom pc) (min size Instruction.maxSize)
      · simp only [hd, hc]
      · simp only [hd, hc]
      · simp only [hd, hc, if_pos hshort]
      · -- the prefix was as long as asked for, so less than the longest instruction was asked for
        have hmin : min size Instruction.maxSize = size := by omega
        rw [hmin] at hd hfull hless ⊢
        simp only [hd, hfull, Nat.lt_irrefl, if_false, if_neg (Nat.ne_of_lt hless)]
        exact ih (by omega) (by omega) (le_double hfuel)

/-- Growing reads that start at twice the size of a cache smaller than the longest instruction. -/
theorem decodeLong_of_lt (hcode : m.readableFrom pc ≠ []) {size : Nat} (hsize : 0 < size)
    (hless : size < Instruction.maxSize) :
    decodeLong m pc Instruction.maxSize (2 * size) = decodeCode pc (m.readableFrom pc) :=
  decodeLong_eq hcode (by omega) (by omega) (enough_doublings hsize)

/-- A window at `pc` that holds as much code as the cache takes finds what stands there, in the
window itself or by growing reads behind it. -/
theorem decodeAtStart_eq (hcode : m.readableFrom pc ≠ []) {size : Nat} (hsize : 0 < size) :
    decodeAtStart m size ⟨pc, (m.readableFrom pc).take size⟩ =
      decodeCode pc (m.readableFrom pc) := by
  rw [decodeAtStart]
  obtain ⟨inst, rest, hd, hc⟩ | ⟨hd, hc⟩ | ⟨hd, hshort, hc⟩ | ⟨hd, hfull, hless⟩ :=
    decode_take_cases pc (m.readableFrom pc) size
  · simp only [hd, hc]
  · simp only [hd, hc]
  · simp only [hd, hc, if_pos hshort]
  · simp only [hd, hfull, Nat.lt_irrefl, if_false]
    exact decodeLong_of_lt hcode hsize hless

/-! ### Refills -/

/-- Where code can be read, a refill moves the window there and finds what stands there. It says all
that a refill does, so `fetch` is never opened below it. -/
theorem refetch_of_readable (hcode : m.readableFrom pc ≠ []) {c : CodeCache} (hsize : 0 < c.size)
    (refills : Nat) :
    refetch m pc c refills =
      ⟨{ c with window := some ⟨pc, (m.readableFrom pc).take c.size⟩ }, refills + 1,
        decodeCode pc (m.readableFrom pc)⟩ := by
  simp only [refetch, readWindow, readablePart_eq_ok hsize hcode, decodeAtStart_eq hcode hsize]

/-- Where no code can be read, a refill empties the cache and fails with the error of the read. -/
theorem refetch_of_unreadable (hcode : m.readableFrom pc = []) {c : CodeCache} (hsize : 0 < c.size)
    (refills : Nat) :
    ∃ e, m.check .read pc c.size = .error e ∧
      refetch m pc c refills = ⟨c.invalidate, refills + 1, .error ⟨.access e, pc, 0, pc⟩⟩ := by
  obtain ⟨e, hcheck, hpart⟩ := readablePart_eq_error hsize hcode
  exact ⟨e, hcheck, by simp only [refetch, readWindow, hpart]⟩

/-- With every region readable a refill finds what decoding straight from memory finds: the one
error left is out of bounds, which `decodeAt` reports as well. -/
theorem refetch_outcome (hread : m.AllReadable) {c : CodeCache} (hsize : 0 < c.size)
    (refills : Nat) : (refetch m pc c refills).outcome = decodeAt m pc := by
  rw [decodeAt]
  by_cases hcode : m.readableFrom pc = []
  · obtain ⟨e, hcheck, heq⟩ := refetch_of_unreadable hcode hsize refills
    rw [heq, if_pos hcode, Memory.check_read_error hread hcheck]
  · rw [refetch_of_readable hcode hsize, if_neg hcode]

/-! ### Fetches -/

/-- A fetch reads the window anew, or it hits and leaves the cache alone. Invariants of the cache
need no more of a fetch than this. -/
theorem fetch_cases (m : Memory) (pc : UInt32) (c : CodeCache) :
    fetch m pc c = refetch m pc c 0 ∨ ∃ w, c.hit? pc = some w ∧ (fetch m pc c).cache = c := by
  rw [fetch]
  cases hhit : c.hit? pc with
  | none => exact .inl rfl
  | some w =>
      simp only
      cases hdecode : Instruction.decode (w.bytes.drop (pc.toNat - w.base.toNat)) with
      | ok found => exact .inr ⟨w, rfl, rfl⟩
      | error e =>
          cases e with
          | unknownOpcode => exact .inr ⟨w, rfl, rfl⟩
          | short =>
              by_cases hbase : w.base = pc
              · exact .inr ⟨w, rfl, by rw [if_pos hbase]⟩
              · exact .inl (if_neg hbase)

/-- Where a coherent cache is hit, its window holds a prefix of what memory holds there. The address
lies in the same region as the base of the window, so what memory holds from there on is the rest of
what it holds from the base on. -/
theorem CodeCache.Coherent.hit {c : CodeCache} (hc : c.Coherent m) (hm : m.Ordered) {w : CodeWindow}
    (h : c.hit? pc = some w) :
    m.readableFrom pc ≠ [] ∧ w.bytes.drop (pc.toNat - w.base.toNat) =
      (m.readableFrom pc).take (c.size - (pc.toNat - w.base.toNat)) := by
  obtain ⟨hwindow, hbase, hlt⟩ := hit?_eq_some h
  have hbytes := hc w hwindow
  rw [hbytes, List.length_take] at hlt
  have hrest := Memory.readableFrom_add hm hbase (by omega)
  refine ⟨?_, by rw [hbytes, List.drop_take, hrest]⟩
  rw [hrest, ne_eq, List.drop_eq_nil_iff]
  omega

/-- Where no code can be read, a coherent cache is not hit. -/
theorem fetch_of_unreadable (hm : m.Ordered) {c : CodeCache} (hc : c.Coherent m)
    (hcode : m.readableFrom pc = []) : fetch m pc c = refetch m pc c 0 := by
  rw [fetch]
  cases hhit : c.hit? pc with
  | none => rfl
  | some w => exact absurd hcode (hc.hit hm hhit).1

/-- Where code can be read, a coherent cache finds what stands there. The window decides if it
reaches far enough; if it ends inside the instruction, the fetch starts over at `pc`. -/
theorem fetch_of_readable (hm : m.Ordered) {c : CodeCache} (hc : c.Coherent m) (hsize : 0 < c.size)
    (hcode : m.readableFrom pc ≠ []) :
    (fetch m pc c).outcome = decodeCode pc (m.readableFrom pc) := by
  rw [fetch]
  cases hhit : c.hit? pc with
  | none => exact congrArg Fetched.outcome (refetch_of_readable hcode hsize 0)
  | some w =>
      obtain ⟨-, hbytes⟩ := hc.hit hm hhit
      simp only [hbytes]
      obtain ⟨inst, rest, hd, heq⟩ | ⟨hd, heq⟩ | ⟨hd, -, -⟩ | ⟨hd, -, -⟩ :=
        decode_take_cases pc (m.readableFrom pc) (c.size - (pc.toNat - w.base.toNat))
      · simp only [hd, heq]
      · simp only [hd, heq]
      all_goals
        -- the window ends inside the instruction
        simp only [hd]
        by_cases hbase : w.base = pc
        · obtain ⟨hwindow, -, -⟩ := CodeCache.hit?_eq_some hhit
          have hw : w = ⟨pc, (m.readableFrom pc).take c.size⟩ := by
            rw [← hbase, ← hc w hwindow]
          rw [if_pos hbase, hw]
          exact decodeAtStart_eq hcode hsize
        · rw [if_neg hbase]
          exact congrArg Fetched.outcome (refetch_of_readable hcode hsize 0)

/-- A coherent cache finds what decoding straight from memory finds. So the outcome of a fetch
depends neither on the size of the cache nor on where its window lies. -/
theorem fetch_outcome (hm : m.Ordered) (hread : m.AllReadable) {c : CodeCache} (hc : c.Coherent m)
    (hsize : 0 < c.size) : (fetch m pc c).outcome = decodeAt m pc := by
  by_cases hcode : m.readableFrom pc = []
  · rw [fetch_of_unreadable hm hc hcode, refetch_outcome hread hsize]
  · rw [fetch_of_readable hm hc hsize hcode, decodeAt, if_neg hcode]

/-- What a refill leaves in the cache: nothing, or a window at `pc` that is coherent by its
making. -/
theorem refetch_cache {c : CodeCache} (hsize : 0 < c.size) (refills : Nat) :
    (refetch m pc c refills).cache = c.invalidate ∨
      m.readableFrom pc ≠ [] ∧ (refetch m pc c refills).cache =
        { c with window := some ⟨pc, (m.readableFrom pc).take c.size⟩ } := by
  by_cases hcode : m.readableFrom pc = []
  · obtain ⟨e, -, heq⟩ := refetch_of_unreadable hcode hsize refills
    exact .inl (by rw [heq])
  · exact .inr ⟨hcode, by rw [refetch_of_readable hcode hsize]⟩

end

/-! ### Faults -/

section

variable {m : Memory} {pc : UInt32}

theorem decodeLong_fault_pc {fuel size : Nat} {fault : Fault}
    (h : decodeLong m pc fuel size = .error fault) : fault.pc = pc := by
  induction fuel generalizing size with
  | zero =>
      cases h
      rfl
  | succ fuel ih =>
      rw [decodeLong] at h
      split at h
      · cases h
        rfl
      · split at h
        · cases h
        · cases h
          rfl
        · split at h
          · cases h
            rfl
          · split at h
            · cases h
              rfl
            · exact ih h

theorem decodeAtStart_fault_pc {size : Nat} {w : CodeWindow} {fault : Fault}
    (h : decodeAtStart m size w = .error fault) : fault.pc = w.base := by
  unfold decodeAtStart at h
  split at h
  · cases h
  · cases h
    rfl
  · split at h
    · cases h
      rfl
    · exact decodeLong_fault_pc h

theorem refetch_fault_pc {c : CodeCache} {refills : Nat} {fault : Fault}
    (h : (refetch m pc c refills).outcome = .error fault) : fault.pc = pc := by
  unfold refetch readWindow at h
  cases hpart : readablePart m pc c.size with
  | error e =>
      rw [hpart] at h
      cases h
      rfl
  | ok bytes =>
      rw [hpart] at h
      exact decodeAtStart_fault_pc h

/-- A fetch that fails reports the address it was asked for, on each of its paths and whatever the
cache holds. -/
theorem fetch_fault_pc {c : CodeCache} {fault : Fault} (h : (fetch m pc c).outcome = .error fault) :
    fault.pc = pc := by
  unfold fetch at h
  cases hhit : c.hit? pc with
  | none =>
      rw [hhit] at h
      exact refetch_fault_pc h
  | some w =>
      rw [hhit] at h
      dsimp only at h
      split at h
      · cases h
      · cases h
        rfl
      · split at h
        · rename_i hbase
          rw [← hbase]
          exact decodeAtStart_fault_pc h
        · exact refetch_fault_pc h

/-- With a window at `pc`, a fetch decodes at its start, unless the window may not be used. That is
the case if it is empty or shorter than the spill. -/
theorem fetch_at_base (m : Memory) (pc : UInt32) (c : CodeCache) (bytes : List UInt8) :
    let filled := { c with window := some ⟨pc, bytes⟩ }
    (fetch m pc filled).outcome = decodeAtStart m c.size ⟨pc, bytes⟩ ∨
      fetch m pc filled = refetch m pc filled 0 := by
  dsimp only
  unfold fetch
  cases hhit : CodeCache.hit? { c with window := some ⟨pc, bytes⟩ } pc with
  | none => exact .inr rfl
  | some w =>
      obtain ⟨hwindow, -, -⟩ := CodeCache.hit?_eq_some hhit
      obtain rfl := Option.some.inj hwindow
      left
      simp only [Nat.sub_self, List.drop_zero, if_true]
      unfold decodeAtStart
      cases Instruction.decode bytes with
      | ok found => rfl
      | error e => cases e <;> rfl

/-- Fetching again gives the same, whatever was cached at first. It needs no coherence: a stale
window answers twice alike, and one that was just read answers as the read did. -/
theorem fetch_again (m : Memory) (pc : UInt32) (c : CodeCache) :
    (fetch m pc (fetch m pc c).cache).outcome = (fetch m pc c).outcome := by
  rcases fetch_cases m pc c with heq | ⟨w, -, hcache⟩
  · rw [heq]
    unfold refetch
    cases hwindow : readWindow m pc c.size with
    | error fault =>
        -- the cache is empty now, so the second fetch reads ahead as well
        have hmiss : c.invalidate.hit? pc = none := rfl
        have hagain : readWindow m pc c.invalidate.size = .error fault := hwindow
        simp only [fetch, hmiss, refetch, hagain]
    | ok w =>
        have hbase : w = ⟨pc, w.bytes⟩ := by
          unfold readWindow at hwindow
          split at hwindow
          · cases hwindow
          · cases hwindow
            rfl
        rw [hbase]
        rcases fetch_at_base m pc c w.bytes with hfirst | hsecond
        · exact hfirst
        · rw [hsecond]
          rw [hbase] at hwindow
          simp only [refetch, hwindow]
  · rw [hcache]

end

end RegisterVM
