import RegisterVM.Proofs.CheckedDecode
import RegisterVM.Proofs.Fetch

/-!
# Fetching with every access checked

The code cache as an array that is filled in place, of which a part is in use. Slices and elements
of it are taken by index and give nothing when out of range. `CodeBuffer.InBounds` is what keeps
them in range: the part in use lies inside the array. Every fetch keeps it, also one that fails, and
ends as `fetch` does on the window that the buffer stands for.
-/

namespace RegisterVM

/-- A cache as an array and the part of it that is in use. The array keeps its size for good; what
lies behind the part in use is left from earlier fills. -/
structure CodeBuffer where
  bytes : List UInt8
  base : UInt32
  length : Nat
  valid : Bool
  spill : Nat

namespace CodeBuffer

/-- An unused buffer. -/
def ofOptions (size spill : Int) : CodeBuffer :=
  let cache := CodeCache.ofOptions size spill
  ⟨List.replicate cache.size 0, 0, 0, false, cache.spill⟩

/-- The cache that a buffer stands for. What is in the array beyond the part in use has no place in
it. -/
def cache (b : CodeBuffer) : CodeCache where
  size := b.bytes.length
  spill := b.spill
  window := if b.valid then some ⟨b.base, b.bytes.take b.length⟩ else none

/-- The array is not empty and the part in use lies inside it. A buffer that is not valid may have
any length noted, as nobody looks at it. -/
structure InBounds (b : CodeBuffer) : Prop where
  size : 0 < b.bytes.length
  used : b.valid = true → b.length ≤ b.bytes.length

/-- Whether `pc` lies in the part that may be used. -/
def hits (b : CodeBuffer) (pc : UInt32) : Bool :=
  b.valid && (b.base ≤ pc && pc - b.base < UInt32.ofNat (min b.spill b.length))

end CodeBuffer

/-! ### Reading into an array -/

/-- Reads over the first `n` bytes of an array. What lies behind them stays, so the array has the
same length afterwards. -/
def readInto (m : Memory) (pc : UInt32) (buf : List UInt8) (n : Nat) :
    Option (Except AccessError (List UInt8)) := do
  let target ← slice? buf 0 n
  match m.read pc target.length with
  | .error e => return .error e
  | .ok bytes => return .ok (bytes ++ buf.drop n)

/-- Bisects how much can be read, leaving in the array what was read on the way. The array is
overwritten by probes that succeed; the last read makes good for that. -/
def probe (m : Memory) (pc : UInt32) (buf : List UInt8) (low high : Nat) :
    Option (List UInt8 × Nat) :=
  if _h : low + 1 < high then
    let mid := (low + high) / 2
    match readInto m pc buf mid with
    | none => none
    | some (.ok buf) => probe m pc buf mid high
    | some (.error _) => probe m pc buf low mid
  else some (buf, low)
termination_by high - low

/-- Fills an array as far as memory can be read: the array and how much of it was filled. The whole
array is tried first, so a read that can be made at once is made at once. -/
def fillPrefix (m : Memory) (pc : UInt32) (buf : List UInt8) :
    Option (Except AccessError (List UInt8 × Nat)) := do
  match ← readInto m pc buf buf.length with
  | .ok buf => return .ok (buf, buf.length)
  | .error e =>
      let (buf, low) ← probe m pc buf 0 buf.length
      if low = 0 then return .error e
      else
        match ← readInto m pc buf low with
        | .error e => return .error e
        | .ok buf => return .ok (buf, low)

/-- Decodes an instruction longer than the cache into the record, from arrays that double; the fault
if there was one. Nothing when `fuel` does not suffice, which is one more thing that has to be shown
not to happen. -/
def decodeDirect (m : Memory) (pc : UInt32) :
    (fuel size : Nat) → Slots → Option (Slots × Option Fault)
  | 0, _, _ => none
  | fuel + 1, size, slots => do
      let size := min size Instruction.maxSize
      match ← fillPrefix m pc (List.replicate size 0) with
      | .error e => return (slots, some ⟨.access e, pc, 0, pc⟩)
      | .ok (buf, n) =>
          let (slots, result) ← slots.load (← slice? buf 0 n)
          match result with
          | .ok _ => return (slots, none)
          | .error .unknownOpcode => return (slots, some ⟨.invalidOpcode, pc, slots.opcode, 0⟩)
          | .error .short =>
              if n < size then
                return (slots, some ⟨.access .outOfBounds, pc, ← buf[0]?, pc + UInt32.ofNat n⟩)
              else if size = Instruction.maxSize then
                return (slots, some ⟨.invalidInstruction, pc, slots.opcode, 0⟩)
              else decodeDirect m pc fuel (2 * size) slots

/-- What a fetch into a record did. -/
structure BufferFetched where
  buffer : CodeBuffer
  slots : Slots
  refills : Nat
  fault : Option Fault

namespace CodeBuffer

/-- Fills the buffer from `pc` on; the error if nothing can be read there. -/
def refill (b : CodeBuffer) (m : Memory) (pc : UInt32) :
    Option (CodeBuffer × Option AccessError) := do
  match ← fillPrefix m pc b.bytes with
  | .error e => return ({ b with valid := false }, some e)
  | .ok (bytes, n) => return ({ b with bytes, base := pc, length := n, valid := true }, none)

/-- Goes on where the buffer, filled from `pc` on, ends inside the instruction: memory ends there,
or the buffer was too small. -/
def passEnd (b : CodeBuffer) (m : Memory) (pc : UInt32) (slots : Slots) (refills : Nat) :
    Option BufferFetched := do
  if b.length < b.bytes.length then
    let fault := ⟨.access .outOfBounds, pc, ← b.bytes[0]?, pc + UInt32.ofNat b.length⟩
    return ⟨b, slots, refills, some fault⟩
  else
    let (slots, fault) ← decodeDirect m pc Instruction.maxSize (2 * b.bytes.length) slots
    return ⟨b, slots, refills, fault⟩

/-- Fills the buffer from `pc` on and decodes there. -/
def refetch (b : CodeBuffer) (m : Memory) (pc : UInt32) (slots : Slots) : Option BufferFetched := do
  match ← b.refill m pc with
  | (b, some e) => return ⟨b, slots, 1, some ⟨.access e, pc, 0, pc⟩⟩
  | (b, none) =>
      let (slots, result) ← slots.load (← slice? b.bytes (pc - b.base).toNat b.length)
      match result with
      | .ok _ => return ⟨b, slots, 1, none⟩
      | .error .unknownOpcode => return ⟨b, slots, 1, some ⟨.invalidOpcode, pc, slots.opcode, 0⟩⟩
      | .error .short => b.passEnd m pc slots 1

/-- Fetches the instruction at `pc` into the record. A hit that ends inside the instruction starts
over at `pc`, unless it did start there. -/
def fetch (b : CodeBuffer) (m : Memory) (pc : UInt32) (slots : Slots) : Option BufferFetched := do
  if b.hits pc then
    let (slots, result) ← slots.load (← slice? b.bytes (pc - b.base).toNat b.length)
    match result with
    | .ok _ => return ⟨b, slots, 0, none⟩
    | .error .unknownOpcode => return ⟨b, slots, 0, some ⟨.invalidOpcode, pc, slots.opcode, 0⟩⟩
    | .error .short => if b.base = pc then b.passEnd m pc slots 0 else b.refetch m pc slots
  else b.refetch m pc { slots with opcode := 0 }

end CodeBuffer

/-! ### Filling arrays -/

theorem slice?_eq {α : Type} {xs : List α} {start stop : Nat} (hstart : start ≤ stop)
    (hstop : stop ≤ xs.length) : slice? xs start stop = some ((xs.take stop).drop start) := by
  rw [slice?, if_pos ⟨hstart, hstop⟩]

section

variable {m : Memory} {pc : UInt32} {buf : List UInt8} {n : Nat}

theorem readInto_eq (hn : n ≤ buf.length) :
    readInto m pc buf n = some ((m.read pc n).map fun bytes => bytes ++ buf.drop n) := by
  rw [readInto, slice?_eq (Nat.zero_le n) hn]
  simp only [Option.bind_eq_bind, Option.bind_some, List.drop_zero, List.length_take,
    Nat.min_eq_left hn]
  cases m.read pc n <;> rfl

theorem readInto_of_le (hpos : 0 < n) (hn : n ≤ buf.length)
    (hread : n ≤ (m.readableFrom pc).length) :
    readInto m pc buf n = some (.ok ((m.readableFrom pc).take n ++ buf.drop n)) := by
  rw [readInto_eq hn, Memory.read_eq_ok hpos hread]
  rfl

theorem readInto_of_lt (hpos : 0 < n) (hn : n ≤ buf.length)
    (hread : (m.readableFrom pc).length < n) :
    ∃ e, m.read pc n = .error e ∧ readInto m pc buf n = some (.error e) := by
  obtain ⟨e, -, he⟩ := Memory.read_eq_error hpos hread
  exact ⟨e, he, by rw [readInto_eq hn, he]; rfl⟩

/-- Probing an array ends at what is readable and keeps the length of the array. It is the bisection
of `bisectReadable` with an array in hand, so its bounds are the same. -/
theorem probe_eq {low high : Nat} (hlow : low ≤ (m.readableFrom pc).length)
    (hhigh : (m.readableFrom pc).length < high) (hbuf : high ≤ buf.length) :
    ∃ after, probe m pc buf low high = some (after, (m.readableFrom pc).length) ∧
      after.length = buf.length := by
  fun_induction probe m pc buf low high with
  | case1 buf low high hgap mid hnone =>
      rw [readInto_eq (by omega)] at hnone
      cases hnone
  | case2 buf low high hgap mid after hread ih =>
      -- `mid` bytes were read, so at least that many are readable
      rw [readInto_eq (by omega)] at hread
      have hle : mid ≤ (m.readableFrom pc).length := by
        refine Nat.le_of_not_lt fun hlt => ?_
        obtain ⟨e, -, he⟩ := Memory.read_eq_error (by omega) hlt
        rw [he] at hread
        cases hread
      rw [Memory.read_eq_ok (by omega) hle] at hread
      cases hread
      have hlength : ((m.readableFrom pc).take mid ++ buf.drop mid).length = buf.length := by
        rw [List.length_append, List.length_take, List.length_drop]
        omega
      obtain ⟨last, hlast, hkept⟩ := ih hle hhigh
        (Nat.le_trans hbuf (Nat.le_of_eq hlength.symm))
      exact ⟨last, hlast, hkept.trans hlength⟩
  | case3 buf low high hgap mid e hread ih =>
      rw [readInto_eq (by omega)] at hread
      refine ih hlow (Nat.lt_of_not_le fun hle => ?_) (by omega)
      rw [Memory.read_eq_ok (by omega) hle] at hread
      cases hread
  | case4 buf low high hgap =>
      exact ⟨buf, by rw [show low = (m.readableFrom pc).length by omega], rfl⟩

/-- Where something can be read, the array is filled with a prefix of it, as long as both allow.
What was read while probing has been read over by then. -/
theorem fillPrefix_of_readable (hbuf : 0 < buf.length) (hcode : m.readableFrom pc ≠ []) :
    ∃ after, fillPrefix m pc buf =
        some (.ok (after, min buf.length (m.readableFrom pc).length)) ∧
      after.length = buf.length ∧
      after.take (min buf.length (m.readableFrom pc).length) =
        (m.readableFrom pc).take buf.length := by
  have hpos : 0 < (m.readableFrom pc).length := List.length_pos_iff.mpr hcode
  rw [fillPrefix]
  by_cases hle : buf.length ≤ (m.readableFrom pc).length
  · have htake : ((m.readableFrom pc).take buf.length ++ buf.drop buf.length).length =
        buf.length := by
      rw [List.length_append, List.length_take, List.length_drop]
      omega
    rw [readInto_of_le hbuf (Nat.le_refl _) hle, Nat.min_eq_left hle]
    simp only [Option.bind_eq_bind, Option.bind_some, Option.pure_def, htake]
    refine ⟨_, rfl, htake, ?_⟩
    rw [List.drop_length, List.append_nil, List.take_take, Nat.min_self]
  · have hlt := Nat.lt_of_not_le hle
    obtain ⟨e, -, hread⟩ := readInto_of_lt hbuf (Nat.le_refl _) hlt
    obtain ⟨probed, hprobe, hlength⟩ := probe_eq (Nat.zero_le _) hlt (Nat.le_refl _)
    have htake : ((m.readableFrom pc).take (m.readableFrom pc).length ++
        probed.drop (m.readableFrom pc).length).length = buf.length := by
      rw [List.length_append, List.take_length, List.length_drop]
      omega
    rw [hread, Nat.min_eq_right (Nat.le_of_lt hlt)]
    simp only [Option.bind_eq_bind, Option.bind_some, hprobe, if_neg (Nat.ne_of_gt hpos)]
    rw [readInto_of_le hpos (by omega) (Nat.le_refl _)]
    simp only [Option.bind_some, Option.pure_def]
    refine ⟨_, rfl, htake, ?_⟩
    rw [List.take_length, List.take_left, List.take_of_length_le (Nat.le_of_lt hlt)]

theorem fillPrefix_of_unreadable (hbuf : 0 < buf.length) (hcode : m.readableFrom pc = []) :
    ∃ e, readablePart m pc buf.length = .error e ∧ fillPrefix m pc buf = some (.error e) := by
  have hzero : (m.readableFrom pc).length = 0 := by rw [hcode]; rfl
  have hlt : (m.readableFrom pc).length < buf.length := by omega
  obtain ⟨e, hwhole, hread⟩ := readInto_of_lt hbuf (Nat.le_refl _) hlt
  obtain ⟨probed, hprobe, -⟩ := probe_eq (Nat.zero_le _) hlt (Nat.le_refl _)
  refine ⟨e, ?_, ?_⟩
  · rw [readablePart, hwhole]
    simp only [bisectReadable_eq (Nat.zero_le _) hlt, hzero]
  · rw [fillPrefix, hread]
    simp only [Option.bind_eq_bind, Option.bind_some, hprobe, hzero, if_true, Option.pure_def]

end

/-! ### Decoding -/

/-- The record is what decoding an instruction leaves behind. That the operands fit the formats
comes with it, for the handlers rely on their shape. -/
structure Slots.Decoded (slots : Slots) (inst : Instruction) : Prop where
  holds : slots.Holds inst
  size : slots.size = inst.size
  fits : ∃ op, Opcode.ofByte? inst.opcode = some op ∧ Operand.FitAll op.formats inst.operands

/-- The record and the fault tell what a fetch came to. Where there is a fault, nothing is asked of
the record. -/
def Reports (slots : Slots) (fault : Option Fault) : Except Fault Instruction → Prop
  | .error expected => fault = some expected
  | .ok inst => fault = none ∧ slots.Decoded inst

/-- The three ways in which decoding into a record ends, each next to the same way of
`Instruction.decode`. -/
theorem Slots.load_cases (slots : Slots) {bytes : List UInt8} (hbytes : bytes ≠ []) :
    (∃ inst rest after, Instruction.decode bytes = .ok (inst, rest) ∧
      slots.load bytes = some (after, .ok inst.size) ∧ after.Decoded inst) ∨
    (∃ after, Instruction.decode bytes = .error .unknownOpcode ∧
      slots.load bytes = some (after, .error .unknownOpcode) ∧ after.opcode = bytes.headD 0) ∨
    (∃ after, Instruction.decode bytes = .error .short ∧
      slots.load bytes = some (after, .error .short) ∧ after.opcode = bytes.headD 0) := by
  obtain ⟨after, hload, hopcode, hholds⟩ := load_eq bytes slots
  cases hdecode : Instruction.decode bytes with
  | ok found =>
      obtain ⟨inst, rest⟩ := found
      rw [hdecode] at hload
      obtain ⟨code, -, hstands⟩ := Instruction.decode_inv hdecode
      obtain ⟨hslots, hsize⟩ := hholds inst rest hdecode
      exact .inl ⟨inst, rest, after, rfl, hload, hslots, hsize, hstands.fits⟩
  | error e =>
      rw [hdecode] at hload
      cases e with
      | unknownOpcode => exact .inr (.inl ⟨after, rfl, hload, hopcode hbytes⟩)
      | short => exact .inr (.inr ⟨after, rfl, hload, hopcode hbytes⟩)

/-- The first byte of an array whose used part is known. -/
theorem getElem?_zero_of_take {buf bytes : List UInt8} {n : Nat} (h : buf.take n = bytes)
    (hbytes : bytes ≠ []) : buf[0]? = some (bytes.headD 0) := by
  subst h
  cases buf with
  | nil => simp at hbytes
  | cons first rest =>
      cases n with
      | zero => simp at hbytes
      | succ n => rfl

theorem take_ne_nil {code : List UInt8} {n : Nat} (hcode : code ≠ []) (hn : 0 < n) :
    code.take n ≠ [] := by
  rw [ne_eq, List.take_eq_nil_iff, not_or]
  exact ⟨Nat.ne_of_gt hn, hcode⟩

section

variable {m : Memory} {pc : UInt32}

/-- Arrays that double find what stands at `pc`, if they may double often enough to pass the longest
instruction. The induction is that of `decodeLong_eq`, with a record that is written anew in every
round. -/
theorem decodeDirect_of_readable (hcode : m.readableFrom pc ≠ []) {fuel size : Nat}
    (hsize : 0 < size) (hlt : size < 2 * Instruction.maxSize)
    (hfuel : 2 * Instruction.maxSize ≤ size * 2 ^ fuel) (slots : Slots) :
    ∃ after fault, decodeDirect m pc fuel size slots = some (after, fault) ∧
      Reports after fault (decodeCode pc (m.readableFrom pc)) := by
  induction fuel generalizing size slots with
  | zero => omega
  | succ fuel ih =>
      have hmax : 0 < Instruction.maxSize := by decide
      have hpos : 0 < min size Instruction.maxSize := by omega
      have hlength : (List.replicate (min size Instruction.maxSize) (0 : UInt8)).length =
          min size Instruction.maxSize := List.length_replicate
      obtain ⟨buf, hfill, hbuf, htake⟩ :=
        fillPrefix_of_readable (by rw [hlength]; exact hpos) hcode
      rw [hlength] at hfill hbuf htake
      have hwindow := slice?_eq (Nat.zero_le _)
        (Nat.le_trans (Nat.min_le_left _ (m.readableFrom pc).length) (Nat.le_of_eq hbuf.symm))
      rw [htake, List.drop_zero] at hwindow
      have hbytes := take_ne_nil hcode hpos
      have hcount : ((m.readableFrom pc).take (min size Instruction.maxSize)).length =
          min (min size Instruction.maxSize) (m.readableFrom pc).length := List.length_take
      rw [decodeDirect]
      simp only [hfill, hwindow, Option.bind_eq_bind, Option.bind_some]
      -- what the record says about the prefix, and what that says about the code
      obtain ⟨inst, rest, after, hd, hload, hholds⟩ | ⟨after, hd, hload, hopcode⟩ |
        ⟨after, hd, hload, -⟩ := slots.load_cases hbytes
      · refine ⟨after, none, by simp only [hload, Option.bind_some, Option.pure_def], ?_⟩
        rw [decodeCode_of_take_ok hd]
        exact ⟨rfl, hholds⟩
      · refine ⟨after, _, by simp only [hload, Option.bind_some, Option.pure_def]; rfl, ?_⟩
        rw [decodeCode_of_take_unknown hd, hopcode]
        rfl
      · simp only [hload, Option.bind_some]
        obtain ⟨hshort, hc⟩ | ⟨hfull, hless⟩ := decode_take_short pc hd
        · rw [hcount] at hshort
          rw [if_pos hshort, getElem?_zero_of_take htake hbytes]
          refine ⟨after, _, rfl, ?_⟩
          rw [hc, ← hcount]
          rfl
        · have hmin : min size Instruction.maxSize = size := by omega
          rw [hcount] at hfull
          rw [if_neg (by omega), if_neg (Nat.ne_of_lt hless), hmin]
          exact ih (by omega) (by omega) (le_double hfuel) after

/-- Where no code can be read, the first array already fails, with the error of the read. -/
theorem decodeDirect_of_unreadable (hcode : m.readableFrom pc = []) {size : Nat} (hsize : 0 < size)
    (fuel : Nat) (slots : Slots) :
    ∃ fault, decodeDirect m pc (fuel + 1) size slots = some (slots, some fault) ∧
      decodeLong m pc (fuel + 1) size = .error fault := by
  have hmax : 0 < Instruction.maxSize := by decide
  have hlength : (List.replicate (min size Instruction.maxSize) (0 : UInt8)).length =
      min size Instruction.maxSize := List.length_replicate
  obtain ⟨e, hpart, hfill⟩ := fillPrefix_of_unreadable (by rw [hlength]; omega) hcode
  rw [hlength] at hpart
  refine ⟨⟨.access e, pc, 0, pc⟩, ?_, ?_⟩
  · simp only [decodeDirect, hfill, Option.bind_eq_bind, Option.bind_some, Option.pure_def]
  · simp only [decodeLong, hpart]

namespace CodeBuffer

variable {b : CodeBuffer}

/-- Passing the end of a buffer agrees with decoding at the start of the window. The window may be
stale, so that nothing can be read where it once was read from; both then fail with the same
error. -/
theorem passEnd_eq (hb : b.InBounds) (hused : b.length ≤ b.bytes.length)
    (hbytes : b.bytes.take b.length ≠ [])
    (hshort : Instruction.decode (b.bytes.take b.length) = .error .short) (slots : Slots)
    (refills : Nat) :
    ∃ after fault, b.passEnd m pc slots refills = some ⟨b, after, refills, fault⟩ ∧
      Reports after fault (decodeAtStart m b.bytes.length ⟨pc, b.bytes.take b.length⟩) := by
  have hlength : (b.bytes.take b.length).length = b.length := List.length_take_of_le hused
  rw [passEnd]
  simp only [decodeAtStart, hshort, hlength]
  by_cases hlt : b.length < b.bytes.length
  · rw [if_pos hlt, if_pos hlt, getElem?_zero_of_take rfl hbytes]
    refine ⟨slots, _, rfl, ?_⟩
    simp only [Reports, truncatedFault, hlength]
  · have hmax := Instruction.length_lt_of_decode_short hshort
    have hsize := hb.size
    rw [if_neg hlt, if_neg hlt]
    by_cases hcode : m.readableFrom pc = []
    · obtain ⟨fuel, hfuel⟩ := Nat.exists_eq_succ_of_ne_zero (Nat.ne_of_gt (Nat.lt_of_le_of_lt
        (Nat.zero_le _) hmax))
      obtain ⟨fault, hdirect, hlong⟩ := decodeDirect_of_unreadable hcode
        (show 0 < 2 * b.bytes.length by omega) fuel slots
      rw [hfuel, hdirect, hlong]
      exact ⟨slots, some fault, rfl, rfl⟩
    · obtain ⟨after, fault, hdirect, hreports⟩ := decodeDirect_of_readable hcode
        (show 0 < 2 * b.bytes.length by omega) (by omega) (enough_doublings hsize) slots
      rw [hdirect, decodeLong_of_lt hcode hsize (by omega)]
      exact ⟨after, fault, rfl, hreports⟩

/-! ### Fetching -/

/-- The fetch into a record did what a fetch does, and left the buffer in bounds, also where it
failed. So the next fetch can rely on the same. -/
structure Follows (did : BufferFetched) (expected : Fetched) : Prop where
  inBounds : did.buffer.InBounds
  cache : did.buffer.cache = expected.cache
  refills : did.refills = expected.refills
  reports : Reports did.slots did.fault expected.outcome

theorem refill_of_unreadable (hb : b.InBounds) (hcode : m.readableFrom pc = []) :
    ∃ e, readWindow m pc b.cache.size = .error ⟨.access e, pc, 0, pc⟩ ∧
      b.refill m pc = some ({ b with valid := false }, some e) := by
  obtain ⟨e, hpart, hfill⟩ := fillPrefix_of_unreadable hb.size hcode
  refine ⟨e, by simp only [readWindow, cache, hpart], ?_⟩
  simp only [refill, hfill, Option.bind_eq_bind, Option.bind_some, Option.pure_def]

theorem refill_of_readable (hb : b.InBounds) (hcode : m.readableFrom pc ≠ []) :
    ∃ filled, b.refill m pc = some (filled, none) ∧ filled.InBounds ∧ filled.base = pc ∧
      filled.bytes.length = b.bytes.length ∧ filled.length ≤ filled.bytes.length ∧
      filled.bytes.take filled.length = (m.readableFrom pc).take b.bytes.length ∧
      filled.cache =
        { b.cache with window := some ⟨pc, (m.readableFrom pc).take b.bytes.length⟩ } := by
  obtain ⟨bytes, hfill, hlength, htake⟩ := fillPrefix_of_readable hb.size hcode
  have hused : min b.bytes.length (m.readableFrom pc).length ≤ bytes.length := by
    rw [hlength]
    exact Nat.min_le_left _ _
  refine ⟨⟨bytes, pc, min b.bytes.length (m.readableFrom pc).length, true, b.spill⟩, ?_, ?_, rfl,
    hlength, hused, htake, ?_⟩
  · simp only [refill, hfill, Option.bind_eq_bind, Option.bind_some, Option.pure_def]
  · exact ⟨by rw [hlength]; exact hb.size, fun _ => hused⟩
  · simp only [cache, hlength, htake, if_true]

/-- Filling the buffer anew never leaves a range, and does what a refill of the window does. -/
theorem refetch_eq (hb : b.InBounds) (slots : Slots) :
    ∃ did, b.refetch m pc slots = some did ∧ Follows did (RegisterVM.refetch m pc b.cache 0) := by
  rw [refetch]
  by_cases hcode : m.readableFrom pc = []
  · obtain ⟨e, hwindow, hrefill⟩ := refill_of_unreadable hb hcode
    refine ⟨⟨{ b with valid := false }, slots, 1, some ⟨.access e, pc, 0, pc⟩⟩, ?_, ?_⟩
    · simp only [hrefill, Option.bind_eq_bind, Option.bind_some, Option.pure_def]
    · rw [RegisterVM.refetch, hwindow]
      exact ⟨⟨hb.size, by simp⟩, rfl, rfl, rfl⟩
  · obtain ⟨filled, hrefill, hin, hbase, hsize, hused, hbytes, hcache⟩ :=
      refill_of_readable hb hcode
    have hwindow : slice? filled.bytes (pc - filled.base).toNat filled.length =
        some ((m.readableFrom pc).take b.bytes.length) := by
      rw [← hbytes, hbase, UInt32.sub_self]
      exact slice?_eq (Nat.zero_le _) hused
    have hne := take_ne_nil hcode hb.size
    rw [refetch_of_readable hcode (show 0 < b.cache.size from hb.size), hrefill]
    simp only [Option.bind_eq_bind, Option.bind_some, hwindow]
    obtain ⟨inst, rest, after, hd, hload, hholds⟩ | ⟨after, hd, hload, hopcode⟩ |
      ⟨after, hd, hload, -⟩ := slots.load_cases hne
    · refine ⟨⟨filled, after, 1, none⟩, ?_, hin, hcache, rfl, ?_⟩
      · simp only [hload, Option.bind_some, Option.pure_def]
      · rw [decodeCode_of_take_ok hd]
        exact ⟨rfl, hholds⟩
    · refine ⟨⟨filled, after, 1, some ⟨.invalidOpcode, pc, after.opcode, 0⟩⟩, ?_, hin,
        hcache, rfl, ?_⟩
      · simp only [hload, Option.bind_some, Option.pure_def]
      · rw [decodeCode_of_take_unknown hd, hopcode]
        rfl
    · rw [← hbytes] at hd hne
      obtain ⟨last, fault, hpass, hreports⟩ := passEnd_eq hin hused hne hd after 1
      refine ⟨⟨filled, last, 1, fault⟩, ?_, hin, hcache, rfl, ?_⟩
      · simp only [hload, Option.bind_some]
        exact hpass
      · rw [hbytes, hsize, decodeAtStart_eq hcode hb.size] at hreports
        exact hreports

theorem hit?_cache (hb : b.InBounds) (pc : UInt32) :
    b.cache.hit? pc = if b.hits pc then some ⟨b.base, b.bytes.take b.length⟩ else none := by
  unfold CodeCache.hit? hits cache
  cases hvalid : b.valid with
  | false => rfl
  | true =>
      have hlength : (b.bytes.take b.length).length = b.length :=
        List.length_take_of_le (hb.used hvalid)
      simp only [if_true, hlength, Bool.true_and]

/-- A fetch never leaves the range of the buffer and does what a fetch from its window does. Only
`InBounds` is needed: whether the window is stale, and what the record held, plays no part. -/
theorem fetch_eq (hb : b.InBounds) (m : Memory) (pc : UInt32) (slots : Slots) :
    ∃ did, b.fetch m pc slots = some did ∧ Follows did (RegisterVM.fetch m pc b.cache) := by
  rw [fetch, RegisterVM.fetch, hit?_cache hb]
  by_cases hhits : b.hits pc = true
  · have hvalid : b.valid = true := by
      rw [hits, Bool.and_eq_true] at hhits
      exact hhits.1
    have hused := hb.used hvalid
    obtain ⟨-, hbase, hlt⟩ := CodeCache.hit?_eq_some ((hit?_cache hb pc).trans (if_pos hhits))
    dsimp only at hbase hlt
    rw [List.length_take_of_le hused] at hlt
    have hstart : (pc - b.base).toNat = pc.toNat - b.base.toNat := UInt32.toNat_sub_of_le _ _ hbase
    have hwindow := slice?_eq (Nat.le_of_lt hlt) hused
    have hne : (b.bytes.take b.length).drop (pc.toNat - b.base.toNat) ≠ [] := by
      rw [ne_eq, List.drop_eq_nil_iff, List.length_take_of_le hused]
      omega
    rw [if_pos hhits, if_pos hhits, hstart, hwindow]
    simp only [Option.bind_eq_bind, Option.bind_some]
    obtain ⟨inst, rest, after, hd, hload, hholds⟩ | ⟨after, hd, hload, hopcode⟩ |
      ⟨after, hd, hload, -⟩ := slots.load_cases hne
    · refine ⟨⟨b, after, 0, none⟩, ?_, ?_⟩
      · simp only [hload, Option.bind_some, Option.pure_def]
      · simp only [hd]
        exact ⟨hb, rfl, rfl, rfl, hholds⟩
    · refine ⟨⟨b, after, 0, some ⟨.invalidOpcode, pc, after.opcode, 0⟩⟩, ?_, ?_⟩
      · simp only [hload, Option.bind_some, Option.pure_def]
      · simp only [hd, ← hopcode]
        exact ⟨hb, rfl, rfl, rfl⟩
    · simp only [hload, Option.bind_some, hd]
      by_cases hat : b.base = pc
      · -- the window starts at `pc`, so what was decoded is the whole of it
        subst hat
        rw [Nat.sub_self, List.drop_zero] at hd hne
        obtain ⟨last, fault, hpass, hreports⟩ := passEnd_eq hb hused hne hd after 0
        rw [if_pos rfl, if_pos rfl]
        exact ⟨⟨b, last, 0, fault⟩, hpass, hb, rfl, rfl, hreports⟩
      · rw [if_neg hat, if_neg hat]
        exact refetch_eq hb after
  · rw [if_neg hhits, if_neg hhits]
    exact refetch_eq hb _

end CodeBuffer

end

end RegisterVM
