import RegisterVM.Proofs.CompletedStep
import RegisterVM.Proofs.MemoryBytes

/-!
# What a fetch looks at

A fetch reads ahead of the instruction it is after, but it looks only at some of what it reads: at
the bytes of the instruction, and at cached bytes that turn out to end inside of it. So where two
memories and two caches hold the same bytes at those addresses, a fetch that succeeds with one pair
succeeds with the other, finds the same instruction, refills as often and leaves caches that agree
again (`fetch_agree`). What was read ahead elsewhere may differ.
-/

namespace RegisterVM

/-! ### Agreement -/

/-- Memories of one layout that hold the same bytes at some addresses. Addresses are plain numbers,
so that ranges do not wrap around. -/
structure Memory.AgreeOn (S : Nat → Prop) (m m' : Memory) : Prop where
  blank : m.blank = m'.blank
  bytes : ∀ a, S a → m.byte? a = m'.byte? a

/-- Byte sequences from one address on, of one length, with the same bytes at some addresses. -/
structure BytesAgreeOn (S : Nat → Prop) (start : Nat) (bytes bytes' : List UInt8) : Prop where
  length : bytes.length = bytes'.length
  bytes : ∀ i, S (start + i) → bytes[i]? = bytes'[i]?

/-- Windows at one base that agree at some addresses. -/
structure CodeWindow.AgreeOn (S : Nat → Prop) (w w' : CodeWindow) : Prop where
  base : w.base = w'.base
  bytes : BytesAgreeOn S w.base.toNat w.bytes w'.bytes

/-- Caches of one geometry whose windows agree at some addresses. Either both have a window or none
has. -/
structure CodeCache.AgreeOn (S : Nat → Prop) (c c' : CodeCache) : Prop where
  size : c.size = c'.size
  spill : c.spill = c'.spill
  window : Option.Rel (CodeWindow.AgreeOn S) c.window c'.window

section

variable {S : Nat → Prop}

theorem optionRel_cases {α β : Type} {r : α → β → Prop} {x : Option α} {y : Option β}
    (h : Option.Rel r x y) :
    (x = none ∧ y = none) ∨ ∃ a b, x = some a ∧ y = some b ∧ r a b := by
  cases h with
  | none => exact .inl ⟨rfl, rfl⟩
  | some hab => exact .inr ⟨_, _, rfl, rfl, hab⟩

theorem Memory.AgreeOn.refl (m : Memory) : m.AgreeOn S m := ⟨rfl, fun _ _ => rfl⟩

theorem Memory.AgreeOn.symm {m m' : Memory} (h : m.AgreeOn S m') : m'.AgreeOn S m :=
  ⟨h.blank.symm, fun a ha => (h.bytes a ha).symm⟩

theorem Memory.AgreeOn.trans {m m' m'' : Memory} (h : m.AgreeOn S m') (h' : m'.AgreeOn S m'') :
    m.AgreeOn S m'' :=
  ⟨h.blank.trans h'.blank, fun a ha => (h.bytes a ha).trans (h'.bytes a ha)⟩

theorem CodeCache.AgreeOn.refl (c : CodeCache) : c.AgreeOn S c := by
  refine ⟨rfl, rfl, ?_⟩
  cases c.window with
  | none => exact .none
  | some w => exact .some ⟨rfl, rfl, fun _ _ => rfl⟩

theorem CodeCache.AgreeOn.symm {c c' : CodeCache} (h : c.AgreeOn S c') : c'.AgreeOn S c := by
  refine ⟨h.size.symm, h.spill.symm, ?_⟩
  obtain ⟨hw, hw'⟩ | ⟨w, w', hw, hw', hwindow⟩ := optionRel_cases h.window
  · rw [hw, hw']
    exact .none
  · rw [hw, hw']
    refine .some ⟨hwindow.base.symm, hwindow.bytes.length.symm, fun i hi => ?_⟩
    rw [← hwindow.base] at hi
    exact (hwindow.bytes.bytes i hi).symm

namespace BytesAgreeOn

variable {start : Nat} {bytes bytes' : List UInt8}

theorem drop (h : BytesAgreeOn S start bytes bytes') (n : Nat) :
    BytesAgreeOn S (start + n) (bytes.drop n) (bytes'.drop n) := by
  refine ⟨by rw [List.length_drop, List.length_drop, h.length], fun i hi => ?_⟩
  rw [List.getElem?_drop, List.getElem?_drop]
  exact h.bytes (n + i) (by rwa [← Nat.add_assoc])

theorem take (h : BytesAgreeOn S start bytes bytes') (n : Nat) :
    BytesAgreeOn S start (bytes.take n) (bytes'.take n) := by
  refine ⟨by rw [List.length_take, List.length_take, h.length], fun i hi => ?_⟩
  rw [List.getElem?_take, List.getElem?_take, h.bytes i hi]

/-- Sequences that agree at all the first addresses start alike. -/
theorem take_eq (h : BytesAgreeOn S start bytes bytes') {n : Nat} (hS : ∀ i < n, S (start + i)) :
    bytes.take n = bytes'.take n := by
  apply List.ext_getElem?
  intro i
  rw [List.getElem?_take, List.getElem?_take]
  split
  · exact h.bytes i (hS i ‹_›)
  · rfl

/-- Decoding looks at the bytes of the instruction and no further. Failures are another matter:
bytes that are missing may be anywhere. -/
theorem decode_ok (h : BytesAgreeOn S start bytes bytes') {inst : Instruction} {rest : List UInt8}
    (hdecode : Instruction.decode bytes = .ok (inst, rest)) (hS : ∀ i < inst.size, S (start + i)) :
    ∃ rest', Instruction.decode bytes' = .ok (inst, rest') := by
  obtain ⟨code, rfl, hstands⟩ := Instruction.decode_inv hdecode
  have htake := h.take_eq hS
  rw [List.take_left' hstands.size] at htake
  refine ⟨bytes'.drop inst.size, ?_⟩
  rw [← List.take_append_drop inst.size bytes', ← htake, hstands.decode, htake,
    List.take_append_drop]

end BytesAgreeOn

/-- What can be read ahead agrees where memories do. It is of one length, which is a matter of
layout. -/
theorem Memory.AgreeOn.readableFrom {m m' : Memory} (hm : m.Ordered) (h : m.AgreeOn S m')
    (pc : UInt32) : BytesAgreeOn S pc.toNat (m.readableFrom pc) (m'.readableFrom pc) := by
  have hlength := length_readableFrom_congr h.blank pc
  refine ⟨hlength, fun i hi => ?_⟩
  by_cases hlt : i < (m.readableFrom pc).length
  · rw [getElem?_readableFrom hm hlt,
      getElem?_readableFrom (ordered_of_blank h.blank hm) (hlength ▸ hlt), h.bytes _ hi]
  · rw [List.getElem?_eq_none (by omega), List.getElem?_eq_none (by omega)]

end

/-! ### The cached bytes -/

namespace CodeCache

/-- The cached bytes from an address on; none where the cache is of no use. -/
def cached (c : CodeCache) (pc : UInt32) : List UInt8 :=
  (c.hit? pc).elim [] fun w => w.bytes.drop (pc.toNat - w.base.toNat)

/-- How many bytes a fetch of an instruction of some size looks at: the instruction's, and those of
the cache if they end inside an instruction. The latter may be more, if memory has changed since
they were read. -/
def examined (c : CodeCache) (pc : UInt32) (size : Nat) : Nat :=
  match Instruction.decode (c.cached pc) with
  | .error .short => max size (c.cached pc).length
  | _ => size

theorem size_le_examined (c : CodeCache) (pc : UInt32) (size : Nat) :
    size ≤ c.examined pc size := by
  unfold examined
  split
  · exact Nat.le_max_left _ _
  · exact Nat.le_refl _

variable {S : Nat → Prop} {c c' : CodeCache}

theorem AgreeOn.hit? (h : c.AgreeOn S c') (pc : UInt32) :
    Option.Rel (CodeWindow.AgreeOn S) (c.hit? pc) (c'.hit? pc) := by
  unfold CodeCache.hit?
  obtain ⟨hw, hw'⟩ | ⟨w, w', hw, hw', hwindow⟩ := optionRel_cases h.window
  · rw [hw, hw']
    exact .none
  · simp only [hw, hw', ← hwindow.base, ← hwindow.bytes.length, ← h.spill]
    split
    · exact .some hwindow
    · exact .none

theorem AgreeOn.cached (h : c.AgreeOn S c') (pc : UInt32) :
    BytesAgreeOn S pc.toNat (c.cached pc) (c'.cached pc) := by
  unfold CodeCache.cached
  obtain ⟨hw, hw'⟩ | ⟨w, w', hw, hw', hwindow⟩ := optionRel_cases (h.hit? pc)
  · rw [hw, hw']
    exact ⟨rfl, fun _ _ => rfl⟩
  · obtain ⟨-, hbase, -⟩ := hit?_eq_some hw
    have hdrop := hwindow.bytes.drop (pc.toNat - w.base.toNat)
    rw [Nat.add_sub_cancel' (UInt32.le_iff_toNat_le.mp hbase)] at hdrop
    rw [hw, hw', Option.elim_some, Option.elim_some, ← hwindow.base]
    exact hdrop

end CodeCache

/-! ### Fetches that succeed -/

section

variable {m : Memory} {pc : UInt32} {c : CodeCache} {inst : Instruction}

theorem decodeCode_eq_ok {code : List UInt8} :
    decodeCode pc code = .ok inst ↔ ∃ rest, Instruction.decode code = .ok (inst, rest) := by
  unfold decodeCode
  cases Instruction.decode code with
  | error e => cases e <;> simp
  | ok found =>
      obtain ⟨found, rest⟩ := found
      simp

/-- Reading nothing gives nothing. -/
theorem readablePart_zero {bytes : List UInt8} (h : readablePart m pc 0 = .ok bytes) :
    bytes = [] := by
  unfold readablePart at h
  obtain ⟨e, -, hread⟩ | ⟨-, r, -, -, hread⟩ := m.read_cases pc 0
  · rw [hread] at h
    dsimp only at h
    rw [bisectReadable, dif_neg (by omega)] at h
    cases h
  · rw [hread, List.take_zero] at h
    exact (Except.ok.inj h).symm

/-- Doubling nothing gets nowhere, so a cache without room never succeeds. -/
theorem decodeLong_zero (m : Memory) (pc : UInt32) (fuel : Nat) :
    decodeLong m pc fuel 0 ≠ .ok inst := by
  induction fuel with
  | zero => simp [decodeLong]
  | succ fuel ih =>
      intro h
      rw [decodeLong, Nat.zero_min] at h
      cases hpart : readablePart m pc 0 with
      | error e => simp [hpart] at h
      | ok bytes =>
          obtain rfl := readablePart_zero hpart
          have hmax : ¬ 0 = Instruction.maxSize := by decide
          simp only [hpart, Instruction.decode, List.length_nil, Nat.lt_irrefl, if_false, hmax,
            Nat.mul_zero] at h
          exact ih h

/-- Where nothing can be read nothing long is decoded. -/
theorem decodeLong_of_unreadable (hcode : m.readableFrom pc = []) {fuel size : Nat}
    (hsize : 0 < size) : decodeLong m pc fuel size ≠ .ok inst := by
  cases fuel with
  | zero => simp [decodeLong]
  | succ fuel =>
      have hmax : 0 < Instruction.maxSize := by decide
      have hpos : 0 < min size Instruction.maxSize := by omega
      obtain ⟨e, -, hpart⟩ := readablePart_eq_error hpos hcode
      rw [decodeLong, hpart]
      simp

/-- A refill succeeds where an instruction can be read from memory. What the cache held before plays
no role. -/
theorem refetch_eq_ok (refills : Nat) :
    (refetch m pc c refills).outcome = .ok inst ↔
      0 < c.size ∧ ∃ rest, Instruction.decode (m.readableFrom pc) = .ok (inst, rest) := by
  by_cases hsize : 0 < c.size
  · by_cases hcode : m.readableFrom pc = []
    · obtain ⟨e, -, heq⟩ := refetch_of_unreadable hcode hsize refills
      simp [heq, hcode, Instruction.decode]
    · rw [refetch_of_readable hcode hsize, decodeCode_eq_ok, and_iff_right hsize]
  · obtain hzero : c.size = 0 := by omega
    refine iff_of_false ?_ (by simp [hzero])
    unfold refetch readWindow
    rw [hzero]
    cases hpart : readablePart m pc 0 with
    | error e => simp
    | ok bytes =>
        obtain rfl := readablePart_zero hpart
        simpa [decodeAtStart, Instruction.decode] using decodeLong_zero m pc _

/-- A window that ends inside an instruction is of use only if it is full; then the instruction is
read from memory. One that is not full has ended where memory ends. -/
theorem decodeAtStart_eq_ok {size : Nat} {w : CodeWindow}
    (hshort : Instruction.decode w.bytes = .error .short) :
    decodeAtStart m size w = .ok inst ↔
      0 < size ∧ size ≤ w.bytes.length ∧
        ∃ rest, Instruction.decode (m.readableFrom w.base) = .ok (inst, rest) := by
  have hbound := Instruction.length_lt_of_decode_short hshort
  unfold decodeAtStart
  rw [hshort]
  dsimp only
  by_cases hlt : w.bytes.length < size
  · rw [if_pos hlt]
    exact iff_of_false (by simp) (by omega)
  · rw [if_neg hlt]
    by_cases hsize : 0 < size
    · by_cases hcode : m.readableFrom w.base = []
      · refine iff_of_false (decodeLong_of_unreadable hcode (by omega)) ?_
        simp [hcode, Instruction.decode]
      · rw [decodeLong_of_lt hcode hsize (by omega), decodeCode_eq_ok, and_iff_right hsize,
          and_iff_right (by omega)]
    · obtain rfl : size = 0 := by omega
      exact iff_of_false (decodeLong_zero m w.base _) (by omega)

/-- A fetch that the cached bytes are enough for does not look at memory. -/
theorem fetch_of_cached {rest : List UInt8}
    (h : Instruction.decode (c.cached pc) = .ok (inst, rest)) :
    fetch m pc c = ⟨c, 0, .ok inst⟩ := by
  unfold CodeCache.cached at h
  unfold fetch
  cases hhit : c.hit? pc with
  | none => simp [hhit, Instruction.decode] at h
  | some w =>
      rw [hhit, Option.elim_some] at h
      simp only [h]

/-- A fetch that the cached bytes are not enough for. It depends on where the window starts whether
the cache is filled again. -/
theorem fetch_of_short (h : Instruction.decode (c.cached pc) = .error .short) :
    fetch m pc c = (c.hit? pc).elim (refetch m pc c 0) fun w =>
      if w.base = pc then ⟨c, 0, decodeAtStart m c.size w⟩ else refetch m pc c 0 := by
  unfold CodeCache.cached at h
  unfold fetch
  cases hhit : c.hit? pc with
  | none => rfl
  | some w =>
      rw [hhit, Option.elim_some] at h
      simp only [h, Option.elim_some]

/-- Cached bytes that no instruction starts with make a fetch fail. -/
theorem fetch_of_unknown (h : Instruction.decode (c.cached pc) = .error .unknownOpcode) :
    (fetch m pc c).outcome ≠ .ok inst := by
  unfold CodeCache.cached at h
  unfold fetch
  cases hhit : c.hit? pc with
  | none => simp [hhit, Instruction.decode] at h
  | some w =>
      rw [hhit, Option.elim_some] at h
      simp [h]

/-! ### Agreement is kept -/

variable {S : Nat → Prop} {m' : Memory} {c' : CodeCache}

/-- Refills of agreeing caches from agreeing memories find the same instruction and agree again. -/
theorem refetch_agree (hm : m.Ordered) (hmemory : m.AgreeOn S m') (hcache : c.AgreeOn S c')
    {refills : Nat} (h : (refetch m pc c refills).outcome = .ok inst)
    (hS : ∀ i < inst.size, S (pc.toNat + i)) :
    (refetch m' pc c' refills).outcome = .ok inst ∧
      (refetch m' pc c' refills).refills = (refetch m pc c refills).refills ∧
      (refetch m pc c refills).cache.AgreeOn S (refetch m' pc c' refills).cache := by
  obtain ⟨hsize, rest, hdecode⟩ := (refetch_eq_ok refills).mp h
  have hahead := hmemory.readableFrom hm pc
  obtain ⟨rest', hdecode'⟩ := hahead.decode_ok hdecode hS
  have hcode : m.readableFrom pc ≠ [] := by
    intro hnil
    rw [hnil] at hdecode
    cases hdecode
  have hcode' : m'.readableFrom pc ≠ [] := by
    intro hnil
    rw [hnil] at hdecode'
    cases hdecode'
  have hsize' : 0 < c'.size := hcache.size ▸ hsize
  refine ⟨(refetch_eq_ok refills).mpr ⟨hsize', rest', hdecode'⟩, ?_⟩
  rw [refetch_of_readable hcode hsize, refetch_of_readable hcode' hsize']
  refine ⟨rfl, hcache.size, hcache.spill, .some ⟨rfl, ?_⟩⟩
  rw [← hcache.size]
  exact hahead.take c.size

/-- A window that ends inside an instruction, with agreeing memories behind it. -/
theorem decodeAtStart_agree (hm : m.Ordered) (hmemory : m.AgreeOn S m') {size : Nat}
    {w : CodeWindow} (hshort : Instruction.decode w.bytes = .error .short)
    (h : decodeAtStart m size w = .ok inst) (hS : ∀ i < inst.size, S (w.base.toNat + i)) :
    decodeAtStart m' size w = .ok inst := by
  obtain ⟨hsize, hfull, rest, hdecode⟩ := (decodeAtStart_eq_ok hshort).mp h
  obtain ⟨rest', hdecode'⟩ := (hmemory.readableFrom hm w.base).decode_ok hdecode hS
  exact (decodeAtStart_eq_ok hshort).mpr ⟨hsize, hfull, rest', hdecode'⟩

theorem CodeCache.cached_of_base {w : CodeWindow} (hhit : c.hit? pc = some w)
    (hbase : w.base = pc) : c.cached pc = w.bytes := by
  rw [cached, hhit, Option.elim_some, hbase, Nat.sub_self, List.drop_zero]

/-- A fetch that the cached bytes are not enough for, when they are the same. That they are is
ensured by looking at all of them (`examined`). -/
theorem fetch_agree_of_short (hm : m.Ordered) (hmemory : m.AgreeOn S m') (hcache : c.AgreeOn S c')
    (hshort : Instruction.decode (c.cached pc) = .error .short) (hsame : c.cached pc = c'.cached pc)
    (h : (fetch m pc c).outcome = .ok inst) (hS : ∀ i < inst.size, S (pc.toNat + i)) :
    (fetch m' pc c').outcome = .ok inst ∧
      (fetch m' pc c').refills = (fetch m pc c).refills ∧
      (fetch m pc c).cache.AgreeOn S (fetch m' pc c').cache := by
  have hrel := hcache.hit? pc
  rw [fetch_of_short hshort] at h ⊢
  rw [fetch_of_short (hsame ▸ hshort)]
  obtain ⟨hhit, hhit'⟩ | ⟨w, w', hhit, hhit', hwindow⟩ := optionRel_cases hrel
  · rw [hhit] at h
    rw [hhit, hhit']
    exact refetch_agree hm hmemory hcache h hS
  · rw [hhit, Option.elim_some] at h
    rw [hhit, hhit', Option.elim_some, Option.elim_some, ← hwindow.base]
    by_cases hbase : w.base = pc
    · -- the windows start at `pc`, so they are the cached bytes
      have hbytes := CodeCache.cached_of_base hhit hbase
      have hbytes' := CodeCache.cached_of_base hhit' (hwindow.base ▸ hbase)
      have hwindows : w = w' := by
        cases w
        cases w'
        exact congrArg₂ CodeWindow.mk hwindow.base (hbytes.symm.trans (hsame.trans hbytes'))
      subst hwindows
      rw [if_pos hbase] at h ⊢
      rw [if_pos hbase, ← hcache.size]
      exact ⟨decodeAtStart_agree hm hmemory (hbytes ▸ hshort) h (hbase ▸ hS), rfl, hcache⟩
    · rw [if_neg hbase] at h ⊢
      rw [if_neg hbase]
      exact refetch_agree hm hmemory hcache h hS

/-- A fetch is determined by the bytes it looks at: whatever else memory and the cache hold, it
finds the same instruction, refills as often, and leaves caches that agree again.

The proof splits by what decoding the cached bytes comes to. If that succeeds, they are enough; if
it runs short, all of them were looked at; and otherwise the fetch would not have succeeded. -/
theorem fetch_agree (hm : m.Ordered) (hmemory : m.AgreeOn S m') (hcache : c.AgreeOn S c')
    (h : (fetch m pc c).outcome = .ok inst) (hS : ∀ i < c.examined pc inst.size, S (pc.toNat + i)) :
    (fetch m' pc c').outcome = .ok inst ∧
      (fetch m' pc c').refills = (fetch m pc c).refills ∧
      (fetch m pc c).cache.AgreeOn S (fetch m' pc c').cache ∧
      c'.examined pc inst.size = c.examined pc inst.size := by
  have hcached := hcache.cached pc
  have hinst : ∀ i < inst.size, S (pc.toNat + i) :=
    fun i hi => hS i (Nat.lt_of_lt_of_le hi (c.size_le_examined pc inst.size))
  unfold CodeCache.examined at hS ⊢
  cases hdecode : Instruction.decode (c.cached pc) with
  | ok found =>
      obtain ⟨found, rest⟩ := found
      rw [fetch_of_cached hdecode] at h ⊢
      obtain rfl : found = inst := Except.ok.inj h
      obtain ⟨rest', hdecode'⟩ := hcached.decode_ok hdecode hinst
      rw [fetch_of_cached hdecode', hdecode']
      exact ⟨rfl, rfl, hcache, rfl⟩
  | error e =>
      cases e with
      | unknownOpcode => exact absurd h (fetch_of_unknown hdecode)
      | short =>
          rw [hdecode] at hS
          have hall : ∀ i < (c.cached pc).length, S (pc.toNat + i) :=
            fun i hi => hS i (Nat.lt_of_lt_of_le hi (Nat.le_max_right _ _))
          have hsame : c.cached pc = c'.cached pc := by
            have htake := hcached.take_eq hall
            rwa [List.take_length, hcached.length, List.take_length] at htake
          obtain ⟨hok, hrefills, hagree⟩ :=
            fetch_agree_of_short hm hmemory hcache hdecode hsame h hinst
          refine ⟨hok, hrefills, hagree, ?_⟩
          rw [← hsame, hdecode]

end

end RegisterVM
