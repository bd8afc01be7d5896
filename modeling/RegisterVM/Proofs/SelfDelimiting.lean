import RegisterVM.Instruction.Listing
import RegisterVM.Proofs.FaultAtomicity
import RegisterVM.Proofs.ReadBack
import RegisterVM.Proofs.Segments

/-!
# The instruction stream delimits itself

How long an instruction is stands in the instruction: in its opcode, in the first bit of a number,
in the count of a register list. Reading therefore never looks past the last byte and never stops
before it, so that instructions can be written one after the other with nothing between them. A
reader that is given the longest instruction's worth of bytes always knows what it has; this is why
a processor, which reads more and more until it knows, never has to give up on code that is there.
-/

namespace RegisterVM

/-! ### Cutting and extending -/

namespace Instruction

/-- Code that is cut anywhere is too short. Were it anything else, it would be the same with the
rest behind it. -/
theorem StandsAs.decode_take {inst : Instruction} {code : List UInt8} (h : inst.StandsAs code)
    {k : Nat} (hk : k < code.length) : Instruction.decode (code.take k) = .error .short := by
  have hwhole : Instruction.decode code = .ok (inst, []) := by simpa using h.decode []
  cases hdecode : Instruction.decode (code.take k) with
  | ok found =>
      -- what the cut code holds the whole code holds too, but that is longer
      obtain ⟨other, rest⟩ := found
      have happend := decode_append hdecode (code.drop k)
      rw [List.take_append_drop, hwhole] at happend
      obtain ⟨rfl, -⟩ := Prod.mk.inj (Except.ok.inj happend)
      obtain ⟨front, hfront, hstands⟩ := decode_inv hdecode
      have hlength := congrArg List.length hfront
      rw [List.length_append, hstands.size, ← h.size, List.length_take] at hlength
      omega
  | error e =>
      cases e with
      | short => rfl
      | unknownOpcode =>
          obtain ⟨happend, -⟩ := decode_append_unknown hdecode (code.drop k)
          rw [List.take_append_drop, hwhole] at happend
          cases happend

end Instruction

namespace Slots

/-- What a record holds, with its length, is all that there is in it. Records have no other
state. -/
theorem Holds.unique {a b : Slots} {inst : Instruction} (ha : a.Holds inst) (hb : b.Holds inst)
    (hsize : a.size = b.size) : a = b := by
  have hopcode : a.opcode = b.opcode := ha.opcode.trans hb.opcode.symm
  have hfamily : a.family = b.family := ha.family.trans hb.family.symm
  have hlist : a.list = b.list := ha.list.trans hb.list.symm
  have hargs : a.args = b.args := by
    apply Vector.ext
    intro j hj
    have hsame := (ha.args j hj).trans (hb.args j hj).symm
    simpa [hj] using hsame
  have hlongs : a.longs = b.longs := by
    apply Vector.ext
    intro j hj
    have hsame := (ha.longs j hj).trans (hb.longs j hj).symm
    simpa [hj] using hsame
  have hwide : a.wide = b.wide := by
    apply Nat.eq_of_testBit_eq
    intro j
    rw [ha.wide, hb.wide]
  cases a
  cases b
  simp_all

/-- Code is loaded into the same record whatever the record held before and whatever comes after. -/
theorem load_standsAs {inst : Instruction} {code : List UInt8} (h : inst.StandsAs code) :
    ∃ slots : Slots, slots.Holds inst ∧ ∀ (previous : Slots) (more : List UInt8),
      previous.load (code ++ more) = some (slots, .ok inst.size) := by
  have hload (previous : Slots) (more : List UInt8) : ∃ slots : Slots,
      previous.load (code ++ more) = some (slots, .ok inst.size) ∧ slots.Holds inst ∧
        slots.size = inst.size := by
    obtain ⟨slots, hload, -, hholds⟩ := load_eq (code ++ more) previous
    rw [h.decode] at hload
    exact ⟨slots, hload, hholds inst more (h.decode more)⟩
  obtain ⟨slots, -, hholds, hsize⟩ := hload (blank 0 0) []
  refine ⟨slots, hholds, ?_⟩
  intro previous more
  obtain ⟨other, hother, hholds', hsize'⟩ := hload previous more
  rw [hother, hholds'.unique hholds (hsize'.trans hsize.symm)]

end Slots

/-! ### Streams -/

namespace Instruction

/-- Instructions that stand one after the other, each with its place. -/
def placesFrom : (offset : Nat) → List Instruction → List (Nat × Instruction)
  | _, [] => []
  | offset, inst :: rest => (offset, inst) :: placesFrom (offset + inst.size) rest

/-- Instructions that stand one after the other are listed one by one, up to the end. The induction
is on the instructions; each leaves the others as the input. -/
theorem listingFrom_flatten {insts : List Instruction} {codes : List (List UInt8)}
    (h : List.Forall₂ StandsAs insts codes) {fuel offset : Nat}
    (hfuel : codes.flatten.length ≤ fuel) :
    listingFrom fuel offset codes.flatten = (placesFrom offset insts, none) := by
  induction h generalizing fuel offset with
  | nil => cases fuel <;> rfl
  | @cons inst code insts codes hfirst _ ih =>
      have hsize : 0 < inst.size := by
        rw [Instruction.size]
        omega
      rw [List.flatten_cons] at hfuel ⊢
      rw [List.length_append, hfirst.size] at hfuel
      obtain ⟨fuel, rfl⟩ : ∃ left, fuel = left + 1 := ⟨fuel - 1, by omega⟩
      cases hstream : code ++ codes.flatten with
      | nil =>
          have hlength := congrArg List.length hstream
          rw [List.length_append, hfirst.size, List.length_nil] at hlength
          omega
      | cons b stream =>
          rw [listingFrom, ← hstream, hfirst.decode]
          · simp only [placesFrom, ih (show codes.flatten.length ≤ fuel by omega)]
          · intro hnil
            cases hnil

end Instruction

namespace Slots

/-- A record that can be encoded has code that stands for the same opcode and operands. -/
theorem standsAs_of_append {slots : Slots} {code : List UInt8}
    (h : slots.append [] = some (.ok code)) :
    ∃ inst : Instruction, inst.StandsAs code ∧ inst.narrow = slots.instruction.narrow := by
  have hfits : slots.instruction.Fits := Instruction.fits_ofPositions _ _ _ _ _
  rw [append_instruction] at h
  cases hencode : slots.instruction.encode with
  | error e => simp [hencode, Except.map] at h
  | ok written =>
      obtain rfl : written = code := by simpa [hencode, Except.map] using h
      obtain ⟨code', inst, hencode', hstands, hsame⟩ :=
        (Instruction.encodable_of_encode hfits hencode).encode hfits
      obtain rfl := Except.ok.inj (hencode.symm.trans hencode')
      exact ⟨inst, hstands, hsame⟩

/-- Records that are encoded one after the other are found again in the stream, one by one. -/
theorem standAs_of_append {records : List Slots} {codes : List (List UInt8)}
    (h : List.Forall₂ (fun slots code => slots.append [] = some (.ok code)) records codes) :
    ∃ insts : List Instruction, List.Forall₂ Instruction.StandsAs insts codes ∧
      List.Forall₂ (fun inst slots => inst.narrow = slots.instruction.narrow) insts records := by
  induction h with
  | nil => exact ⟨[], .nil, .nil⟩
  | cons hfirst _ ih =>
      obtain ⟨inst, hstands, hsame⟩ := standsAs_of_append hfirst
      obtain ⟨insts, hothers, hsames⟩ := ih
      exact ⟨inst :: insts, .cons hstands hothers, .cons hsame hsames⟩

end Slots

/-! ### What a computation can fail with -/

/-- Whatever the computation fails with has the property. The rules below follow the ways in which
computations are put together. -/
def FailsOnly {ε α : Type} (P : ε → Prop) (x : Except ε α) : Prop := ∀ e, x = .error e → P e

namespace FailsOnly

variable {ε δ α β : Type} {P : ε → Prop}

theorem ok (a : α) : FailsOnly P (.ok a) := by
  intro e h
  cases h

theorem error {e : ε} (h : P e) : FailsOnly P (.error e : Except ε α) := by
  intro e' h'
  cases h'
  exact h

theorem bind {x : Except ε α} {f : α → Except ε β} (hx : FailsOnly P x)
    (hf : ∀ a, FailsOnly P (f a)) : FailsOnly P (x >>= f) := by
  intro e h
  cases x with
  | error e' =>
      cases h
      exact hx _ rfl
  | ok a => exact hf a e h

theorem mapError {x : Except δ α} {g : δ → ε} (h : FailsOnly (fun d => P (g d)) x) :
    FailsOnly P (x.mapError g) := by
  intro e he
  cases x with
  | error d =>
      cases he
      exact h d rfl
  | ok a => cases he

theorem mapM {f : α → Except ε β} (hf : ∀ a, FailsOnly P (f a)) (list : List α) :
    FailsOnly P (list.mapM f) := by
  induction list with
  | nil => exact .ok []
  | cons a rest ih =>
      rw [List.mapM_cons]
      exact .bind (hf a) fun b => .bind ih fun bs => .ok (b :: bs)

end FailsOnly

/-! ### No instruction is found malformed -/

/-- The cause is another than a malformed instruction. -/
def FaultCause.Sound (cause : FaultCause) : Prop := cause ≠ .invalidInstruction

section

variable {m : Memory} {pc : UInt32}

/-- Reads that may double often enough never end without an answer: once the longest instruction's
worth of bytes is there, it cannot be too short. -/
theorem decodeLong_sound {fuel size : Nat} (hsize : 0 < size) (hlt : size < 2 * Instruction.maxSize)
    (hfuel : 2 * Instruction.maxSize ≤ size * 2 ^ fuel) :
    FailsOnly (fun fault => fault.cause.Sound) (decodeLong m pc fuel size) := by
  induction fuel generalizing size with
  | zero => omega
  | succ fuel ih =>
      rw [decodeLong]
      split
      · exact .error (by simp [FaultCause.Sound])
      · split
        · exact .ok _
        · exact .error (by simp [FaultCause.Sound])
        · rename_i hshort
          split
          · exact .error (by simp [FaultCause.Sound, truncatedFault])
          · split
            · have hless := Instruction.length_lt_of_decode_short hshort
              omega
            · have hmin : min size Instruction.maxSize = size := by omega
              rw [hmin]
              exact ih (by omega) (by omega) (le_double hfuel)

theorem decodeAtStart_sound {size : Nat} (hsize : 0 < size) (w : CodeWindow) :
    FailsOnly (fun fault => fault.cause.Sound) (decodeAtStart m size w) := by
  rw [decodeAtStart]
  split
  · exact .ok _
  · exact .error (by simp [FaultCause.Sound])
  · rename_i hshort
    split
    · exact .error (by simp [FaultCause.Sound, truncatedFault])
    · have hless := Instruction.length_lt_of_decode_short hshort
      exact decodeLong_sound (by omega) (by omega) (enough_doublings hsize)

/-- A refill has enough fuel for that, whatever the size of the cache. -/
theorem refetch_sound {c : CodeCache} (hsize : 0 < c.size) (refills : Nat) :
    FailsOnly (fun fault => fault.cause.Sound) (refetch m pc c refills).outcome := by
  rw [refetch, readWindow]
  cases readablePart m pc c.size with
  | error e => exact .error (by simp [FaultCause.Sound])
  | ok bytes => exact decodeAtStart_sound hsize _

/-- A fetch through a cache of any size and content never finds an instruction malformed. -/
theorem fetch_sound {c : CodeCache} (hsize : 0 < c.size) :
    FailsOnly (fun fault => fault.cause.Sound) (fetch m pc c).outcome := by
  rw [fetch]
  split
  · exact refetch_sound hsize 0
  · dsimp only
    split
    · exact .ok _
    · exact .error (by simp [FaultCause.Sound])
    · split
      · exact decodeAtStart_sound hsize _
      · exact refetch_sound hsize 0

end

theorem namedRegister_sound (v : Int32) : FailsOnly FaultCause.Sound (namedRegister v) := by
  rw [namedRegister]
  split
  · exact .ok _
  · exact .error (by simp [FaultCause.Sound])

theorem pairedRegister_sound (r : Register) :
    FailsOnly FaultCause.Sound (pairedRegister r) := by
  rw [pairedRegister]
  split
  · exact .ok _
  · exact .error (by simp [FaultCause.Sound])

/-- What was decoded asks for an operation, names a register that is none, or is not supported.
Operands of a wrong shape do not come from decoding. -/
theorem Operation.ofInstruction_sound {opcode : UInt8} {operands : List Operand} {op : Opcode}
    (hop : Opcode.ofByte? opcode = some op) (hfits : Operand.FitAll op.formats operands) :
    FailsOnly FaultCause.Sound (ofInstruction ⟨opcode, operands⟩) := by
  -- the formats of an opcode give its operands their shape, and with it one branch of the
  -- definition
  cases op with
  | math kind op =>
      obtain _ | ⟨⟨⟩, _ | ⟨⟨⟩, _ | ⟨⟨⟩, ⟨⟩⟩⟩⟩ := hfits
      cases kind <;> simp only [ofInstruction, hop]
      · exact .bind (namedRegister_sound _) fun _ => .bind (namedRegister_sound _) fun _ =>
          .bind (namedRegister_sound _) fun _ => .ok _
      all_goals exact .error (by simp [FaultCause.Sound])
  | mathConst kind op =>
      cases kind <;> obtain _ | ⟨⟨⟩, _ | ⟨⟨⟩, _ | ⟨⟨⟩, ⟨⟩⟩⟩⟩ :=
        hfits <;> simp only [ofInstruction, hop]
      · exact .bind (namedRegister_sound _) fun _ => .bind (namedRegister_sound _) fun _ => .ok _
      all_goals exact .error (by simp [FaultCause.Sound])
  | branch condition =>
      obtain _ | ⟨⟨⟩, _ | ⟨⟨⟩, _ | ⟨⟨⟩, ⟨⟩⟩⟩⟩ := hfits
      simp only [ofInstruction, hop]
      exact .bind (namedRegister_sound _) fun _ => .bind (namedRegister_sound _) fun _ => .ok _
  | branchConst =>
      obtain _ | ⟨⟨⟩, _ | ⟨⟨⟩, _ | ⟨⟨⟩, ⟨⟩⟩⟩⟩ := hfits
      simp only [ofInstruction, hop]
      exact .bind (namedRegister_sound _) fun _ => .ok _
  | invoke =>
      obtain _ | ⟨⟨⟩, _ | ⟨⟨⟩, ⟨⟩⟩⟩ := hfits
      simp only [ofInstruction, hop]
      exact .bind (namedRegister_sound _) fun _ =>
        .bind (.mapM namedRegister_sound _) fun _ => .ok _
  | «return» | entryMarker =>
      obtain ⟨⟩ := hfits
      simp only [ofInstruction, hop]
      exact .ok _
  | increment =>
      obtain _ | ⟨⟨⟩, _ | ⟨⟨⟩, ⟨⟩⟩⟩ := hfits
      simp only [ofInstruction, hop]
      exact .bind (namedRegister_sound _) fun _ => .ok _
  | decrement =>
      obtain _ | ⟨⟨⟩, _ | ⟨⟨⟩, _ | ⟨⟨⟩, ⟨⟩⟩⟩⟩ := hfits
      simp only [ofInstruction, hop]
      exact .bind (namedRegister_sound _) fun _ => .bind (namedRegister_sound _) fun _ => .ok _
  | loadPool =>
      simp only [ofInstruction, hop]
      exact .error (by simp [FaultCause.Sound])
  | memory direction type =>
      obtain _ | ⟨⟨⟩, _ | ⟨⟨⟩, _ | ⟨⟨⟩, ⟨⟩⟩⟩⟩ := hfits
      simp only [ofInstruction, hop]
      exact .bind (namedRegister_sound _) fun _ => .bind (namedRegister_sound _) fun _ =>
        .bind (namedRegister_sound _) fun _ => .ok _
  | memoryConst direction type =>
      obtain _ | ⟨⟨⟩, _ | ⟨⟨⟩, _ | ⟨⟨⟩, ⟨⟩⟩⟩⟩ := hfits
      simp only [ofInstruction, hop]
      exact .bind (namedRegister_sound _) fun _ => .bind (namedRegister_sound _) fun _ => .ok _
  | convert source target =>
      obtain _ | ⟨⟨⟩, _ | ⟨⟨⟩, ⟨⟩⟩⟩ := hfits
      simp only [ofInstruction, hop]
      exact .bind (namedRegister_sound _) fun _ => .bind (namedRegister_sound _) fun _ => .ok _

section

variable {f : Frame} {m : Memory}

theorem refuse_sound {α : Type} (address : UInt32) (x : Except AccessError α) :
    FailsOnly (fun refusal => FaultCause.Sound refusal.1) (x.mapError (refuse address)) := by
  apply FailsOnly.mapError
  intro e _
  simp [FaultCause.Sound, refuse]

theorem updateWord_sound (address : UInt32) (change : UInt32 → UInt32) :
    FailsOnly (fun refusal => FaultCause.Sound refusal.1) (updateWord m address change) :=
  .bind (refuse_sound _ _) fun _ => .bind (refuse_sound _ _) fun _ => .ok _

theorem loadEffect_sound (type : DataType) (dest base : Register) (offset : Source) :
    FailsOnly (fun refusal => FaultCause.Sound refusal.1)
        (loadEffect f m type dest base offset) := by
  rw [loadEffect]
  split
  · exact .bind (.mapError (pairedRegister_sound _)) fun _ =>
      .bind (refuse_sound _ _) fun _ => .ok _
  · exact .bind (refuse_sound _ _) fun _ => .ok _

theorem storeEffect_sound (type : DataType) (source base : Register) (offset : Source) :
    FailsOnly (fun refusal => FaultCause.Sound refusal.1)
        (storeEffect f m type source base offset) := by
  rw [storeEffect]
  dsimp only
  split
  · exact .bind (.mapError (pairedRegister_sound _)) fun _ => .bind (.ok _) fun _ =>
      .bind (refuse_sound _ _) fun _ => .ok _
  · exact .bind (.ok _) fun _ => .bind (refuse_sound _ _) fun _ => .ok _

/-- An operation that fails divides by zero, is refused an access, or lacks a second register. -/
theorem Operation.effect_sound (op : Operation) (next : UInt32) :
    FailsOnly (fun refusal => FaultCause.Sound refusal.1) (op.effect f m next) := by
  cases op with
  | math op left right dest =>
      simp only [effect]
      split
      · exact .error (by simp [FaultCause.Sound])
      · exact .ok _
  | branch => exact .ok _
  | invoke => exact .ok _
  | leave => exact .ok _
  | marker => exact .ok _
  | increment => exact .bind (updateWord_sound _ _) fun _ => .ok _
  | decrement => exact .bind (updateWord_sound _ _) fun _ => .ok _
  | load => exact .bind (loadEffect_sound _ _ _ _) fun _ => .ok _
  | store => exact .bind (storeEffect_sound _ _ _ _) fun _ => .ok _
  | convert => exact .ok _

end

namespace Processor

theorem plan_sound {p : Processor} {m : Memory} {inst : Instruction} {f : Frame} {rest : List Frame}
    (hframes : p.frames = f :: rest) {op : Opcode} (hop : Opcode.ofByte? inst.opcode = some op)
    (hfits : Operand.FitAll op.formats inst.operands) :
    FailsOnly (fun fault => fault.cause.Sound) (p.plan m inst) := by
  rw [plan, hframes]
  dsimp only
  split
  · rename_i cause hcause
    exact .error (Operation.ofInstruction_sound hop hfits cause hcause)
  · rename_i operation _
    split
    · rename_i cause address heffect
      exact .error (operation.effect_sound _ (cause, address) heffect)
    · exact .ok _

theorem size_fetch (m : Memory) (pc : UInt32) (c : CodeCache) :
    (RegisterVM.fetch m pc c).cache.size = c.size := by
  have hrefetch : (refetch m pc c 0).cache.size = c.size := by
    rw [refetch]
    split <;> rfl
  rcases fetch_cases m pc c with heq | ⟨w, -, heq⟩
  · rw [heq, hrefetch]
  · rw [heq]

/-- The cache keeps its size, so what is needed of it at the start holds throughout. -/
theorem size_cache_step (p : Processor) (m : Memory) : (p.step m).1.cache.size = p.cache.size := by
  cases hframes : p.frames with
  | nil => rw [step, hframes]
  | cons f rest =>
      cases hcompletion : p.completion? m with
      | none =>
          obtain ⟨fault, hstep⟩ := step_of_completion?_none hframes hcompletion
          rw [hstep]
          exact size_fetch m f.pc p.cache
      | some c =>
          obtain ⟨f, rest, hcompletes⟩ := completion?_eq_some hcompletion
          rw [step_of_completes hcompletes]
          exact size_fetch m f.pc p.cache

end Processor

namespace Session

variable {σ : Type} {observer : Observer σ} {floor : Nat}

/-- Step lemma: a turn never ends because an instruction is malformed. -/
theorem turn_sound {s after : Session σ} {fault : Fault} (hsize : 0 < s.processor.cache.size)
    (h : s.turn observer floor = (after, some (.fault fault))) : fault.cause.Sound := by
  obtain ⟨f, rest, n, hframes, -, -, hfetch | ⟨inst, hfetch, hplan⟩⟩ := turn_fault_inv h
  · exact fetch_sound hsize fault hfetch
  · obtain ⟨bytes, left, hdecode⟩ := fetch_decoded hfetch
    obtain ⟨code, -, hstands⟩ := Instruction.decode_inv hdecode
    obtain ⟨op, hop, hfits⟩ := hstands.fits
    have hstart := congrArg Processor.frames (s.processor.markStart_eq hframes)
    exact Processor.plan_sound hstart hop hfits fault hplan

/-- Run lemma: no run ends because an instruction is malformed. -/
theorem run_sound {fuel : Nat} {s : Session σ} {fault : Fault} (hsize : 0 < s.processor.cache.size)
    (h : (s.run observer floor fuel).2 = .fault fault) : fault.cause.Sound := by
  induction fuel generalizing s with
  | zero => cases h
  | succ fuel ih =>
      rcases Nat.lt_or_ge floor s.processor.depth with hdepth | hdepth
      · obtain ⟨reason, hturn⟩ | ⟨after, failure, hturn, -⟩ | ⟨after, hturn, hstep⟩ :=
          turn_inv observer hdepth
        · rw [run, hturn] at h
          cases h
        · rw [run, hturn] at h
          cases h
          exact turn_sound hsize hturn
        · rw [run_of_turn hturn] at h
          refine ih ?_ h
          have hkept := s.processor.size_cache_step s.memory
          rw [hstep] at hkept
          exact hkept ▸ hsize
      · rw [run_of_le hdepth] at h
        cases h

end Session

/-! ### The stream -/

namespace Instruction

/-- How an instruction at the front of a buffer is told from what follows it, by the reader and by
the one that loads a record. The buffer beyond the instruction may be replaced by anything; cut
before its end, it is too short for both. -/
structure Delimited (buf : List UInt8) (inst : Instruction) (rest : List UInt8) : Prop where
  size_le : inst.size ≤ maxSize
  size_eq : (buf.take inst.size).length = inst.size
  rest_eq : rest = buf.drop inst.size
  extended : ∀ more, Instruction.decode (buf.take inst.size ++ more) = .ok (inst, more)
  cut : ∀ k < inst.size, Instruction.decode (buf.take k) = .error .short
  loaded : ∃ slots : Slots, slots.Holds inst ∧ ∀ (previous : Slots) (more : List UInt8),
    previous.load (buf.take inst.size ++ more) = some (slots, .ok inst.size)
  loaded_cut : ∀ (previous : Slots), ∀ k < inst.size,
    ∃ left, previous.load (buf.take k) = some (left, .error .short)

/-- Whatever was decoded is delimited so. -/
theorem delimited_of_decode {buf rest : List UInt8} {inst : Instruction}
    (h : Instruction.decode buf = .ok (inst, rest)) : Delimited buf inst rest := by
  obtain ⟨code, rfl, hstands⟩ := decode_inv h
  have hcode : (code ++ rest).take inst.size = code := List.take_left' hstands.size
  have hcut : ∀ k < inst.size, Instruction.decode ((code ++ rest).take k) = .error .short := by
    intro k hk
    rw [← hstands.size] at hk
    rw [List.take_append_of_le_length (Nat.le_of_lt hk)]
    exact hstands.decode_take hk
  exact {
    size_le := hstands.bound
    size_eq := by rw [hcode, hstands.size]
    rest_eq := (List.drop_left' hstands.size).symm
    extended := by
      intro more
      rw [hcode, hstands.decode]
    cut := hcut
    loaded := by
      rw [hcode]
      exact Slots.load_standsAs hstands
    loaded_cut := by
      intro previous k hk
      obtain ⟨left, hload, -⟩ := Slots.load_eq ((code ++ rest).take k) previous
      rw [hcut k hk] at hload
      exact ⟨left, hload⟩ }

/-- The stream delimits itself. An instruction at the front of a buffer is no longer than the
longest, is found whatever follows it and whatever the record held before, and is too short when it
is cut anywhere. Records encoded one after the other are listed one by one, up to the end, each with
the opcode and the operands that were encoded. And no run of a processor, whatever its frames,
memory and cache, ends because an instruction is malformed or too long.

The first two parts rest on code standing for its instruction in front of any rest (`StandsAs`), the
third on the bound for the length of an instruction (`decodeLong_sound`). -/
theorem stream_delimits_itself :
    (∀ buf inst rest, Instruction.decode buf = .ok (inst, rest) → Delimited buf inst rest) ∧
    (∀ (records : List Slots) (codes : List (List UInt8)),
      List.Forall₂ (fun slots code => slots.append [] = some (.ok code)) records codes →
        ∃ insts : List Instruction, listing codes.flatten = (placesFrom 0 insts, none) ∧
          List.Forall₂ (fun inst code => inst.encode = .ok code) insts codes ∧
          List.Forall₂ (fun inst slots => ∀ found : Slots, found.Holds inst → found.Repeats slots)
            insts records) ∧
    ∀ (σ : Type) (observer : Observer σ) (floor fuel : Nat) (s : Session σ) (size spill : Int)
      (window : Option CodeWindow) (fault : Fault),
      s.processor.cache = { CodeCache.ofOptions size spill with window } →
        (s.run observer floor fuel).2 = .fault fault → fault.cause ≠ .invalidInstruction := by
  refine ⟨fun buf inst rest => delimited_of_decode, ?_, ?_⟩
  · intro records codes h
    obtain ⟨insts, hstand, hsame⟩ := Slots.standAs_of_append h
    refine ⟨insts, listingFrom_flatten hstand (Nat.le_refl _), ?_, ?_⟩
    · exact hstand.imp fun inst code hstands => hstands.encode
    · exact hsame.imp fun inst slots hnarrow found hholds => hholds.repeats hnarrow
  · intro σ observer floor fuel s size spill window fault hcache h
    refine Session.run_sound ?_ h
    rw [hcache]
    exact CodeCache.size_ofOptions_pos size spill

/-- A call whose list breaks off, before a processor that reads one byte at a time. -/
def brokenOff : Session Unit where
  processor := (Processor.ofOptions 1 1).enter 0 []
  memory := .region (.ofBytes "code" 0 [0x48, 0x80, 5, 0x80, 2, 0, 3] ⟨true, false⟩)
  observed := ()

theorem stream_delimits_itself_calls :
    let code : List UInt8 := [0x48, 0x80, 5, 0x80, 2, 0, 3, 0, 4]
    let inst : Instruction := ⟨0x48, [.number 5 true, .registers [3, 4] true]⟩
    let codes : List (List UInt8) := [[0x48, 0x80, 0x80, 0x80, 2, 0, 1, 1, 44], [0x49]]
    let records : List Slots := [Slots.leftovers, Slots.blank 0x49 0]
    let fault : Fault := ⟨.access .outOfBounds, 0, 0x48, 7⟩
    (Instruction.decode (code ++ [0xFF]) = .ok (inst, [0xFF]) ∧
      Delimited (code ++ [0xFF]) inst [0xFF]) ∧
      (List.Forall₂ (fun slots code => slots.append [] = some (.ok code)) records codes ∧
        ∃ insts : List Instruction, listing codes.flatten = (placesFrom 0 insts, none) ∧
          List.Forall₂ (fun inst code => inst.encode = .ok code) insts codes ∧
          List.Forall₂ (fun inst slots => ∀ found : Slots, found.Holds inst → found.Repeats slots)
            insts records) ∧
      (brokenOff.run .none 0 1).2 = .fault fault ∧ fault.cause ≠ .invalidInstruction := by
  obtain ⟨hfront, hstream, hrun⟩ := stream_delimits_itself
  have hcall : Slots.leftovers.append [] = some (.ok [0x48, 0x80, 0x80, 0x80, 2, 0, 1, 1, 44]) := by
    rw [Slots.append_instruction]
    rfl
  have hreturn : (Slots.blank 0x49 0).append [] = some (.ok [0x49]) := by
    rw [Slots.append_instruction]
    rfl
  have hfault : (brokenOff.run .none 0 1).2 = .fault ⟨.access .outOfBounds, 0, 0x48, 7⟩ := by
    decide +kernel
  have hrecords : List.Forall₂ (fun (slots : Slots) code => slots.append [] = some (.ok code))
      [Slots.leftovers, Slots.blank 0x49 0] [[0x48, 0x80, 0x80, 0x80, 2, 0, 1, 1, 44], [0x49]] :=
    .cons hcall (.cons hreturn .nil)
  exact ⟨⟨rfl, hfront _ _ _ rfl⟩, ⟨hrecords, hstream _ _ hrecords⟩, hfault,
    hrun Unit .none 0 1 brokenOff 1 1 none _ rfl hfault⟩

end Instruction

end RegisterVM
