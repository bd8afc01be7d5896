import RegisterVM.Proofs.CheckedRun

/-!
# Faults are atomic and repeatable

A step that fails leaves memory, the frames and the counts of completed work as they were; the
innermost frame only notes where the instruction started. The fault names that place and the opcode
byte that stands there, and running again fails in the same way.

A processor that works out an effect before it applies any has nothing to undo. That handlers which
write as they go have nothing to undo either is what `carryOut_atomic` says of each of them; a step
of theirs fails where a step of the processor does, with the same fault, and leaves the same behind.

Nothing is assumed of what was cached before. Whatever a fetch found, it finds again, and a plan
that was refused is refused again because it looks at the frames and at memory alone.
-/

namespace RegisterVM

/-! ### The reported opcode -/

/-- Every cached byte is the byte that memory has at its address. This is weaker than being
coherent: it asks nothing of how far the window reaches, and holds of a cache as long as nobody
writes under it. -/
def CodeCache.Faithful (c : CodeCache) (m : Memory) : Prop :=
  ∀ w, c.window = some w → ∀ i b, w.bytes[i]? = some b →
    m.readByte (w.base + UInt32.ofNat i) = .ok b

/-- The opcode byte that the outcome of a fetch is about, found or not. An access that failed has
none, and reports zero. -/
def reportedOpcode : Except Fault Instruction → UInt8
  | .ok inst => inst.opcode
  | .error fault => fault.opcode

theorem headD_of_decode {bytes rest : List UInt8} {inst : Instruction}
    (h : Instruction.decode bytes = .ok (inst, rest)) : inst.opcode = bytes.headD 0 := by
  cases bytes with
  | nil => simp [Instruction.decode] at h
  | cons opcode tail =>
      rw [Instruction.decode] at h
      split at h
      · cases h
      · split at h
        · cases h
        · cases h
          rfl

/-- Decoding reports the first byte of the code, as an instruction or in a fault. -/
theorem reportedOpcode_decodeCode (pc : UInt32) (code : List UInt8) :
    reportedOpcode (decodeCode pc code) = code.headD 0 := by
  unfold decodeCode
  cases hdecode : Instruction.decode code with
  | ok found => exact headD_of_decode hdecode
  | error e => cases e <;> rfl

section

variable {m : Memory} {pc : UInt32}

/-- The window may end anywhere: what does not fit into it is read from memory. So it is enough that
the window and memory have the first byte in common. -/
theorem reportedOpcode_decodeAtStart (hcode : m.readableFrom pc ≠ []) {size : Nat}
    (hsize : 0 < size) {bytes : List UInt8} (hbytes : bytes.headD 0 = (m.readableFrom pc).headD 0) :
    reportedOpcode (decodeAtStart m size ⟨pc, bytes⟩) = (m.readableFrom pc).headD 0 := by
  unfold decodeAtStart
  cases hdecode : Instruction.decode bytes with
  | ok found => exact (headD_of_decode hdecode).trans hbytes
  | error e =>
      cases e with
      | unknownOpcode => exact hbytes
      | short =>
          dsimp only
          split
          · exact hbytes
          · rename_i hlong
            have hmax := Instruction.length_lt_of_decode_short hdecode
            rw [decodeLong_of_lt hcode hsize (by omega)]
            exact reportedOpcode_decodeCode pc _

/-- What a fetch reports is the byte at its address, if that can be read and the cache is faithful.
A window that is hit has the byte; one that is read anew has it from memory. -/
theorem reportedOpcode_fetch {c : CodeCache} (hsize : 0 < c.size) (hc : c.Faithful m) {b : UInt8}
    (hb : m.readByte pc = .ok b) : reportedOpcode (fetch m pc c).outcome = b := by
  have hhead := Memory.readByte_eq_ok_iff.mp hb
  have hcode : m.readableFrom pc ≠ [] := by
    rintro hnil
    simp [hnil] at hhead
  have hcodeHead : (m.readableFrom pc).headD 0 = b := by
    rw [List.headD_eq_head?_getD, hhead]
    rfl
  have hrefetch : reportedOpcode (refetch m pc c 0).outcome = b := by
    rw [refetch_of_readable hcode hsize]
    exact (reportedOpcode_decodeCode pc _).trans hcodeHead
  unfold fetch
  cases hhit : c.hit? pc with
  | none => exact hrefetch
  | some w =>
      obtain ⟨hwindow, hbase, hlt⟩ := CodeCache.hit?_eq_some hhit
      -- the byte that the window has for `pc`
      have haddress : w.base + UInt32.ofNat (pc.toNat - w.base.toNat) = pc := by
        rw [← UInt32.toNat_sub_of_le _ _ hbase, UInt32.ofNat_toNat, UInt32.add_comm,
          UInt32.sub_add_cancel]
      have hbyte := hc w hwindow _ _ (List.getElem?_eq_getElem hlt)
      rw [haddress, hb] at hbyte
      have hbytes : (w.bytes.drop (pc.toNat - w.base.toNat)).headD 0 = b := by
        rw [List.drop_eq_getElem_cons hlt]
        exact (Except.ok.inj hbyte).symm
      dsimp only
      cases hdecode : Instruction.decode (w.bytes.drop (pc.toNat - w.base.toNat)) with
      | ok found => exact (headD_of_decode hdecode).trans hbytes
      | error e =>
          cases e with
          | unknownOpcode => exact hbytes
          | short =>
              dsimp only
              by_cases hstart : w.base = pc
              · subst hstart
                rw [Nat.sub_self, List.drop_zero] at hbytes
                rw [if_pos rfl, ← hcodeHead]
                exact reportedOpcode_decodeAtStart hcode hsize (hbytes.trans hcodeHead.symm)
              · rw [if_neg hstart]
                exact hrefetch

end

/-! ### Failed steps -/

namespace Session

variable {σ : Type}

/-- What a failed step leaves behind in the innermost frame `f` with `rest` below it: all that there
was, with the start of the instruction noted. Only refills and traps may have been counted. -/
structure Stuck (before after : Session σ) (f : Frame) (rest : List Frame) : Prop where
  memory : after.memory = before.memory
  frames : after.processor.frames = { f with last := f.pc } :: rest
  tickets : after.processor.tickets = before.processor.tickets
  retired : after.processor.retired = before.processor.retired
  steps : after.processor.stats.steps = before.processor.stats.steps
  invokes : after.processor.stats.invokes = before.processor.stats.invokes
  returns : after.processor.stats.returns = before.processor.stats.returns
  atomics : after.processor.stats.atomics = before.processor.stats.atomics

/-- A turn that fails: the fetch failed or the plan was refused, and the processor has noted the
start and the fault, with the cache as the fetch left it. All that is said about failed turns is
taken from here. -/
theorem turn_fault_inv {observer : Observer σ} {floor : Nat} {s after : Session σ} {fault : Fault}
    (h : s.turn observer floor = (after, some (.fault fault))) :
    ∃ f rest n, s.processor.frames = f :: rest ∧ after.memory = s.memory ∧
      after.processor = (s.processor.markStart.noteFault fault).withCache
        (fetch s.memory f.pc s.processor.cache).cache n ∧
      ((fetch s.memory f.pc s.processor.cache).outcome = .error fault ∨
        ∃ inst, (fetch s.memory f.pc s.processor.cache).outcome = .ok inst ∧
          s.processor.markStart.plan s.memory inst = .error fault) := by
  rw [turn_eq] at h
  cases hnext : s.next observer floor with
  | error ending =>
      -- a turn that ends the run before a step is not a failed one
      rw [hnext] at h
      obtain ⟨-, hending⟩ := Prod.mk.inj h
      cases hending
      exact absurd hnext (next_ne_fault observer floor s fault)
  | ok chosen =>
      obtain ⟨f, patience⟩ := chosen
      obtain ⟨rest, hframes⟩ := next_eq_ok observer floor hnext
      rw [hnext] at h
      simp only [execute_eq] at h
      generalize hfinish : s.finish observer f patience
        (fetch s.memory f.pc s.processor.cache).outcome = finished at h
      obtain ⟨left, failure⟩ := finished
      obtain ⟨rfl, hfault⟩ := Prod.mk.inj h
      cases failure with
      | none => cases hfault
      | some failure =>
          obtain rfl : failure = fault := by simpa using hfault
          obtain ⟨hprocessor, hmemory, hcause⟩ := finish_fault observer hfinish
          refine ⟨f, rest, s.processor.stats.refills +
            UInt64.ofNat (fetch s.memory f.pc s.processor.cache).refills, hframes,
              hmemory, ?_, hcause⟩
          rw [← hprocessor]
          rfl

/-- Noting the start and the fault is all that `Stuck` allows. -/
theorem stuck_of_noteFault {s after : Session σ} {f : Frame} {rest : List Frame} {fault : Fault}
    {c : CodeCache} {n : UInt64} (hframes : s.processor.frames = f :: rest)
    (hmemory : after.memory = s.memory)
    (hprocessor : after.processor = (s.processor.markStart.noteFault fault).withCache c n) :
    Stuck s after f rest := by
  have hstart := s.processor.markStart_eq hframes
  obtain ⟨traps, hnote⟩ := s.processor.markStart.noteFault_eq fault
  refine ⟨hmemory, ?_, ?_, ?_, ?_, ?_, ?_, ?_⟩ <;> rw [hprocessor, hnote, hstart] <;> rfl

/-- A failed step fails again from what it left, whoever watches and wherever the floor is. The
second fetch finds what the first one did (`fetch_again`), and a plan looks at frames and memory,
which are as they were. -/
theorem turn_fault_again {s : Session σ} {f : Frame} {rest : List Frame} {fault : Fault}
    {n : UInt64} (hframes : s.processor.frames = f :: rest)
    (hcause : (fetch s.memory f.pc s.processor.cache).outcome = .error fault ∨
      ∃ inst, (fetch s.memory f.pc s.processor.cache).outcome = .ok inst ∧
        s.processor.markStart.plan s.memory inst = .error fault)
    {τ : Type} {watcher : Observer τ} {lower : Nat} {again : Session τ}
    (hmemory : again.memory = s.memory)
    (hprocessor : again.processor = (s.processor.markStart.noteFault fault).withCache
      (fetch s.memory f.pc s.processor.cache).cache n)
    (hlower : lower < again.processor.depth) (hstop : watcher.stop? again.observed = none) :
    (again.turn watcher lower).2 = some (.fault fault) := by
  have hstart := s.processor.markStart_eq hframes
  obtain ⟨traps, hnote⟩ := s.processor.markStart.noteFault_eq fault
  have htop : again.processor.frames = { f with last := f.pc } :: rest := by
    rw [hprocessor, hnote, hstart]
    rfl
  have hcache : again.processor.cache = (fetch s.memory f.pc s.processor.cache).cache := by
    rw [hprocessor]
    rfl
  obtain ⟨patience, hnext⟩ := next_of_lt watcher lower htop hlower hstop
  -- the second fetch finds what the first one did, and the frames are those that were planned for
  have hplanned : ∀ inst, again.processor.markStart.plan s.memory inst =
      s.processor.markStart.plan s.memory inst := by
    intro inst
    refine Processor.plan_congr ?_ s.memory inst
    rw [again.processor.markStart_eq htop, hstart]
  have hcause' : (fetch again.memory f.pc again.processor.cache).outcome = .error fault ∨
      ∃ inst, (fetch again.memory f.pc again.processor.cache).outcome = .ok inst ∧
        again.processor.markStart.plan again.memory inst = .error fault := by
    rw [hmemory, hcache, fetch_again]
    simpa only [hplanned] using hcause
  rw [turn_eq, hnext]
  simp only [execute_eq, finish_of_fault watcher again _ patience hcause', Option.map_some]

/-- A turn that fails is a step of the processor that does. -/
theorem step_of_turn_fault {observer : Observer σ} {floor : Nat} {s after : Session σ}
    {fault : Fault} (h : s.turn observer floor = (after, some (.fault fault))) :
    s.processor.step s.memory = (after.processor, after.memory, some fault) := by
  obtain ⟨-, hturn⟩ | ⟨-, reason, -, hturn⟩ | ⟨f, rest, left, hframes, -, hturn⟩ :=
    turn_alternatives observer floor s
  · rw [hturn] at h
    cases h
  · rw [hturn] at h
    cases h
  · obtain ⟨hprocessor, hmemory, hfault⟩ := execute_step observer hframes left
    rw [hturn] at h
    obtain ⟨rfl, hending⟩ := Prod.mk.inj h
    rw [hfault] at hending
    obtain ⟨found, hfound, hsame⟩ := Option.map_eq_some_iff.mp hending
    cases hsame
    rw [hprocessor, hmemory, ← hfound]

/-- Of handlers that write as they go, a step fails just as that of the processor does. Its result
is the step of the processor read back (`CheckedProcessor.step_eq`), and a refused handler has given
back the workspace that it got. -/
theorem checked_fault {observer : Observer σ} {floor : Nat} {s after : Session σ} {fault : Fault}
    (h : s.turn observer floor = (after, some (.fault fault))) {c : CheckedProcessor}
    (hb : c.buffer.InBounds) (hc : c.processor = s.processor) :
    ∃ c', c.step s.memory = some (c', s.memory, some fault) ∧ c'.processor = after.processor ∧
      c.FailsInPlace s.memory fault := by
  obtain ⟨f, rest, n, hframes, hmemory, -⟩ := turn_fault_inv h
  have hne : c.frames ≠ [] := by
    intro hnil
    rw [← hc, CheckedProcessor.processor, hnil] at hframes
    cases hframes
  obtain ⟨c', hstep, -, hprocessor⟩ := CheckedProcessor.step_eq hne hb s.memory
  rw [hc, step_of_turn_fault h] at hstep hprocessor
  exact ⟨c', hmemory ▸ hstep, hprocessor, CheckedProcessor.failsInPlace_of_step hne hstep⟩

/-- A step that fails leaves the frames, memory and the counts of completed work alone, reports
where the innermost frame stands and, where that byte can be read and the cache is faithful, the
opcode there; running on from what it left fails with the same fault. Handlers that write as they go
fail in the same way: whatever they refuse, they refuse before they have written anything.

The processor itself has nothing to undo, since it applies only whole effects. What carries the
theorem over to handlers is that each of them is reading followed by writing that cannot fail
(`carryOut_atomic`), and that what they write is the effect (`CheckedProcessor.step_eq`). -/
theorem turn_fault_atomic {observer : Observer σ} {floor : Nat} {s after : Session σ}
    {fault : Fault} (size spill : Int) (window : Option CodeWindow)
    (hcache : s.processor.cache = { CodeCache.ofOptions size spill with window })
    (h : s.turn observer floor = (after, some (.fault fault))) :
    (∃ f rest, s.processor.frames = f :: rest ∧ Stuck s after f rest ∧ fault.pc = f.pc ∧
      (∀ b, s.memory.readByte f.pc = .ok b → s.processor.cache.Faithful s.memory →
        fault.opcode = b) ∧
      ∀ (τ : Type) (watcher : Observer τ) (notes : τ) (lower fuel : Nat),
        lower < after.processor.depth → watcher.stop? notes = none →
        (run watcher lower (fuel + 1) ⟨after.processor, after.memory, notes, 0⟩).2 = .fault fault) ∧
    (∀ c : CheckedProcessor, c.buffer.InBounds → c.processor = s.processor →
      ∃ c', c.step s.memory = some (c', s.memory, some fault) ∧ c'.processor = after.processor ∧
        c.FailsInPlace s.memory fault) ∧
    ∀ pc slots w refusal w', carryOut pc slots w = some (.error refusal, w') → w' = w := by
  refine ⟨?_, fun c hb hc => checked_fault h hb hc,
    fun pc slots w refusal w' hrefused => carryOut_atomic pc slots hrefused⟩
  obtain ⟨f, rest, n, hframes, hmemory, hprocessor, hcause⟩ := turn_fault_inv h
  have hstart := s.processor.markStart_eq hframes
  refine ⟨f, rest, hframes, stuck_of_noteFault hframes hmemory hprocessor, ?_, ?_, ?_⟩
  · rcases hcause with hfetch | ⟨inst, -, hplan⟩
    · exact fetch_fault_pc hfetch
    · exact (Processor.plan_fault (congrArg Processor.frames hstart) hplan).1
  · intro b hb hfaithful
    have hsize : 0 < s.processor.cache.size := by
      rw [hcache]
      exact CodeCache.size_ofOptions_pos size spill
    have hreported := reportedOpcode_fetch hsize hfaithful hb
    rcases hcause with hfetch | ⟨inst, hfetch, hplan⟩
    · rwa [hfetch] at hreported
    · rw [hfetch] at hreported
      exact (Processor.plan_fault (congrArg Processor.frames hstart) hplan).2.trans hreported
  · intro τ watcher notes lower fuel hlower hstop
    have hagain : (turn watcher lower ⟨after.processor, after.memory, notes, 0⟩).2 =
        some (.fault fault) := turn_fault_again hframes hcause hmemory hprocessor hlower hstop
    rw [run]
    generalize turn watcher lower ⟨after.processor, after.memory, notes, 0⟩ = result at hagain
    obtain ⟨last, ending⟩ := result
    obtain rfl : ending = some (.fault fault) := hagain
    rfl

/-- A program about to increment its own first word, which it may read but not write. -/
def selfIncrement : Session Unit where
  processor := (Processor.ofOptions 1 1).enter 0 []
  memory := .region (.ofBytes "code" 0 [0x4C, 1, 0, 0x49] ⟨true, false⟩)
  observed := ()

theorem turn_fault_atomic_selfIncrement :
    let after := (selfIncrement.turn .none 0).1
    let fault : Fault := ⟨.access .violation, 0, 0x4C, 0⟩
    (selfIncrement.turn .none 0).2 = some (.fault fault) ∧
      (∃ f rest, selfIncrement.processor.frames = f :: rest ∧ Stuck selfIncrement after f rest ∧
        fault.pc = f.pc ∧
        (∀ b, selfIncrement.memory.readByte f.pc = .ok b →
          selfIncrement.processor.cache.Faithful selfIncrement.memory → fault.opcode = b) ∧
        ∀ (τ : Type) (watcher : Observer τ) (notes : τ) (lower fuel : Nat),
          lower < after.processor.depth → watcher.stop? notes = none →
          (run watcher lower (fuel + 1) ⟨after.processor, after.memory, notes, 0⟩).2 =
            .fault fault) ∧
      ∃ c c' : CheckedProcessor, c.processor = selfIncrement.processor ∧
        c.step selfIncrement.memory = some (c', selfIncrement.memory, some fault) ∧
        c.FailsInPlace selfIncrement.memory fault := by
  intro after fault
  have hfault : (selfIncrement.turn .none 0).2 = some (.fault fault) := by decide
  have hturn : selfIncrement.turn .none 0 = (after, some (.fault fault)) := Prod.ext rfl hfault
  obtain ⟨hstuck, hchecked, -⟩ := turn_fault_atomic 1 1 none rfl hturn
  obtain ⟨c, -, hprocessor, hbuffer⟩ := (CheckedProcessor.start 1 1).enter_matches 0 []
  rw [CheckedProcessor.processor_start] at hprocessor
  obtain ⟨c', hstep, -, hplace⟩ :=
    hchecked c (hbuffer ▸ CheckedProcessor.inBounds_start 1 1) hprocessor
  exact ⟨hfault, hstuck, c, c', hprocessor, hstep, hplace⟩

end Session

end RegisterVM
