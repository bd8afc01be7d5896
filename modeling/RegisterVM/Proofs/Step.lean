import RegisterVM.Proofs.Bytes
import RegisterVM.Processor.Run

/-!
# What a step does

The shape of a step that every later argument uses: what is stored was checked before, a fault
changes no frame, and apart from the fetch nothing in a step looks at the cache or touches it.

Each function of a step has one lemma that says all it can do: `execute_cases` for an instruction,
`turn_alternatives` for a turn of a run. The invariants of later modules are derived from these and
open no definition of the processor again.
-/

namespace RegisterVM

/-! ### Stores -/

theorem eq_ok_of_mapError {ε δ α : Type} {x : Except ε α} {g : ε → δ} {a : α}
    (h : x.mapError g = .ok a) : x = .ok a := by
  cases x with
  | error e => cases h
  | ok b => rw [Except.ok.inj h]

/-- A changed word was checked for writing, and the change is the new value in four bytes. The old
value is read first, so a word that may not be read is not changed either. -/
theorem updateWord_inv {m : Memory} {address : UInt32} {f : UInt32 → UInt32} {v : UInt32}
    {change : UInt32 × List UInt8} (h : updateWord m address f = .ok (v, change)) :
    m.check .write address 4 = .ok () ∧ change = (address, toBigEndian 4 v.toNat) := by
  obtain ⟨n, -, h⟩ := bind_eq_ok h
  obtain ⟨⟨⟩, hcheck, h⟩ := bind_eq_ok h
  obtain ⟨rfl, rfl⟩ := Prod.mk.inj (Except.ok.inj h)
  exact ⟨eq_ok_of_mapError hcheck, rfl⟩

/-- What a store is about to write was checked, all of it at once. A wide value is put together
before the check, so it is never half checked. -/
theorem storeEffect_inv {f : Frame} {m : Memory} {type : DataType} {source base : Register}
    {offset : Source} {address : UInt32} {bytes : List UInt8}
    (h : storeEffect f m type source base offset = .ok (address, bytes)) :
    m.check .write address bytes.length = .ok () := by
  -- both widths end alike, in a check of the bytes they have put together
  have hlast : ∀ data : List UInt8,
      ((m.check .write (f.address base offset) data.length).mapError
        (refuse (f.address base offset)) >>=
        fun _ => pure (f.address base offset, data)) = .ok (address, bytes) →
      m.check .write address bytes.length = .ok () := by
    intro data hdata
    obtain ⟨⟨⟩, hcheck, hdata⟩ := bind_eq_ok hdata
    obtain ⟨rfl, rfl⟩ := Prod.mk.inj (Except.ok.inj hdata)
    exact eq_ok_of_mapError hcheck
  unfold storeEffect at h
  dsimp only at h
  split at h
  · obtain ⟨second, -, h⟩ := bind_eq_ok h
    exact hlast _ h
  · exact hlast _ h

theorem DataType.width_of_isWide {type : DataType} (h : type.isWide = true) : type.width = 8 := by
  cases type <;> first | rfl | cases h

/-- A store is as long as its type is wide, and it is where the operands say. What a store does not
reach is told from this alone. -/
theorem storeEffect_range {f : Frame} {m : Memory} {type : DataType} {source base : Register}
    {offset : Source} {address : UInt32} {bytes : List UInt8}
    (h : storeEffect f m type source base offset = .ok (address, bytes)) :
    address = f.address base offset ∧ bytes.length = type.width := by
  unfold storeEffect at h
  dsimp only at h
  split at h
  · rename_i hwide
    obtain ⟨second, -, h⟩ := bind_eq_ok h
    obtain ⟨data, hdata, h⟩ := bind_eq_ok h
    obtain rfl := Except.ok.inj hdata
    obtain ⟨⟨⟩, -, h⟩ := bind_eq_ok h
    obtain ⟨rfl, rfl⟩ := Prod.mk.inj (Except.ok.inj h)
    refine ⟨rfl, ?_⟩
    rw [List.length_append, length_toBigEndian, length_toBigEndian, DataType.width_of_isWide hwide]
  · obtain ⟨data, hdata, h⟩ := bind_eq_ok h
    obtain rfl := Except.ok.inj hdata
    obtain ⟨⟨⟩, -, h⟩ := bind_eq_ok h
    obtain ⟨rfl, rfl⟩ := Prod.mk.inj (Except.ok.inj h)
    exact ⟨rfl, length_toBigEndian _ _⟩

/-- What an operation stores may be written. The check is made while the effect is planned, so that
carrying it out cannot fail half-way. -/
theorem Operation.effect_store {op : Operation} {f : Frame} {m : Memory} {next : UInt32}
    {e : Effect} (h : op.effect f m next = .ok e) {address : UInt32} {bytes : List UInt8}
    (hstore : e.store = some (address, bytes)) : m.check .write address bytes.length = .ok () := by
  cases op with
  | math op left right dest =>
      simp only [effect] at h
      split at h
      · cases h
      · cases h
        cases hstore
  | branch => cases h; cases hstore
  | invoke => cases h; cases hstore
  | leave => cases h; cases hstore
  | marker => cases h; cases hstore
  | increment base offset =>
      obtain ⟨⟨v, change⟩, hupdate, h⟩ := bind_eq_ok h
      obtain ⟨hcheck, rfl⟩ := updateWord_inv hupdate
      cases h
      cases hstore
      exact (length_toBigEndian 4 v.toNat).symm ▸ hcheck
  | decrement dest base offset =>
      obtain ⟨⟨v, change⟩, hupdate, h⟩ := bind_eq_ok h
      obtain ⟨hcheck, rfl⟩ := updateWord_inv hupdate
      cases h
      cases hstore
      exact (length_toBigEndian 4 v.toNat).symm ▸ hcheck
  | load type dest base offset =>
      obtain ⟨loaded, -, h⟩ := bind_eq_ok h
      cases h
      cases hstore
  | store type source base offset =>
      obtain ⟨stored, hstored, h⟩ := bind_eq_ok h
      cases h
      cases hstore
      exact storeEffect_inv hstored
  | convert => cases h; cases hstore

/-- Memory after an effect. An effect stores once or not at all, so this is memory itself or one
write to it. -/
def Effect.memory (e : Effect) (m : Memory) : Memory :=
  e.store.elim m fun change => m.poke change.1 change.2

theorem Effect.memory_of_none {e : Effect} (h : e.store = none) (m : Memory) : e.memory m = m := by
  rw [memory, h]
  rfl

theorem Effect.memory_of_some {e : Effect} {address : UInt32} {bytes : List UInt8}
    (h : e.store = some (address, bytes)) (m : Memory) : e.memory m = m.poke address bytes := by
  rw [memory, h]
  rfl

namespace Processor

/-- A plan is made for the innermost frame and what it stores may be written. -/
theorem plan_store {p : Processor} {m : Memory} {inst : Instruction} {e : Effect}
    (h : p.plan m inst = .ok e) {address : UInt32} {bytes : List UInt8}
    (hstore : e.store = some (address, bytes)) : m.check .write address bytes.length = .ok () := by
  unfold plan at h
  cases hframes : p.frames with
  | nil => simp [hframes] at h
  | cons f rest =>
      simp only [hframes] at h
      cases hop : Operation.ofInstruction inst with
      | error cause => simp [hop] at h
      | ok op =>
          simp only [hop] at h
          cases heffect : op.effect f m (f.pc + UInt32.ofNat inst.size) with
          | error refusal => simp [heffect] at h
          | ok planned =>
              simp only [heffect, Except.ok.injEq] at h
              subst h
              exact op.effect_store heffect hstore

/-- A refused plan reports where the innermost frame stands and the opcode, whatever the refusal
is. -/
theorem plan_fault {p : Processor} {m : Memory} {inst : Instruction} {fault : Fault} {f : Frame}
    {rest : List Frame} (hframes : p.frames = f :: rest) (h : p.plan m inst = .error fault) :
    fault.pc = f.pc ∧ fault.opcode = inst.opcode := by
  unfold plan at h
  rw [hframes] at h
  dsimp only at h
  split at h
  · cases h
    exact ⟨rfl, rfl⟩
  · split at h
    · cases h
      exact ⟨rfl, rfl⟩
    · cases h

/-- A plan looks at the frames and at nothing else of a processor: counts, cache and tickets have no
part in what an instruction does. -/
theorem plan_congr {p q : Processor} (hframes : p.frames = q.frames) (m : Memory)
    (inst : Instruction) : p.plan m inst = q.plan m inst := by
  unfold plan
  rw [hframes]

/-- What was planned is committed, and its bytes are written. Nothing between the plan and the end
of the step can fail. -/
theorem execute_of_plan {p : Processor} {m : Memory} {inst : Instruction} {e : Effect}
    (h : p.plan m inst = .ok e) : p.execute m inst = (p.commit e, e.memory m, none) := by
  simp only [execute, h]
  unfold Effect.memory
  cases e.store <;> rfl

/-- All that executing an instruction can do: fail and change nothing but the count of traps, or
commit an effect, with memory as it was or after one permitted write. Invariants of memory and cache
are proved from these two cases and do not look at the operations. -/
theorem execute_cases (p : Processor) (m : Memory) (inst : Instruction) :
    (∃ fault, p.plan m inst = .error fault ∧
      p.execute m inst = (p.noteFault fault, m, some fault)) ∨
    (∃ e after, p.plan m inst = .ok e ∧ p.execute m inst = (p.commit e, after, none) ∧
      (after = m ∨ ∃ address bytes, m.check .write address bytes.length = .ok () ∧
        after = m.poke address bytes)) := by
  cases hplan : p.plan m inst with
  | error fault => exact .inl ⟨fault, rfl, by simp only [execute, hplan]⟩
  | ok e =>
      refine .inr ⟨e, e.memory m, rfl, execute_of_plan hplan, ?_⟩
      cases hstore : e.store with
      | none => exact .inl (Effect.memory_of_none hstore m)
      | some change =>
          exact .inr ⟨change.1, change.2, plan_store hplan hstore, Effect.memory_of_some hstore m⟩

theorem markStart_eq (p : Processor) {f : Frame} {rest : List Frame} (h : p.frames = f :: rest) :
    p.markStart = { p with frames := { f with last := f.pc } :: rest } := by
  unfold markStart
  rw [h]

/-- Noting a fault changes the count of traps at most. Which faults count is decided elsewhere and
does not matter for what else is kept. -/
theorem noteFault_eq (p : Processor) (fault : Fault) :
    ∃ traps, p.noteFault fault = { p with stats := { p.stats with traps } } := by
  unfold noteFault
  split
  · exact ⟨_, rfl⟩
  · exact ⟨p.stats.traps, rfl⟩

/-! ### The cache -/

/-- The processor with another cache and another count of refills. That two processors differ in no
more is written as an equation with it, which rewriting can carry through a step. -/
def withCache (p : Processor) (cache : CodeCache) (refills : UInt64) : Processor :=
  { p with cache, stats := { p.stats with refills } }

section

variable (p : Processor) (c : CodeCache) (n : UInt64)

@[simp] theorem withCache_frames : (p.withCache c n).frames = p.frames := rfl

@[simp] theorem withCache_depth : (p.withCache c n).depth = p.depth := rfl

theorem markStart_withCache : (p.withCache c n).markStart = p.markStart.withCache c n := by
  unfold markStart
  cases hframes : p.frames with
  | nil => simp only [withCache_frames, hframes]
  | cons f rest =>
      simp only [withCache_frames, hframes]
      rfl

/-- A fetch that follows the start of an instruction. Both parts are spelled out: the cache comes
from the fetch, everything else from the processor. -/
theorem fetch_markStart (m : Memory) (pc : UInt32) :
    p.markStart.fetch m pc =
      let fetched := RegisterVM.fetch m pc p.cache
      (p.markStart.withCache fetched.cache (p.stats.refills + UInt64.ofNat fetched.refills),
        fetched.outcome) := by
  have hcache : p.markStart.cache = p.cache := by
    unfold markStart
    split <;> rfl
  have hstats : p.markStart.stats = p.stats := by
    unfold markStart
    split <;> rfl
  unfold fetch withCache
  simp only [hcache, hstats]

theorem noteFault_withCache (fault : Fault) :
    (p.withCache c n).noteFault fault = (p.noteFault fault).withCache c n := by
  unfold noteFault
  split <;> rfl

theorem plan_withCache (m : Memory) (inst : Instruction) :
    (p.withCache c n).plan m inst = p.plan m inst := rfl

theorem commit_withCache (e : Effect) :
    (p.withCache c n).commit e = (p.commit e).withCache c n := by
  unfold commit
  cases hframes : p.frames with
  | nil => simp only [withCache_frames, hframes]
  | cons f rest =>
      simp only [withCache_frames, hframes]
      cases hflow : e.flow <;> rfl

/-- Executing neither looks at the cache nor touches it. Each part of it has a lemma of this form
above, and they compose by rewriting. -/
theorem execute_withCache (m : Memory) (inst : Instruction) :
    (p.withCache c n).execute m inst =
      ((p.execute m inst).1.withCache c n, (p.execute m inst).2) := by
  unfold execute
  rw [plan_withCache]
  cases p.plan m inst with
  | error fault => simp only [noteFault_withCache]
  | ok e =>
      cases hstore : e.store with
      | none => simp only [hstore, commit_withCache]
      | some change => simp only [hstore, commit_withCache]

end

end Processor

/-! ### Turns -/

namespace Session

variable {σ : Type} (observer : Observer σ) (floor : Nat)

/-- What a turn is about to do: end the run, or execute in a frame with so much patience left. It
separates the decision, which reads no memory, from the step. -/
def next (s : Session σ) : Except Ending (Frame × Nat) :=
  match s.processor.frames with
  | [] => .error .finished
  | f :: _ =>
      if s.processor.depth ≤ floor then .error .finished
      else
        match s.patience with
        | patience + 1 => .ok (f, patience)
        | 0 =>
            match observer.stop? s.observed with
            | some reason => .error (.stopped reason)
            | none => .ok (f, checkInterval - 1)

/-- A turn is its decision followed by a step. The nested matches of `turn` are opened here once and
for all. -/
theorem turn_eq (s : Session σ) :
    s.turn observer floor =
      match s.next observer floor with
      | .error ending => (s, some ending)
      | .ok (f, patience) =>
          ((s.execute observer f patience).1, (s.execute observer f patience).2.map .fault) := by
  unfold turn next
  cases s.processor.frames with
  | nil => rfl
  | cons f rest =>
      dsimp only
      by_cases hdepth : s.processor.depth ≤ floor
      · simp only [if_pos hdepth]
      · simp only [if_neg hdepth]
        cases s.patience with
        | succ patience =>
            dsimp only
            cases (s.execute observer f patience) with
            | mk after fault => cases fault <;> rfl
        | zero =>
            dsimp only
            cases observer.stop? s.observed with
            | some reason => rfl
            | none =>
                dsimp only
                cases (s.execute observer f (checkInterval - 1)) with
                | mk after fault => cases fault <;> rfl

/-- A turn that executes does so in the innermost frame, so there is one. -/
theorem next_eq_ok {s : Session σ} {f : Frame} {patience : Nat}
    (h : s.next observer floor = .ok (f, patience)) : ∃ rest, s.processor.frames = f :: rest := by
  unfold next at h
  cases hframes : s.processor.frames with
  | nil => simp [hframes] at h
  | cons top rest =>
      refine ⟨rest, ?_⟩
      simp only [hframes] at h
      split at h
      · simp at h
      · split at h
        · cases h
          rfl
        · split at h
          · simp at h
          · cases h
            rfl

theorem next_ne_fault (s : Session σ) (fault : Fault) :
    s.next observer floor ≠ .error (.fault fault) := by
  unfold next
  split
  · simp
  · split
    · simp
    · split
      · simp
      · split <;> simp

/-- A run goes on while frames stand above its floor and nothing stops it. How much patience is left
then depends on whether the observer was asked. -/
theorem next_of_lt {s : Session σ} {f : Frame} {rest : List Frame}
    (hframes : s.processor.frames = f :: rest) (hfloor : floor < s.processor.depth)
    (hstop : observer.stop? s.observed = none) :
    ∃ patience, s.next observer floor = .ok (f, patience) := by
  unfold next
  rw [hframes]
  simp only [if_neg (Nat.not_le.mpr hfloor), hstop]
  cases s.patience with
  | zero => exact ⟨_, rfl⟩
  | succ patience => exact ⟨patience, rfl⟩

/-- What a step does with what it fetched. The fetch is left out, so that two sessions with
different caches can be seen to go on alike from equal outcomes. -/
def finish (s : Session σ) (f : Frame) (patience : Nat) :
    Except Fault Instruction → Session σ × Option Fault
  | .error fault =>
      ({ s with processor := s.processor.markStart.noteFault fault, patience }, some fault)
  | .ok inst =>
      let depth := s.processor.markStart.depth
      match s.processor.markStart.execute s.memory inst with
      | (after, memory, fault) =>
          ({ processor := after
             memory
             observed :=
              observer.observe s.observed s.memory ⟨depth, { f with last := f.pc }, inst⟩
             patience := if after.depth = depth then patience else 0 },
            fault)

/-- The session with another cache and another count of refills. -/
def withCache (s : Session σ) (cache : CodeCache) (refills : UInt64) : Session σ :=
  { s with processor := s.processor.withCache cache refills }

section

variable (s : Session σ) (c : CodeCache) (n : UInt64)

theorem next_withCache : (s.withCache c n).next observer floor = s.next observer floor := rfl

theorem finish_withCache (f : Frame) (patience : Nat) (outcome : Except Fault Instruction) :
    (s.withCache c n).finish observer f patience outcome =
      ((s.finish observer f patience outcome).1.withCache c n,
        (s.finish observer f patience outcome).2) := by
  cases outcome with
  | error fault =>
      simp only [finish, withCache, Processor.markStart_withCache, Processor.noteFault_withCache]
  | ok inst =>
      simp only [finish, withCache, Processor.markStart_withCache, Processor.execute_withCache,
        Processor.withCache_depth]

end

/-- A step is a fetch, which changes the cache alone, and what follows from the outcome. With
`next_withCache` and `finish_withCache` it confines the cache to the outcome of the fetch. -/
theorem execute_eq (s : Session σ) (f : Frame) (patience : Nat) :
    s.execute observer f patience =
      let fetched := RegisterVM.fetch s.memory f.pc s.processor.cache
      let finished := s.finish observer f patience fetched.outcome
      (finished.1.withCache fetched.cache
        (s.processor.stats.refills + UInt64.ofNat fetched.refills), finished.2) := by
  unfold execute
  rw [Processor.fetch_markStart]
  dsimp only
  cases (RegisterVM.fetch s.memory f.pc s.processor.cache).outcome with
  | error fault => simp only [finish, withCache, Processor.noteFault_withCache]
  | ok inst =>
      simp only [finish, withCache, Processor.execute_withCache, Processor.withCache_depth]

/-- A step that fails notes the start of the instruction and counts the fault, and that is all.
Either the fetch failed or the plan was refused; a committed effect cannot fail any more. -/
theorem finish_fault {s after : Session σ} {f : Frame} {patience : Nat}
    {outcome : Except Fault Instruction} {fault : Fault}
    (h : s.finish observer f patience outcome = (after, some fault)) :
    after.processor = s.processor.markStart.noteFault fault ∧ after.memory = s.memory ∧
      (outcome = .error fault ∨
        ∃ inst, outcome = .ok inst ∧ s.processor.markStart.plan s.memory inst = .error fault) := by
  cases outcome with
  | error e =>
      cases h
      exact ⟨rfl, rfl, .inl rfl⟩
  | ok inst =>
      obtain ⟨e, hplan, hexecute⟩ | ⟨e, memory, -, hexecute, -⟩ :=
        s.processor.markStart.execute_cases s.memory inst
      · simp only [finish, hexecute] at h
        cases h
        exact ⟨rfl, rfl, .inr ⟨inst, rfl, hplan⟩⟩
      · simp only [finish, hexecute] at h
        cases h

/-- A failed fetch and a refused plan make a step fail, with just that fault. -/
theorem finish_of_fault (s : Session σ) (f : Frame) (patience : Nat)
    {outcome : Except Fault Instruction} {fault : Fault}
    (h : outcome = .error fault ∨
      ∃ inst, outcome = .ok inst ∧ s.processor.markStart.plan s.memory inst = .error fault) :
    (s.finish observer f patience outcome).2 = some fault := by
  rcases h with rfl | ⟨inst, rfl, hplan⟩
  · rfl
  · simp only [finish, Processor.execute, hplan]

/-! ### Turns as steps of the processor -/

/-- A session executes by a step of its processor. Observers and patience stand beside it, so what
is proved of steps holds of every run. -/
theorem execute_step {s : Session σ} {f : Frame} {rest : List Frame}
    (hframes : s.processor.frames = f :: rest) (patience : Nat) :
    (s.execute observer f patience).1.processor = (s.processor.step s.memory).1 ∧
      (s.execute observer f patience).1.memory = (s.processor.step s.memory).2.1 ∧
      (s.execute observer f patience).2 = (s.processor.step s.memory).2.2 := by
  unfold execute Processor.step
  rw [hframes]
  dsimp only
  cases s.processor.markStart.fetch s.memory f.pc with
  | mk p outcome => cases outcome <;> exact ⟨rfl, rfl, rfl⟩

/-- A step that is completed leaves patience, unless the frame changes: then the observer is asked
before the next one. -/
theorem patience_execute {s : Session σ} {f : Frame} {rest : List Frame}
    (hframes : s.processor.frames = f :: rest) (patience : Nat)
    (h : (s.processor.step s.memory).2.2 = none) :
    (s.execute observer f patience).1.patience =
      if (s.processor.step s.memory).1.depth = s.processor.depth then patience else 0 := by
  have hdepth : (s.processor.markStart.fetch s.memory f.pc).1.depth = s.processor.depth := by
    show s.processor.markStart.frames.length = s.processor.frames.length
    rw [s.processor.markStart_eq hframes, hframes]
    rfl
  unfold Processor.step at h ⊢
  rw [execute, ← hdepth]
  simp only [hframes] at h ⊢
  cases hfetch : s.processor.markStart.fetch s.memory f.pc with
  | mk p outcome =>
      rw [hfetch] at h
      cases outcome with
      | error fault => cases h
      | ok inst => rfl

theorem turn_of_le {s : Session σ} (h : s.processor.depth ≤ floor) :
    s.turn observer floor = (s, some .finished) := by
  unfold turn
  cases s.processor.frames with
  | nil => rfl
  | cons f rest => exact if_pos h

/-- Without patience left the observer is asked first, and a run that it wants to stop is left as it
is. -/
theorem turn_of_stop {s : Session σ} {reason : StopReason} (hfloor : floor < s.processor.depth)
    (hpatience : s.patience = 0) (hstop : observer.stop? s.observed = some reason) :
    s.turn observer floor = (s, some (.stopped reason)) := by
  obtain ⟨f, rest, hframes⟩ :=
    List.exists_cons_of_length_pos (Nat.lt_of_le_of_lt (Nat.zero_le _) hfloor)
  rw [turn_eq]
  simp only [next, hframes, if_neg (Nat.not_le.mpr hfloor), hpatience, hstop]

/-- All that a turn can be: the run is at its floor, or the observer is asked and wants it to stop,
or a step is executed with what is left of the patience. Run lemmas are inductions over turns with
these three cases. -/
theorem turn_alternatives (s : Session σ) :
    (s.processor.depth ≤ floor ∧ s.turn observer floor = (s, some .finished)) ∨
    (s.patience = 0 ∧ ∃ reason, observer.stop? s.observed = some reason ∧
      s.turn observer floor = (s, some (.stopped reason))) ∨
    ∃ f rest left, s.processor.frames = f :: rest ∧
      (s.patience = left + 1 ∨
        s.patience = 0 ∧ observer.stop? s.observed = none ∧ left = checkInterval - 1) ∧
      s.turn observer floor =
        ((s.execute observer f left).1, (s.execute observer f left).2.map .fault) := by
  rcases Nat.lt_or_ge floor s.processor.depth with hdepth | hdepth
  · obtain ⟨f, rest, hframes⟩ :=
      List.exists_cons_of_length_pos (Nat.lt_of_le_of_lt (Nat.zero_le _) hdepth)
    have habove : ¬ s.processor.depth ≤ floor := Nat.not_le.mpr hdepth
    cases hpatience : s.patience with
    | succ left =>
        have hnext : s.next observer floor = .ok (f, left) := by
          simp only [next, hframes, if_neg habove, hpatience]
        exact .inr (.inr ⟨f, rest, left, hframes, .inl rfl, by rw [turn_eq, hnext]⟩)
    | zero =>
        cases hstop : observer.stop? s.observed with
        | some reason =>
            exact .inr (.inl ⟨rfl, reason, rfl, turn_of_stop observer floor hdepth hpatience hstop⟩)
        | none =>
            have hnext : s.next observer floor = .ok (f, checkInterval - 1) := by
              simp only [next, hframes, if_neg habove, hpatience, hstop]
            exact .inr (.inr ⟨f, rest, _, hframes, .inr ⟨rfl, rfl, rfl⟩, by rw [turn_eq, hnext]⟩)
  · exact .inl ⟨hdepth, turn_of_le observer floor hdepth⟩

/-- Above the floor, and while the observer does not want to stop, a turn is a step of the
processor; patience may run out or not. -/
theorem turn_of_lt {s : Session σ} (hfloor : floor < s.processor.depth)
    (hstop : observer.stop? s.observed = none) :
    (s.turn observer floor).1.processor = (s.processor.step s.memory).1 ∧
      (s.turn observer floor).1.memory = (s.processor.step s.memory).2.1 ∧
      (s.turn observer floor).2 = (s.processor.step s.memory).2.2.map .fault := by
  obtain ⟨hle, -⟩ | ⟨-, reason, hasked, -⟩ | ⟨f, rest, left, hframes, -, hturn⟩ :=
    turn_alternatives observer floor s
  · exact absurd hfloor (Nat.not_lt.mpr hle)
  · rw [hstop] at hasked
    cases hasked
  · obtain ⟨hprocessor, hmemory, hfault⟩ := execute_step observer hframes left
    rw [hturn]
    exact ⟨hprocessor, hmemory, congrArg (Option.map Ending.fault) hfault⟩

end Session

end RegisterVM
