import RegisterVM.Proofs.Interleaving

/-!
# Atomic updates are never lost

However the steps of the processors of a machine are interleaved, a word that is written only by
atomic operations at its address counts them: its value is the first one, plus the increments that
were completed, minus the decrements. A decrement leaves in its register the value that the word has
right after it. An atomic operation that fails counts for nothing, neither in the word nor in the
statistics.

The word is followed through its bytes: `Completion.holdsWord` says what one completed operation
makes of it, and `Machine.holdsWord_follow` adds that up along a schedule.
-/

namespace RegisterVM

/-! ### Counting operations -/

/-- Whether an operation is atomic. -/
def Operation.isAtomic : Operation → Bool
  | .increment .. | .decrement .. => true
  | _ => false

/-- Whether an operation increments the word at an address. The address is computed from the
registers of the frame that executes it. -/
def Operation.increments (op : Operation) (f : Frame) (w : UInt32) : Bool :=
  match op with
  | .increment base offset => f.address base (.constant offset) = w
  | _ => false

/-- Whether an operation decrements the word at an address. -/
def Operation.decrements (op : Operation) (f : Frame) (w : UInt32) : Bool :=
  match op with
  | .decrement _ base offset => f.address base (.constant offset) = w
  | _ => false

namespace Completion

/-- Whether the word at an address was incremented. -/
def increments (c : Completion) (w : UInt32) : Bool := c.operation.increments c.frame w

/-- Whether the word at an address was decremented. -/
def decrements (c : Completion) (w : UInt32) : Bool := c.operation.decrements c.frame w

/-- Whether the word at an address was either counted up or down or not written to at all, not even
in part. An increment of a word that overlaps this one fails the test. -/
def countsOrSpares (c : Completion) (w : UInt32) : Bool :=
  c.increments w || c.decrements w ||
    c.effect.store.all fun change =>
      min (change.1.toNat + change.2.length) (w.toNat + 4) ≤ max change.1.toNat w.toNat

/-- What is added to the word at an address, modulo the size of a word. -/
def delta (c : Completion) (w : UInt32) : UInt32 :=
  (if c.increments w then 1 else 0) - (if c.decrements w then 1 else 0)

end Completion

theorem updateWord_readNat {m : Memory} {address : UInt32} {f : UInt32 → UInt32} {v : UInt32}
    {change : UInt32 × List UInt8} (h : updateWord m address f = .ok (v, change)) :
    ∃ n, m.readNat address 4 = .ok n ∧ v = f (UInt32.ofNat n) := by
  obtain ⟨n, hread, h⟩ := bind_eq_ok h
  obtain ⟨⟨⟩, -, h⟩ := bind_eq_ok h
  obtain ⟨rfl, -⟩ := Prod.mk.inj (Except.ok.inj h)
  exact ⟨n, eq_ok_of_mapError hread, rfl⟩

/-- The effect of a completed decrement: one word that can be both read and written, and the new
value in the register too. -/
theorem Operation.effect_decrement {dest base : Register} {offset : Int32} {f : Frame} {m : Memory}
    {next : UInt32} {e : Effect}
    (h : (Operation.decrement dest base offset).effect f m next = .ok e) :
    let w := f.address base (.constant offset)
    ∃ n, m.readNat w 4 = .ok n ∧ m.check .write w 4 = .ok () ∧
      e.store = some (w, toBigEndian 4 (UInt32.ofNat n - 1).toNat) ∧
      e.registers = [(dest, (UInt32.ofNat n - 1).toInt32)] ∧ e.flow = .goto next := by
  obtain ⟨⟨v, change⟩, hupdate, h⟩ := bind_eq_ok h
  obtain ⟨hcheck, rfl⟩ := updateWord_inv hupdate
  obtain ⟨n, hread, rfl⟩ := updateWord_readNat hupdate
  cases h
  exact ⟨n, hread, hcheck, rfl, rfl, rfl⟩

/-- The effect of a completed increment. No register is told the new value. -/
theorem Operation.effect_increment {base : Register} {offset : Int32} {f : Frame} {m : Memory}
    {next : UInt32} {e : Effect} (h : (Operation.increment base offset).effect f m next = .ok e) :
    let w := f.address base (.constant offset)
    ∃ n, m.readNat w 4 = .ok n ∧ m.check .write w 4 = .ok () ∧
      e.store = some (w, toBigEndian 4 (UInt32.ofNat n + 1).toNat) ∧
      e.registers = [] ∧ e.flow = .goto next := by
  obtain ⟨⟨v, change⟩, hupdate, h⟩ := bind_eq_ok h
  obtain ⟨hcheck, rfl⟩ := updateWord_inv hupdate
  obtain ⟨n, hread, rfl⟩ := updateWord_readNat hupdate
  cases h
  exact ⟨n, hread, hcheck, rfl, rfl, rfl⟩

/-- The effects of atomic operations, and of no others, count as atomic. -/
theorem Operation.effect_atomic {op : Operation} {f : Frame} {m : Memory} {next : UInt32}
    {e : Effect} (h : op.effect f m next = .ok e) : e.atomic = op.isAtomic := by
  cases op with
  | math op left right dest =>
      simp only [effect] at h
      split at h
      · cases h
      · cases h
        rfl
  | branch | invoke | leave | marker | convert =>
      cases h
      rfl
  | increment | decrement | load | store =>
      obtain ⟨result, -, h⟩ := bind_eq_ok h
      cases h
      rfl

namespace Completion

variable {c : Completion} {m : Memory} {next w v : UInt32}

theorem increments_inv (h : c.increments w = true) :
    ∃ base offset, c.operation = .increment base offset ∧
      c.frame.address base (.constant offset) = w ∧ c.decrements w = false := by
  unfold increments Operation.increments at h
  unfold decrements Operation.decrements
  split at h
  · rename_i base offset hop
    rw [hop]
    exact ⟨base, offset, rfl, of_decide_eq_true h, rfl⟩
  · cases h

theorem decrements_inv (h : c.decrements w = true) :
    ∃ dest base offset, c.operation = .decrement dest base offset ∧
      c.frame.address base (.constant offset) = w ∧ c.increments w = false := by
  unfold decrements Operation.decrements at h
  unfold increments Operation.increments
  split at h
  · rename_i dest base offset hop
    rw [hop]
    exact ⟨dest, base, offset, rfl, of_decide_eq_true h, rfl⟩
  · cases h

/-- A word that is counted is read and then written, with nothing in between. The value written is
computed from the memory of this very step. -/
theorem store_of_counts (heffect : c.operation.effect c.frame m next = .ok c.effect)
    (h : c.increments w = true ∨ c.decrements w = true) :
    ∃ n, m.readNat w 4 = .ok n ∧ m.check .write w 4 = .ok () ∧
      c.effect.store = some (w, toBigEndian 4 (UInt32.ofNat n + c.delta w).toNat) := by
  unfold delta
  rcases h with h | h
  · obtain ⟨base, offset, hop, rfl, hnot⟩ := increments_inv h
    rw [hop] at heffect
    obtain ⟨n, hread, hcheck, hstore, -⟩ := Operation.effect_increment heffect
    refine ⟨n, hread, hcheck, ?_⟩
    simpa [h, hnot] using hstore
  · obtain ⟨dest, base, offset, hop, rfl, hnot⟩ := decrements_inv h
    rw [hop] at heffect
    obtain ⟨n, hread, hcheck, hstore, -⟩ := Operation.effect_decrement heffect
    have hsub : UInt32.ofNat n - 1 = UInt32.ofNat n + (0 - 1) := by grind
    refine ⟨n, hread, hcheck, ?_⟩
    simpa [h, hnot, hsub] using hstore

/-- A completed operation adds to a word what it counts. One that does not count it writes elsewhere
or not at all. -/
theorem holdsWord (hm : m.Ordered) (heffect : c.operation.effect c.frame m next = .ok c.effect)
    (hspares : c.countsOrSpares w = true) (h : m.HoldsWord w v) :
    (c.effect.memory m).HoldsWord w (v + c.delta w) := by
  by_cases hcounts : c.increments w = true ∨ c.decrements w = true
  · obtain ⟨n, hread, hcheck, hstore⟩ := store_of_counts heffect hcounts
    obtain rfl : v = UInt32.ofNat n := h.unique (Memory.holdsWord_of_readNat hm hread)
    rw [Effect.memory_of_some hstore]
    exact Memory.holdsWord_poke hm _ hcheck
  · rw [not_or, Bool.not_eq_true, Bool.not_eq_true] at hcounts
    have hdelta : c.delta w = 0 := by simp [delta, hcounts]
    have houtside : ∀ i < 4, ∀ address bytes, c.effect.store = some (address, bytes) →
        w.toNat + i < address.toNat ∨ address.toNat + bytes.length ≤ w.toNat + i := by
      intro i hi address bytes hstore
      simp only [countsOrSpares, hcounts, hstore, Option.all_some, Bool.false_or,
        decide_eq_true_eq] at hspares
      omega
    intro i hi
    rw [Effect.byte?_memory hm heffect (houtside i hi), hdelta, UInt32.add_zero]
    exact h i hi

end Completion

/-! ### The count of atomic operations -/

namespace Processor

theorem atomics_commit {p : Processor} {f : Frame} {rest : List Frame} (h : p.frames = f :: rest)
    (e : Effect) :
    (p.commit e).stats.atomics = p.stats.atomics + (if e.atomic then 1 else 0) := by
  unfold commit
  rw [h]
  dsimp only
  unfold follow
  cases e.flow <;> rfl

/-- A step counts as atomic just when it completes an atomic operation. A step that fails counts for
nothing, whatever it was about to do. -/
theorem atomics_step (p : Processor) (m : Memory) :
    (p.step m).1.stats.atomics = p.stats.atomics +
      if (p.completion? m).any (·.operation.isAtomic) then 1 else 0 := by
  cases hframes : p.frames with
  | nil => simp [step, completion?, top?, hframes]
  | cons f rest =>
      cases hcompletion : p.completion? m with
      | none =>
          obtain ⟨fault, hstep⟩ := step_of_completion?_none hframes hcompletion
          obtain ⟨traps, hfault⟩ := noteFault_eq p.markStart fault
          rw [hstep, hfault, markStart_eq p hframes]
          simp [withCache]
      | some c =>
          obtain ⟨f, rest, hcompletes⟩ := completion?_eq_some hcompletion
          have hmarked := markStart_eq p hcompletes.frames
          have hatomics := atomics_commit (congrArg frames hmarked) c.effect
          have hstats : p.markStart.stats = p.stats := by rw [hmarked]
          rw [step_of_completes hcompletes, Option.any_some,
            ← Operation.effect_atomic hcompletes.effect, ← hstats]
          exact hatomics

end Processor

namespace Machine

/-- The events of a processor on top of others. -/
def addStats (total : Stats) (p : Processor) : Stats := total.add p.stats

theorem atomics_foldl (processors : List Processor) (total : Stats) :
    (processors.foldl addStats total).atomics =
      total.atomics + (processors.foldl addStats {}).atomics := by
  induction processors generalizing total with
  | nil => exact (UInt64.add_zero total.atomics).symm
  | cons p rest ih =>
      rw [List.foldl_cons, List.foldl_cons, ih (addStats total p), ih (addStats {} p)]
      simp only [addStats, Stats.add]
      grind

/-- More atomic operations of one processor are as many more of the machine. Counters wrap around,
and sums of counters agree with that. -/
theorem atomics_foldl_set {processors : List Processor} {i : Nat} {p q : Processor} {more : UInt64}
    (hp : processors[i]? = some p) (hq : q.stats.atomics = p.stats.atomics + more) (total : Stats) :
    ((processors.set i q).foldl addStats total).atomics =
      (processors.foldl addStats total).atomics + more := by
  induction processors generalizing i total with
  | nil => cases hp
  | cons first rest ih =>
      cases i with
      | zero =>
          cases hp
          rw [List.set_cons_zero, List.foldl_cons, List.foldl_cons, atomics_foldl,
            atomics_foldl rest (addStats total p)]
          simp only [addStats, Stats.add, hq]
          grind
      | succ i =>
          rw [List.set_cons_succ, List.foldl_cons, List.foldl_cons]
          exact ih hp _

theorem atomics_advance (m : Machine) (i : Nat) :
    (m.advance i).stats.atomics = m.stats.atomics +
      if (m.completion? i).any (·.operation.isAtomic) then 1 else 0 := by
  unfold advance completion?
  cases hp : m.processors[i]? with
  | none => exact (UInt64.add_zero _).symm
  | some p =>
      dsimp only [Option.bind_some]
      rw [stats, stats, ← Array.foldl_toList, ← Array.foldl_toList, Array.toList_setIfInBounds]
      exact atomics_foldl_set (by rw [Array.getElem?_toList]; exact hp) (p.atomics_step m.memory) {}

/-- Along a schedule the counters of the machine go up by the atomic operations that were
completed. -/
theorem atomics_follow (m : Machine) (schedule : List Nat) :
    (m.follow schedule).stats.atomics = m.stats.atomics +
      UInt64.ofNat ((m.completions schedule).countP fun entry => entry.2.operation.isAtomic) := by
  induction schedule generalizing m with
  | nil => exact (UInt64.add_zero _).symm
  | cons i rest ih =>
      rw [follow_cons, ih, atomics_advance, completions, List.countP_append, UInt64.ofNat_add]
      cases m.completion? i with
      | none => simp
      | some c =>
          cases hatomic : c.operation.isAtomic with
          | false => simp [hatomic]
          | true =>
              simp only [Option.any_some, hatomic, Option.map_some, Option.toList_some,
                List.countP_singleton, if_true]
              exact UInt64.add_assoc _ _ _

/-! ### The word along a schedule -/

/-- Along a schedule the increments and decrements of a word add up. The induction is on the
schedule: a step that completes nothing leaves memory alone. -/
theorem holdsWord_follow {m : Machine} (hm : m.memory.Ordered) {w v : UInt32} {schedule : List Nat}
    (hspares : ∀ entry ∈ m.completions schedule, entry.2.countsOrSpares w = true)
    (h : m.memory.HoldsWord w v) :
    (m.follow schedule).memory.HoldsWord w
      (v + UInt32.ofNat ((m.completions schedule).countP fun entry => entry.2.increments w) -
        UInt32.ofNat ((m.completions schedule).countP fun entry => entry.2.decrements w)) := by
  induction schedule generalizing m v with
  | nil => simpa [completions] using h
  | cons i rest ih =>
      have hordered := Memory.ordered_of_blank (m.blank_advance i).symm hm
      have hmemory := m.memory_advance i
      rw [completions] at hspares ⊢
      cases hcompletion : m.completion? i with
      | none =>
          rw [hcompletion] at hspares hmemory
          rw [Option.elim_none] at hmemory
          exact ih hordered hspares (hmemory ▸ h)
      | some c =>
          rw [hcompletion] at hspares hmemory
          rw [Option.elim_some] at hmemory
          obtain ⟨p, f, below, -, hcompletes⟩ := completion?_eq_some hcompletion
          have hfirst : c.countsOrSpares w = true := hspares (i, c) (by simp)
          have hrest : ∀ entry ∈ (m.advance i).completions rest, entry.2.countsOrSpares w = true :=
            fun entry hentry => hspares entry (List.mem_append_right _ hentry)
          have hnext := c.holdsWord hm hcompletes.effect hfirst h
          have hlast := ih hordered hrest (hmemory ▸ hnext)
          rw [Option.map_some, Option.toList_some, List.singleton_append, List.countP_cons,
            List.countP_cons, UInt32.ofNat_add, UInt32.ofNat_add, follow_cons]
          -- the first operation counts once, at the front of either sum
          convert hlast using 1
          unfold Completion.delta
          cases c.increments w <;> cases c.decrements w <;> simp <;> grind

/-- A completed decrement leaves in its register what the word has become, and no step of another
processor can come between the two. -/
theorem decremented_value {m : Machine} (hm : m.memory.Ordered) {i : Nat} {c : Completion}
    (h : m.completion? i = some c) {dest base : Register} {offset : Int32}
    (hop : c.operation = .decrement dest base offset) :
    ∃ p f below n, (m.advance i).processors[i]? = some p ∧ p.frames = f :: below ∧
      (m.advance i).memory.readNat (c.frame.address base (.constant offset)) 4 = .ok n ∧
      f.get dest = (UInt32.ofNat n).toInt32 := by
  obtain ⟨p, f, below, hp, hcompletes⟩ := completion?_eq_some h
  have heffect := hcompletes.effect
  rw [hop] at heffect
  obtain ⟨n, hread, hwrite, hstore, hregisters, hflow⟩ := Operation.effect_decrement heffect
  have hmemory : (m.advance i).memory = c.effect.memory m.memory := by
    rw [memory_advance, h, Option.elim_some]
  have hblank := m.blank_advance i
  have hafter : (m.advance i).memory.readNat (c.frame.address base (.constant offset)) 4 =
      .ok (UInt32.ofNat n - 1).toNat := by
    apply Memory.readNat_of_holdsWord (Memory.ordered_of_blank hblank.symm hm)
    · rw [Memory.check_congr hblank]
      exact Memory.check_of_readNat hread
    · rw [hmemory, Effect.memory_of_some hstore]
      exact Memory.holdsWord_poke hm _ hwrite
  have hframes : (p.step m.memory).1.frames =
      { c.frame.set dest (UInt32.ofNat n - 1).toInt32 with
        pc := f.pc + UInt32.ofNat c.instruction.size } :: below := by
    rw [Processor.step_of_completes hcompletes, p.markStart_eq hcompletes.frames,
      ← hcompletes.frame]
    simp only [Processor.withCache_frames, Processor.commit, hregisters, hflow, List.foldl_cons,
      List.foldl_nil, Processor.follow]
  refine ⟨_, _, _, _, m.processors_advance_self hp, hframes, hafter, ?_⟩
  rw [UInt32.ofNat_toNat]
  exact Frame.get_set_self c.frame dest _

/-- However the steps of the processors are interleaved, if nothing but atomic operations at `w`
ever writes to the word there, then after any number of steps the word has its first value plus the
completed increments minus the completed decrements, a decrement that comes next leaves the new
value in its register, and the machine has counted the completed atomic operations.

The proof rests on a step being undivided: what an atomic operation writes is computed from the
memory that it writes to (`store_of_counts`), so the word follows its operations one by one, in
whatever order they come. -/
theorem atomic_updates_add_up (m : Machine) (hm : m.memory.Built) (w : UInt32) (schedule : List Nat)
    (hwrites : ∀ entry ∈ m.completions schedule, entry.2.countsOrSpares w = true)
    (front back : List Nat) (hsplit : schedule = front ++ back) :
    let done := m.completions front
    ((m.follow front).memory.readNat w 4).map UInt32.ofNat =
        (m.memory.readNat w 4).map (fun n => UInt32.ofNat n +
          UInt32.ofNat (done.countP fun entry => entry.2.increments w) -
          UInt32.ofNat (done.countP fun entry => entry.2.decrements w)) ∧
      (∀ i rest c, back = i :: rest → (m.follow front).completion? i = some c →
        ∀ dest base offset, c.operation = .decrement dest base offset →
          c.frame.address base (.constant offset) = w →
          ∃ p f below n, (m.follow (front ++ [i])).processors[i]? = some p ∧ p.frames = f :: below ∧
            (m.follow (front ++ [i])).memory.readNat w 4 = .ok n ∧
            f.get dest = (UInt32.ofNat n).toInt32) ∧
      (m.follow front).stats.atomics =
        m.stats.atomics + UInt64.ofNat (done.countP fun entry => entry.2.operation.isAtomic) := by
  have hordered := hm.ordered
  refine ⟨?_, ?_, m.atomics_follow front⟩
  · have hfront : ∀ entry ∈ m.completions front, entry.2.countsOrSpares w = true := by
      intro entry hentry
      apply hwrites
      rw [hsplit, completions_append]
      exact List.mem_append_left _ hentry
    exact Memory.map_readNat hordered (m.blank_follow front).symm
      fun v hv => holdsWord_follow hordered hfront hv
  · rintro i rest c - hc dest base offset hop rfl
    rw [follow_append]
    exact decremented_value (ordered_follow hordered front) hc hop

/-- Three processors: one increments the word at 12, one decrements it, and one fails to increment a
word that does not exist. -/
def counting : Machine where
  memory := .region (.ofBytes "ram" 0
    [0x4C, 12, 0, 0x49, 0x4D, 20, 12, 0, 0x49, 0, 0, 0, 0, 0, 0, 7] ⟨true, true⟩)
  processors :=
    #[(Processor.ofOptions 0 0).enter 0 [12], (Processor.ofOptions 0 0).enter 4 [12],
      (Processor.ofOptions 0 0).enter 0 [100]]
  headers := .empty 1

theorem atomic_updates_add_up_counting :
    let schedule := [2, 0, 1, 2, 0, 1]
    let done := counting.completions [2, 0]
    (∀ entry ∈ counting.completions schedule, entry.2.countsOrSpares 12 = true) ∧
      schedule = [2, 0] ++ [1, 2, 0, 1] ∧ done.length = 1 ∧
      ((counting.follow [2, 0]).memory.readNat 12 4).map UInt32.ofNat =
        (counting.memory.readNat 12 4).map (fun n => UInt32.ofNat n +
          UInt32.ofNat (done.countP fun entry => entry.2.increments 12) -
          UInt32.ofNat (done.countP fun entry => entry.2.decrements 12)) ∧
      (∀ i rest c, [1, 2, 0, 1] = i :: rest → (counting.follow [2, 0]).completion? i = some c →
        ∀ dest base offset, c.operation = .decrement dest base offset →
          c.frame.address base (.constant offset) = 12 →
          ∃ p f below n, (counting.follow ([2, 0] ++ [i])).processors[i]? = some p ∧
            p.frames = f :: below ∧
            (counting.follow ([2, 0] ++ [i])).memory.readNat 12 4 = .ok n ∧
            f.get dest = (UInt32.ofNat n).toInt32) ∧
      (counting.follow [2, 0]).stats.atomics = counting.stats.atomics +
        UInt64.ofNat (done.countP fun entry => entry.2.operation.isAtomic) :=
  ⟨by decide +kernel, rfl, by decide +kernel,
    atomic_updates_add_up counting (.region _) 12 [2, 0, 1, 2, 0, 1] (by decide +kernel) [2, 0]
      [1, 2, 0, 1] rfl⟩

end Machine

end RegisterVM
