import RegisterVM.Proofs.Fetch
import RegisterVM.Proofs.HostHistory
import RegisterVM.Proofs.Step

/-!
# Transparency of the code cache

Two processors that differ only in how much code they cache do the same, whatever the host makes
them do, as long as code lies where programs cannot write and the host empties the caches when it
rewrites memory.

The invariant behind it is that a cached window is coherent and lies in a region that refuses
writes. A fetch keeps it because a window is always read anew from memory, a store because the
region that it changes permits writing and so is another one.
-/

namespace RegisterVM

/-- Processors that differ at most in their caches and in how often those were filled. Everything
that a program or its host can see of a processor is a field here, the count of refills apart. -/
structure Processor.Agree (p q : Processor) : Prop where
  frames : p.frames = q.frames
  tickets : p.tickets = q.tickets
  retired : p.retired = q.retired
  steps : p.stats.steps = q.stats.steps
  invokes : p.stats.invokes = q.stats.invokes
  returns : p.stats.returns = q.stats.returns
  atomics : p.stats.atomics = q.stats.atomics
  traps : p.stats.traps = q.stats.traps

theorem Processor.agree_withCache (p : Processor) (c : CodeCache) (n : UInt64) :
    p.Agree (p.withCache c n) :=
  ⟨rfl, rfl, rfl, rfl, rfl, rfl, rfl, rfl⟩

/-! ### The invariant of a cache -/

namespace CodeCache

/-- The window holds code as memory has it, in a region that refuses writes. The first part is what
a fetch needs, the second is what keeps the first true while programs store. -/
structure Guarded (c : CodeCache) (m : Memory) : Prop where
  size : 0 < c.size
  coherent : c.Coherent m
  shielded : ∀ w, c.window = some w → m.writeProtected w.base = true

/-- An empty cache is guarded whatever memory holds. This is where every history starts, and where
it is again whenever the host has rewritten memory. -/
theorem guarded_of_empty {c : CodeCache} (hsize : 0 < c.size) (hempty : c.window = none)
    (m : Memory) : c.Guarded m where
  size := hsize
  coherent w hw := by simp [hempty] at hw
  shielded w hw := by simp [hempty] at hw

section

variable {c : CodeCache} {m : Memory}

theorem Guarded.invalidate (hc : c.Guarded m) (after : Memory) : c.invalidate.Guarded after :=
  guarded_of_empty (c := c.invalidate) hc.size rfl after

/-- A fetch keeps a cache guarded if the code it reads lies where programs cannot write. A hit
leaves the cache alone, and a refill leaves a window that memory has just given. -/
theorem Guarded.fetch (hc : c.Guarded m) {pc : UInt32}
    (hpc : m.readableFrom pc = [] ∨ m.writeProtected pc = true) :
    (RegisterVM.fetch m pc c).cache.Guarded m := by
  rcases fetch_cases m pc c with heq | ⟨w, -, heq⟩
  · rw [heq]
    rcases refetch_cache hc.size 0 with hcache | ⟨hcode, hcache⟩
    · rw [hcache]
      exact hc.invalidate m
    · rw [hcache]
      refine ⟨hc.size, ?_, ?_⟩
      · intro w hw
        cases hw
        rfl
      · intro w hw
        cases hw
        exact hpc.resolve_left hcode
  · rw [heq]
    exact hc

/-- A permitted write does not reach what is cached, because it changes only the region that it goes
to and that one permits writing. -/
theorem Guarded.poke (hc : c.Guarded m) {address : UInt32} {bytes : List UInt8}
    (hcheck : m.check .write address bytes.length = .ok ()) : c.Guarded (m.poke address bytes) := by
  have hleaf : ∀ w, c.window = some w → (m.poke address bytes).leaf? w.base = m.leaf? w.base :=
    fun w hw => Memory.leaf_poke_of_writeProtected hcheck (hc.shielded w hw)
  refine ⟨hc.size, ?_, ?_⟩
  · intro w hw
    rw [Memory.readableFrom, hleaf w hw]
    exact hc.coherent w hw
  · intro w hw
    rw [Memory.writeProtected, hleaf w hw]
    exact hc.shielded w hw

end

end CodeCache

/-! ### Turns -/

namespace Session

variable {σ : Type}

/-- What a turn relies on: memory in order, every region readable, and a guarded cache. It is the
invariant of the module, and each of its parts outlives a step. -/
structure Sound (s : Session σ) : Prop where
  ordered : s.memory.Ordered
  readable : s.memory.AllReadable
  guarded : s.processor.cache.Guarded s.memory

variable {observer : Observer σ} {floor : Nat} {s : Session σ}

/-- A step leaves memory alone, or makes one permitted write. The observer sees memory but cannot
change it. -/
theorem finish_memory (observer : Observer σ) (s : Session σ) (f : Frame) (patience : Nat)
    (outcome : Except Fault Instruction) :
    (s.finish observer f patience outcome).1.memory = s.memory ∨
      ∃ address bytes, s.memory.check .write address bytes.length = .ok () ∧
        (s.finish observer f patience outcome).1.memory = s.memory.poke address bytes := by
  cases outcome with
  | error fault => exact .inl rfl
  | ok inst =>
      obtain ⟨fault, -, h⟩ | ⟨e, after, -, h, hafter⟩ :=
        s.processor.markStart.execute_cases s.memory inst
      · simp only [finish, h]
        exact .inl trivial
      · simp only [finish, h]
        exact hafter

/-- Soundness outlives a permitted write, for any cache that was guarded before it. -/
theorem Sound.of_write {t : Session σ} (hs : s.Sound) (hcache : t.processor.cache.Guarded s.memory)
    (hmemory : t.memory = s.memory ∨ ∃ address bytes,
      s.memory.check .write address bytes.length = .ok () ∧
        t.memory = s.memory.poke address bytes) :
    t.Sound := by
  rcases hmemory with heq | ⟨address, bytes, hcheck, heq⟩
  · refine ⟨?_, ?_, ?_⟩ <;> rw [heq]
    · exact hs.ordered
    · exact hs.readable
    · exact hcache
  · refine ⟨?_, ?_, ?_⟩ <;> rw [heq]
    · exact Memory.ordered_poke hs.ordered address bytes
    · exact Memory.allReadable_poke hs.readable address bytes
    · exact hcache.poke hcheck

/-- Whether the code that a turn is about to fetch, if any, lies where programs cannot write. It is
asked only of turns that fetch: one that ends the run passes. -/
def fetchesProtected (observer : Observer σ) (floor : Nat) (s : Session σ) : Bool :=
  match s.next observer floor with
  | .error _ => true
  | .ok (f, _) => (s.memory.readableFrom f.pc).isEmpty || s.memory.writeProtected f.pc

/-- A turn that fetches protected code keeps a session sound: first the fetch keeps the cache
guarded, then at most one write goes elsewhere. -/
theorem Sound.turn (hs : s.Sound) (hcode : s.fetchesProtected observer floor = true) :
    (s.turn observer floor).1.Sound := by
  rw [turn_eq]
  unfold fetchesProtected at hcode
  cases hnext : s.next observer floor with
  | error ending => exact hs
  | ok chosen =>
      obtain ⟨f, patience⟩ := chosen
      simp only [hnext, Bool.or_eq_true, List.isEmpty_iff] at hcode
      simp only [execute_eq]
      exact hs.of_write (hs.guarded.fetch hcode) (finish_memory observer s f patience _)

theorem Sound.fetch_outcome (hs : s.Sound) (pc : UInt32) :
    (fetch s.memory pc s.processor.cache).outcome = decodeAt s.memory pc :=
  RegisterVM.fetch_outcome hs.ordered hs.readable hs.guarded.coherent hs.guarded.size

/-- Sessions that differ in their caches take the same turn. Both decide alike, since the decision
does not look at the cache, and both fetch what decoding straight from memory finds. -/
theorem turn_withCache (observer : Observer σ) (floor : Nat) (hs : s.Sound) {c : CodeCache}
    {n : UInt64} (ht : (s.withCache c n).Sound) :
    ∃ d k, (s.withCache c n).turn observer floor =
      ((s.turn observer floor).1.withCache d k, (s.turn observer floor).2) := by
  rw [turn_eq, turn_eq, next_withCache]
  cases s.next observer floor with
  | error ending => exact ⟨c, n, rfl⟩
  | ok chosen =>
      obtain ⟨f, patience⟩ := chosen
      -- both fetch what decoding straight from memory finds
      simp only [execute_eq]
      rw [hs.fetch_outcome, ht.fetch_outcome, finish_withCache]
      exact ⟨_, _, rfl⟩

/-! ### Runs -/

/-- Whether all the code that a run fetches lies where programs cannot write. It can be computed
along the run of one of the two sessions, because the other takes the same turns. -/
def runsProtected (observer : Observer σ) (floor : Nat) : (fuel : Nat) → Session σ → Bool
  | 0, _ => true
  | fuel + 1, s =>
      s.fetchesProtected observer floor &&
        match s.turn observer floor with
        | (_, some _) => true
        | (after, none) => runsProtected observer floor fuel after

/-- A run keeps a session sound, and sessions that differ in their caches run alike. The two are
proved together, for that the second session is sound is what makes its next turn the same. -/
theorem run_withCache {fuel : Nat} (hs : s.Sound) {c : CodeCache} {n : UInt64}
    (ht : (s.withCache c n).Sound) (hcode : s.runsProtected observer floor fuel = true) :
    ∃ d k, (s.withCache c n).run observer floor fuel =
        ((s.run observer floor fuel).1.withCache d k, (s.run observer floor fuel).2) ∧
      (s.run observer floor fuel).1.Sound ∧
      ((s.run observer floor fuel).1.withCache d k).Sound := by
  -- by turns; the invariant is that both sessions are sound and differ only in their caches
  induction fuel generalizing s c n with
  | zero => exact ⟨c, n, rfl, hs, ht⟩
  | succ fuel ih =>
      rw [runsProtected, Bool.and_eq_true] at hcode
      obtain ⟨hfetch, hrest⟩ := hcode
      obtain ⟨d, k, hturn⟩ := turn_withCache observer floor hs ht
      have hfetch' : (s.withCache c n).fetchesProtected observer floor = true := hfetch
      have hs' := hs.turn hfetch
      have ht' := ht.turn hfetch'
      rw [hturn] at ht'
      rw [run, run, hturn]
      cases hafter : s.turn observer floor with
      | mk after ending =>
          rw [hafter] at hs' ht' hrest
          cases ending with
          | some ending => exact ⟨d, k, rfl, hs', ht'⟩
          | none => exact ih hs' ht' hrest

end Session

/-! ### Histories -/

namespace HostAction

variable {σ : Type}

/-- Whether all the code that an action fetches lies where programs cannot write. Only a run
fetches. -/
def fetchesProtected : HostAction σ → Session σ → Bool
  | .run observer floor turns, s =>
      Session.runsProtected observer floor turns { s with patience := 0 }
  | _, _ => true

/-- An action keeps a session sound, and does the same to sessions that differ in their caches.
Rewriting memory is the one action that needs a condition of its own: it has to empty the cache. -/
theorem apply_withCache {action : HostAction σ} {s : Session σ} {c : CodeCache} {n : UInt64}
    (hs : s.Sound) (ht : (s.withCache c n).Sound)
    (hrewrite : ∀ m refresh, action = .rewrite m refresh → refresh = true ∧ m.Built ∧ m.AllReadable)
    (hcode : action.fetchesProtected s = true) :
    ∃ d k, action.apply (s.withCache c n) =
        ((action.apply s).1.withCache d k, (action.apply s).2) ∧
      (action.apply s).1.Sound ∧ ((action.apply s).1.withCache d k).Sound := by
  cases action with
  | enter pc arguments => exact ⟨c, n, rfl, ⟨hs.1, hs.2, hs.3⟩, ⟨ht.1, ht.2, ht.3⟩⟩
  | modify ticket change => exact ⟨c, n, rfl, ⟨hs.1, hs.2, hs.3⟩, ⟨ht.1, ht.2, ht.3⟩⟩
  | replaceFrames frames => exact ⟨c, n, rfl, ⟨hs.1, hs.2, hs.3⟩, ⟨ht.1, ht.2, ht.3⟩⟩
  | invalidate =>
      exact ⟨c.invalidate, n, rfl, ⟨hs.1, hs.2, hs.guarded.invalidate s.memory⟩,
        ⟨ht.1, ht.2, ht.guarded.invalidate s.memory⟩⟩
  | rewrite m refresh =>
      obtain ⟨rfl, hbuilt, hread⟩ := hrewrite m refresh rfl
      exact ⟨c.invalidate, n, rfl, ⟨hbuilt.ordered, hread, hs.guarded.invalidate m⟩,
        ⟨hbuilt.ordered, hread, ht.guarded.invalidate m⟩⟩
  | run observer floor turns =>
      have hs' : Session.Sound { s with patience := 0 } := ⟨hs.1, hs.2, hs.3⟩
      have ht' : (Session.withCache { s with patience := 0 } c n).Sound := ⟨ht.1, ht.2, ht.3⟩
      obtain ⟨d, k, hrun, hsound⟩ := Session.run_withCache hs' ht' hcode
      exact ⟨d, k, congrArg (fun result => (result.1, some result.2)) hrun, hsound⟩

end HostAction

namespace Session

variable {σ : Type}

/-- A processor with a fresh cache, before the host has done anything. -/
def start (p : Processor) (m : Memory) (observed : σ) (size spill : Int) : Session σ :=
  { processor := { p with cache := .ofOptions size spill }, memory := m, observed }

/-- Whether all the code that a history fetches lies where programs cannot write, followed along the
history itself. -/
def performsProtected : List (HostAction σ) → Session σ → Bool
  | [], _ => true
  | action :: history, s =>
      action.fetchesProtected s && performsProtected history (action.apply s).1

/-- Sessions that differ in their caches go through a history alike, action by action. -/
theorem perform_withCache {history : List (HostAction σ)} {s : Session σ} {c : CodeCache}
    {n : UInt64} (hs : s.Sound) (ht : (s.withCache c n).Sound)
    (hrewrites : ∀ m refresh, .rewrite m refresh ∈ history →
      refresh = true ∧ m.Built ∧ m.AllReadable)
    (hcode : performsProtected history s = true) :
    ∃ d k, perform history (s.withCache c n) =
      ((perform history s).1.withCache d k, (perform history s).2) := by
  induction history generalizing s c n with
  | nil => exact ⟨c, n, rfl⟩
  | cons action history ih =>
      rw [performsProtected, Bool.and_eq_true] at hcode
      obtain ⟨haction, hhistory⟩ := hcode
      obtain ⟨d, k, happly, hs', ht'⟩ := HostAction.apply_withCache hs ht
        (fun m refresh hm => hrewrites m refresh (hm ▸ List.mem_cons_self)) haction
      obtain ⟨e, j, hperform⟩ :=
        ih hs' ht' (fun m refresh hm => hrewrites m refresh (List.mem_cons_of_mem action hm))
          hhistory
      exact ⟨e, j, by simp only [perform, happly, hperform]⟩

/-- The cache is transparent. From equal processors with caches of any two configurations, a history
of the host ends with equal frames, memory and observations, with equal counts but for refills, and
its runs end alike, faults included; provided that every region is readable, that the host empties
the cache whenever it rewrites memory, and that code is only fetched from regions that refuse
writes. A guarded cache yields what decoding straight from memory does, so both sides take the same
turns. -/
theorem perform_cache_irrelevant (p : Processor) (m : Memory) (observed : σ)
    (size₁ spill₁ size₂ spill₂ : Int) (history : List (HostAction σ)) (hbuilt : m.Built)
    (hread : m.AllReadable)
    (hrewrites : ∀ m' refresh, .rewrite m' refresh ∈ history →
      refresh = true ∧ m'.Built ∧ m'.AllReadable)
    (hcode : performsProtected history (start p m observed size₁ spill₁) = true) :
    let first := perform history (start p m observed size₁ spill₁)
    let second := perform history (start p m observed size₂ spill₂)
    first.1.processor.Agree second.1.processor ∧ first.1.memory = second.1.memory ∧
      first.1.observed = second.1.observed ∧ first.2 = second.2 := by
  have hsound : ∀ size spill, (start p m observed size spill).Sound := fun size spill =>
    ⟨hbuilt.ordered, hread, CodeCache.guarded_of_empty
      (CodeCache.size_ofOptions_pos size spill) rfl m⟩
  obtain ⟨d, k, hperform⟩ := perform_withCache (hsound size₁ spill₁)
    (c := .ofOptions size₂ spill₂) (n := p.stats.refills) (hsound size₂ spill₂) hrewrites hcode
  have hsecond : perform history (start p m observed size₂ spill₂) =
      ((perform history (start p m observed size₁ spill₁)).1.withCache d k,
        (perform history (start p m observed size₁ spill₁)).2) := hperform
  dsimp only
  rw [hsecond]
  exact ⟨Processor.agree_withCache _ d k, rfl, rfl, rfl⟩

/-- Read-only code that increments a word and leaves. -/
def counterCode : Region := .ofBytes "code" 0 [0x4C, 1, 16, 0x49, 0, 0, 0, 0] ⟨true, false⟩

/-- The code with the word that it increments. -/
def counterMemory : Memory :=
  .map [.region counterCode, .region (.ofBytes "data" 16 [0, 0, 0, 0] ⟨true, true⟩)]

/-- Code is rewritten between two runs; the first cache is shorter than the first instruction, the
second does not hold the second one. -/
theorem perform_cache_irrelevant_counter :
    let history : List (HostAction Unit) :=
      [.enter 0 [], .run .none 0 1, .rewrite counterMemory true, .run .none 0 5]
    let first := perform history (start (.ofOptions 0 0) counterMemory () 1 1)
    let second := perform history (start (.ofOptions 0 0) counterMemory () 3 0)
    performsProtected history (start (.ofOptions 0 0) counterMemory () 1 1) = true ∧
      first.2 = [.running, .finished] ∧ first.1.processor.Agree second.1.processor ∧
      first.1.memory = second.1.memory ∧ first.1.observed = second.1.observed ∧
      first.2 = second.2 := by
  have hbuilt : counterMemory.Built :=
    .add (.add .empty (.region counterCode) rfl)
      (.region (.ofBytes "data" 16 [0, 0, 0, 0] ⟨true, true⟩)) rfl
  have hread : counterMemory.AllReadable := by
    intro r hr
    simp only [counterMemory, Memory.regions, Memory.regionsOf, List.cons_append, List.nil_append,
      List.mem_cons, List.not_mem_nil, or_false] at hr
    rcases hr with rfl | rfl <;> rfl
  refine ⟨by decide +kernel, by decide +kernel, ?_⟩
  refine perform_cache_irrelevant _ _ _ _ _ _ _ _ hbuilt hread ?_ (by decide +kernel)
  intro m refresh hm
  simp only [List.mem_cons, reduceCtorEq, HostAction.rewrite.injEq, List.not_mem_nil, or_false,
    false_or] at hm
  obtain ⟨rfl, rfl⟩ := hm
  exact ⟨rfl, hbuilt, hread⟩

end Session

end RegisterVM
