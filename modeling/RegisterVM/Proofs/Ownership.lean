import RegisterVM.Proofs.AtomicUpdates
import RegisterVM.Proofs.FetchLocality

/-!
# Ownership of memory

Every byte of memory is constant, or belongs to one processor, or is part of a word that every
processor may increment and that is used in no other way. A step accesses memory by its fetch and by
its operation. If the owners permit all that, then

* the step depends only on the bytes that the processor can reach, which are the constant ones and
  its own: it does the same wherever those are the same (`Processor.step_agree`), and
* it changes only bytes of its own and words that it increments (`Operation.owner_of_written`).

What shared words hold between two increments differs from one execution to another; nothing that a
permitted step does depends on it.
-/

namespace RegisterVM

/-! ### Owners and accesses -/

/-- How a byte of memory may be used. -/
inductive Owner where
  /-- Everyone may read it. -/
  | constant
  /-- One processor may do anything with it. -/
  | exclusive (processor : Nat)
  /-- It is part of the word at an address, which everyone may increment. -/
  | counter (word : UInt32)
  deriving DecidableEq, Repr

/-- An assignment of owners to the bytes of memory, in which counters are whole words. It stays the
same throughout an execution. -/
structure Ownership where
  owner : Nat → Owner
  whole : ∀ a w, owner a = .counter w →
    w.toNat ≤ a ∧ a < w.toNat + 4 ∧ ∀ i < 4, owner (w.toNat + i) = .counter w

/-- What is done with a range of memory. A decrement counts as a write, because it tells the value
that it has read. -/
inductive Use where
  | read | write
  /-- An atomic increment. -/
  | increment
  deriving DecidableEq, Repr

/-- A use of `count` bytes at an address. -/
structure Access where
  use : Use
  address : UInt32
  count : Nat
  deriving DecidableEq, Repr

/-- Whether the owner of a byte permits an access of a processor to it. A counter may only be
incremented at the address of its word. -/
def Owner.permits (o : Owner) (i : Nat) (access : Access) : Bool :=
  match o with
  | .constant => access.use = .read
  | .exclusive j => j = i
  | .counter w => access.use = .increment && access.address = w

/-- The three ways for an access to be permitted. -/
theorem Owner.permits_cases {o : Owner} {i : Nat} {access : Access}
    (h : o.permits i access = true) :
    (o = .constant ∧ access.use = .read) ∨ o = .exclusive i ∨
      (o = .counter access.address ∧ access.use = .increment) := by
  cases o with
  | constant => exact .inl ⟨rfl, of_decide_eq_true h⟩
  | exclusive j => exact .inr (.inl (congrArg exclusive (of_decide_eq_true h)))
  | counter w =>
      simp only [permits, Bool.and_eq_true, decide_eq_true_eq] at h
      exact .inr (.inr ⟨congrArg counter h.2.symm, h.1⟩)

/-- How an operation accesses memory. Operations that are not listed do not. -/
def Operation.accesses (op : Operation) (f : Frame) : List Access :=
  match op with
  | .increment base offset => [⟨.increment, f.address base (.constant offset), 4⟩]
  | .decrement _ base offset => [⟨.write, f.address base (.constant offset), 4⟩]
  | .load type _ base offset => [⟨.read, f.address base offset, type.width⟩]
  | .store type _ base offset => [⟨.write, f.address base offset, type.width⟩]
  | _ => []

/-- How a completed step accesses memory: to fetch the instruction, and for the operation. The fetch
counts for all that it looks at. -/
def Processor.accesses (p : Processor) (c : Completion) : List Access :=
  ⟨.read, c.frame.pc, p.cache.examined c.frame.pc c.instruction.size⟩ ::
    c.operation.accesses c.frame

namespace Ownership

variable (own : Ownership)

/-- Whether all owners concerned permit an access of a processor. It can be decided for each
access. -/
def permits (i : Nat) (access : Access) : Bool :=
  (List.range access.count).all fun k => (own.owner (access.address.toNat + k)).permits i access

/-- The bytes that a processor can reach and no other processor changes. -/
def Reach (i a : Nat) : Prop := own.owner a = .constant ∨ own.owner a = .exclusive i

variable {own} {i : Nat} {address : UInt32} {count : Nat}

theorem owner_permits {access : Access} (h : own.permits i access = true) {k : Nat}
    (hk : k < access.count) : (own.owner (access.address.toNat + k)).permits i access = true :=
  List.all_eq_true.mp h k (List.mem_range.mpr hk)

theorem reach_of_read (h : own.permits i ⟨.read, address, count⟩ = true) {k : Nat}
    (hk : k < count) : own.Reach i (address.toNat + k) := by
  rcases Owner.permits_cases (owner_permits h hk) with ⟨hconstant, -⟩ | hexclusive | ⟨-, huse⟩
  · exact .inl hconstant
  · exact .inr hexclusive
  · cases huse

theorem exclusive_of_write (h : own.permits i ⟨.write, address, count⟩ = true) {k : Nat}
    (hk : k < count) : own.owner (address.toNat + k) = .exclusive i := by
  rcases Owner.permits_cases (owner_permits h hk) with ⟨-, huse⟩ | hexclusive | ⟨-, huse⟩
  · cases huse
  · exact hexclusive
  · cases huse

/-- A word that a processor may increment is its own or shared, as a whole: one byte of a counter
makes the other three belong to it. -/
theorem owner_of_increment (h : own.permits i ⟨.increment, address, 4⟩ = true) :
    (∀ k < 4, own.owner (address.toNat + k) = .exclusive i) ∨
      ∀ k < 4, own.owner (address.toNat + k) = .counter address := by
  by_cases hshared : ∃ k < 4, own.owner (address.toNat + k) = .counter address
  · obtain ⟨k, hk, hcounter⟩ := hshared
    exact .inr (own.whole _ _ hcounter).2.2
  · refine .inl fun k hk => ?_
    rcases Owner.permits_cases (owner_permits h hk) with ⟨-, huse⟩ | hexclusive | ⟨hcounter, -⟩
    · cases huse
    · exact hexclusive
    · exact absurd ⟨k, hk, hcounter⟩ hshared

end Ownership

/-! ### Operations -/

section

variable {S : Nat → Prop} {m m' : Memory} {f : Frame}

theorem Memory.AgreeOn.readNat (hm : m.Ordered) (h : m.AgreeOn S m') {address : UInt32}
    {count : Nat} (hS : ∀ k < count, S (address.toNat + k)) :
    m.readNat address count = m'.readNat address count := by
  rw [Memory.readNat, Memory.readNat, read_congr hm h.blank fun k hk => h.bytes _ (hS k hk)]

/-- Updating a word depends on that word. -/
theorem updateWord_agree (hm : m.Ordered) (h : m.AgreeOn S m') {address : UInt32}
    (hS : ∀ k < 4, S (address.toNat + k)) (change : UInt32 → UInt32) :
    updateWord m address change = updateWord m' address change := by
  unfold updateWord
  rw [h.readNat hm hS, Memory.check_congr h.blank]

theorem loadEffect_agree (hm : m.Ordered) (h : m.AgreeOn S m') {type : DataType}
    {dest base : Register} {offset : Source}
    (hS : ∀ k < type.width, S ((f.address base offset).toNat + k)) :
    loadEffect f m type dest base offset = loadEffect f m' type dest base offset := by
  unfold loadEffect
  dsimp only
  split
  · rename_i hwide
    rw [DataType.width_of_isWide hwide] at hS
    rw [h.readNat hm hS]
  · rw [h.readNat hm hS]

/-- What is stored does not depend on memory, and whether it may be stored depends on the layout. -/
theorem storeEffect_agree (h : m.AgreeOn S m') (type : DataType) (source base : Register)
    (offset : Source) :
    storeEffect f m type source base offset = storeEffect f m' type source base offset := by
  unfold storeEffect
  simp only [Memory.check_congr h.blank]

/-- An operation depends on memory through the bytes that it accesses. Failures are included: which
of them there is depends on the layout and on these bytes too. -/
theorem Operation.effect_agree (hm : m.Ordered) (h : m.AgreeOn S m') {op : Operation}
    (hS : ∀ access ∈ op.accesses f, ∀ k < access.count, S (access.address.toNat + k))
    (next : UInt32) :
    op.effect f m next = op.effect f m' next := by
  cases op with
  | increment base offset =>
      have hword := hS _ (List.mem_singleton_self _)
      simp only [effect, updateWord_agree hm h hword]
  | decrement dest base offset =>
      have hword := hS _ (List.mem_singleton_self _)
      simp only [effect, updateWord_agree hm h hword]
  | load type dest base offset =>
      have hrange := hS _ (List.mem_singleton_self _)
      simp only [effect, loadEffect_agree hm h hrange]
  | store type source base offset => simp only [effect, storeEffect_agree h]
  | math | branch | invoke | leave | marker | convert => rfl

/-- An effect that may be applied to agreeing memories lets them agree, also at the bytes that it
writes. -/
theorem Effect.memory_agree (hm : m.Ordered) (h : m.AgreeOn S m') {e : Effect}
    (hwrite : ∀ address bytes, e.store = some (address, bytes) →
      m.check .write address bytes.length = .ok ()) : (e.memory m).AgreeOn S (e.memory m') := by
  refine ⟨by rw [blank_memory, blank_memory, h.blank], fun a ha => ?_⟩
  cases hstore : e.store with
  | none => rw [memory_of_none hstore, memory_of_none hstore, h.bytes a ha]
  | some change =>
      obtain ⟨address, bytes⟩ := change
      have hcheck := hwrite address bytes hstore
      rw [memory_of_some hstore, memory_of_some hstore, Memory.byte?_poke hm hcheck,
        Memory.byte?_poke (Memory.ordered_of_blank h.blank hm)
          (Memory.check_congr h.blank .write _ _ ▸ hcheck), h.bytes a ha]

/-- Incrementing a word leaves memories in agreement about everything else. The values of the word
may differ, and then what is written differs too, but no register shows it. -/
theorem Operation.increment_agree (hm : m.Ordered) (h : m.AgreeOn S m') {base : Register}
    {offset : Int32} {next : UInt32} {e : Effect}
    (hok : (Operation.increment base offset).effect f m next = .ok e)
    (hS : ∀ k < 4, ¬ S ((f.address base (.constant offset)).toNat + k)) :
    ∃ e', (Operation.increment base offset).effect f m' next = .ok e' ∧
      e'.registers = e.registers ∧ e'.atomic = e.atomic ∧ e'.flow = e.flow ∧
      (e.memory m).AgreeOn S (e'.memory m') := by
  have hm' := Memory.ordered_of_blank h.blank hm
  obtain ⟨n, hread, hwrite, hstore, hregisters, hflow⟩ := effect_increment hok
  have hread' : ∃ n', m'.readNat (f.address base (.constant offset)) 4 = .ok n' := by
    have hcheck := Memory.check_of_readNat hread
    rw [Memory.check_congr h.blank] at hcheck
    obtain ⟨e, he, -⟩ | ⟨-, r, -, -, hbytes⟩ := m'.read_cases (f.address base (.constant offset)) 4
    · cases hcheck.symm.trans he
    · exact ⟨_, by rw [Memory.readNat, hbytes]; rfl⟩
  obtain ⟨n', hread'⟩ := hread'
  have hok' : (Operation.increment base offset).effect f m' next =
      .ok { store := some (f.address base (.constant offset),
              toBigEndian 4 (UInt32.ofNat n' + 1).toNat)
            atomic := true
            flow := .goto next } := by
    rw [Memory.check_congr h.blank] at hwrite
    simp only [effect, updateWord, hread', hwrite]
    rfl
  refine ⟨_, hok', hregisters.symm, (effect_atomic hok).symm, hflow.symm, ?_⟩
  refine ⟨by rw [Effect.blank_memory, Effect.blank_memory, h.blank], fun a ha => ?_⟩
  -- the word is all that is written, and none of it is among the addresses
  have houtside : a < (f.address base (.constant offset)).toNat ∨
      (f.address base (.constant offset)).toNat + 4 ≤ a := by
    by_contra hinside
    apply hS (a - (f.address base (.constant offset)).toNat) (by omega)
    rwa [Nat.add_sub_cancel' (by omega)]
  rw [Effect.byte?_memory hm hok, Effect.byte?_memory hm' hok', h.bytes a ha]
  · intro address bytes hbytes
    obtain ⟨rfl, rfl⟩ := Prod.mk.inj (Option.some.inj hbytes)
    rwa [length_toBigEndian]
  · intro address bytes hbytes
    obtain ⟨rfl, rfl⟩ := Prod.mk.inj (Option.some.inj (hstore.symm.trans hbytes))
    rwa [length_toBigEndian]

end

section

variable {own : Ownership} {i : Nat} {m m' : Memory} {f : Frame} {op : Operation} {next : UInt32}
  {e : Effect}

/-- A permitted operation writes to bytes of its processor, or it increments a shared word. -/
theorem Operation.owner_of_written (h : op.effect f m next = .ok e)
    (hpermits : ∀ access ∈ op.accesses f, own.permits i access = true) {address : UInt32}
    {bytes : List UInt8} (hstore : e.store = some (address, bytes)) {k : Nat}
    (hk : k < bytes.length) :
    own.owner (address.toNat + k) = .exclusive i ∨
      own.owner (address.toNat + k) = .counter address ∧
        ∃ base offset, op = .increment base offset ∧
        f.address base (.constant offset) = address := by
  cases op with
  | math op left right dest =>
      simp only [effect] at h
      split at h
      · cases h
      · cases h
        cases hstore
  | branch | invoke | leave | marker | convert =>
      cases h
      cases hstore
  | increment base offset =>
      obtain ⟨n, -, -, hword, -⟩ := effect_increment h
      obtain ⟨rfl, rfl⟩ := Prod.mk.inj (Option.some.inj (hword.symm.trans hstore))
      rw [length_toBigEndian] at hk
      obtain hown | hshared :=
        Ownership.owner_of_increment (hpermits _ (List.mem_singleton_self _))
      · exact .inl (hown k hk)
      · exact .inr ⟨hshared k hk, base, offset, rfl, rfl⟩
  | decrement dest base offset =>
      obtain ⟨n, -, -, hword, -⟩ := effect_decrement h
      obtain ⟨rfl, rfl⟩ := Prod.mk.inj (Option.some.inj (hword.symm.trans hstore))
      rw [length_toBigEndian] at hk
      exact .inl (Ownership.exclusive_of_write (hpermits _ (List.mem_singleton_self _)) hk)
  | load type dest base offset =>
      obtain ⟨loaded, -, h⟩ := bind_eq_ok h
      cases h
      cases hstore
  | store type source base offset =>
      obtain ⟨stored, hstored, h⟩ := bind_eq_ok h
      cases h
      cases hstore
      obtain ⟨rfl, hlength⟩ := storeEffect_range hstored
      exact .inl
        (Ownership.exclusive_of_write (hpermits _ (List.mem_singleton_self _)) (hlength ▸ hk))

/-- A permitted operation accesses what its processor can reach, or it increments a shared word. The
proofs below split into these two cases. -/
theorem Operation.reach_or_increment
    (hpermits : ∀ access ∈ op.accesses f, own.permits i access = true) :
    (∀ access ∈ op.accesses f, ∀ k < access.count, own.Reach i (access.address.toNat + k)) ∨
      ∃ base offset, op = .increment base offset ∧ ∀ k < 4,
        own.owner ((f.address base (.constant offset)).toNat + k) =
          .counter (f.address base (.constant offset)) := by
  cases op with
  | math | branch | invoke | leave | marker | convert => exact .inl (by simp [accesses])
  | increment base offset =>
      obtain hown | hshared :=
        Ownership.owner_of_increment (hpermits _ (List.mem_singleton_self _))
      · refine .inl fun access haccess k hk => .inr ?_
        obtain rfl := List.mem_singleton.mp haccess
        exact hown k hk
      · exact .inr ⟨base, offset, rfl, hshared⟩
  | decrement dest base offset =>
      refine .inl fun access haccess k hk => .inr ?_
      obtain rfl := List.mem_singleton.mp haccess
      exact Ownership.exclusive_of_write (hpermits _ (List.mem_singleton_self _)) hk
  | load type dest base offset =>
      refine .inl fun access haccess k hk => ?_
      obtain rfl := List.mem_singleton.mp haccess
      exact Ownership.reach_of_read (hpermits _ (List.mem_singleton_self _)) hk
  | store type source base offset =>
      refine .inl fun access haccess k hk => .inr ?_
      obtain rfl := List.mem_singleton.mp haccess
      exact Ownership.exclusive_of_write (hpermits _ (List.mem_singleton_self _)) hk

/-- A permitted operation has the same effect wherever its processor can reach the same bytes, but
for the value of a shared word that it increments. -/
theorem Operation.effect_permitted (hm : m.Ordered) (h : m.AgreeOn (own.Reach i) m')
    (hok : op.effect f m next = .ok e)
    (hpermits : ∀ access ∈ op.accesses f, own.permits i access = true) :
    ∃ e', op.effect f m' next = .ok e' ∧ e'.registers = e.registers ∧ e'.atomic = e.atomic ∧
      e'.flow = e.flow ∧ (e.memory m).AgreeOn (own.Reach i) (e'.memory m') := by
  rcases reach_or_increment hpermits with hreach | ⟨base, offset, rfl, hshared⟩
  · refine ⟨e, by rw [← effect_agree hm h hreach, hok], rfl, rfl, rfl, ?_⟩
    exact Effect.memory_agree hm h fun address bytes hstore => op.effect_store hok hstore
  · refine increment_agree hm h hok fun k hk => ?_
    unfold Ownership.Reach
    rw [hshared k hk]
    simp

end

/-! ### Steps -/

namespace Processor

/-- Processors that differ in nothing but what their caches hold away from some addresses. -/
structure AgreeOn (S : Nat → Prop) (p p' : Processor) : Prop where
  frames : p.frames = p'.frames
  stats : p.stats = p'.stats
  tickets : p.tickets = p'.tickets
  retired : p.retired = p'.retired
  cache : p.cache.AgreeOn S p'.cache

theorem AgreeOn.refl {S : Nat → Prop} (p : Processor) : p.AgreeOn S p :=
  ⟨rfl, rfl, rfl, rfl, .refl p.cache⟩

theorem AgreeOn.symm {S : Nat → Prop} {p p' : Processor} (h : p.AgreeOn S p') : p'.AgreeOn S p :=
  ⟨h.frames.symm, h.stats.symm, h.tickets.symm, h.retired.symm, h.cache.symm⟩

theorem AgreeOn.eq_withCache {S : Nat → Prop} {p p' : Processor} (h : p.AgreeOn S p') :
    p' = p.withCache p'.cache p.stats.refills := by
  obtain ⟨frames, cache, stats, tickets, retired⟩ := p
  obtain ⟨frames', cache', stats', tickets', retired'⟩ := p'
  obtain ⟨rfl, rfl, rfl, rfl, -⟩ := h
  rfl

theorem agreeOn_withCache {S : Nat → Prop} (p : Processor) {c c' : CodeCache} (h : c.AgreeOn S c')
    (refills : UInt64) : (p.withCache c refills).AgreeOn S (p.withCache c' refills) :=
  ⟨rfl, rfl, rfl, rfl, h⟩

/-- What is stored is no business of the processor. -/
theorem commit_congr (p : Processor) {e e' : Effect} (hregisters : e'.registers = e.registers)
    (hatomic : e'.atomic = e.atomic) (hflow : e'.flow = e.flow) : p.commit e' = p.commit e := by
  unfold commit
  rw [hregisters, hatomic, hflow]

variable {own : Ownership} {i : Nat} {m m' : Memory} {p p' : Processor} {f : Frame}
  {rest : List Frame} {c : Completion}

/-- A permitted step does the same wherever its processor can reach the same bytes. The fetch finds
the same instruction by `fetch_agree`, and the operation has the same effect but for a shared
word. -/
theorem step_agree (hm : m.Ordered) (hmemory : m.AgreeOn (own.Reach i) m')
    (hp : p.AgreeOn (own.Reach i) p') (h : p.Completes m f rest c)
    (hpermits : ∀ access ∈ p.accesses c, own.permits i access = true) :
    ∃ c', p'.Completes m' f rest c' ∧ c'.frame = c.frame ∧ c'.operation = c.operation ∧
      p'.accesses c' = p.accesses c ∧ (p.step m).1.AgreeOn (own.Reach i) (p'.step m').1 ∧
      (p.step m).2.1.AgreeOn (own.Reach i) (p'.step m').2.1 := by
  have hpc : c.frame.pc = f.pc := by rw [h.frame]
  have hexamined : ∀ k < p.cache.examined f.pc c.instruction.size,
      own.Reach i (f.pc.toNat + k) := by
    have hread := hpermits _ List.mem_cons_self
    rw [hpc] at hread
    exact fun k hk => Ownership.reach_of_read hread hk
  obtain ⟨hfetched, hrefills, hcache, hsize⟩ := fetch_agree hm hmemory hp.cache h.fetched hexamined
  obtain ⟨e', heffect, hregisters, hatomic, hflow, hafter⟩ :=
    Operation.effect_permitted hm hmemory h.effect
    fun access haccess => hpermits access (List.mem_cons_of_mem _ haccess)
  have h' : p'.Completes m' f rest { c with effect := e' } :=
    ⟨hp.frames ▸ h.frames, h.frame, hfetched, h.operation, heffect⟩
  refine ⟨_, h', rfl, rfl, ?_, ?_, ?_⟩
  · simp only [accesses, hpc, hsize]
  · rw [step_of_completes h, step_of_completes h']
    dsimp only
    rw [hrefills, commit_congr _ hregisters hatomic hflow, ← hp.stats]
    rw [hp.eq_withCache, markStart_withCache, commit_withCache]
    exact agreeOn_withCache _ hcache _
  · rw [step_of_completes h, step_of_completes h']
    exact hafter

/-- A permitted step of one processor changes nothing that another can reach. -/
theorem step_spares (hm : m.Ordered) (h : p.Completes m f rest c)
    (hpermits : ∀ access ∈ p.accesses c, own.permits i access = true) {j : Nat} (hij : j ≠ i)
    {a : Nat} (ha : own.Reach j a) : (p.step m).2.1.byte? a = m.byte? a := by
  rw [step_of_completes h]
  refine Effect.byte?_memory hm h.effect fun address bytes hstore => ?_
  by_contra hinside
  have howner := Operation.owner_of_written h.effect
    (fun access haccess => hpermits access (List.mem_cons_of_mem _ haccess)) hstore
    (k := a - address.toNat) (by omega)
  rw [Nat.add_sub_cancel' (by omega)] at howner
  unfold Ownership.Reach at ha
  rcases howner with hexclusive | ⟨hcounter, -⟩
  · rw [hexclusive] at ha
    simp [hij.symm] at ha
  · rw [hcounter] at ha
    simp at ha

end Processor

end RegisterVM
