import RegisterVM.Proofs.CacheTransparency
import RegisterVM.Proofs.MemoryExtension

/-!
# Faults of a fetch

Where the byte at the program counter cannot be read, a step fails there. What it reports is the
error of reading as many bytes as the cache holds, not that of reading the one byte. Bounds are
checked before permissions, so in a region that may not be read the two errors agree just if the
region goes on for as many bytes as the cache holds; otherwise the refusal of a permission is
reported as an access out of bounds. Where no region is, they agree.

A step reads memory there, and does not find stale code in its window, because a window never
reaches past what can be read: fetches fill it so, and writes change what bytes are but not which
can be read.
-/

namespace RegisterVM

/-! ### Refused reads -/

theorem Region.contains_of_covers {r : Region} {address : UInt32} {count : Nat} (hcount : 0 < count)
    (h : r.covers address count = true) : r.contains address = true := by
  rw [covers_iff] at h
  rw [contains_iff]
  omega

namespace Memory

variable {m : Memory} {address : UInt32} {count : Nat} {e : AccessError}

/-- Reading a byte fails as reading a range of one does, with the same error. -/
theorem check_of_readByte (h : m.readByte address = .error e) :
    m.check .read address 1 = .error e := by
  rw [readByte, readNat, read_eq Nat.one_pos] at h
  cases hcheck : m.check .read address 1 with
  | ok _ =>
      rw [hcheck] at h
      cases h
  | error e' =>
      rw [hcheck] at h
      cases h
      rfl

/-- Where a byte cannot be read, nothing can be read from there on, for what is readable is an
unbroken piece of one region. -/
theorem readableFrom_of_readByte (h : m.readByte address = .error e) :
    m.readableFrom address = [] := by
  cases hcode : m.readableFrom address with
  | nil => rfl
  | cons b rest =>
      have hok : m.readByte address = .ok b := readByte_eq_ok_iff.mpr (by rw [hcode]; rfl)
      rw [hok] at h
      cases h

/-- A refused access lacks the permission if a region has the whole range, and is out of bounds if
none has. Bounds are checked first, so the permission is only blamed where the bounds are right. -/
theorem refused_iff (hm : m.Ordered) {kind : AccessKind} (hcount : 0 < count)
    (h : m.check kind address count = .error e) :
    e = .violation ↔ ∃ r ∈ m.regions, r.covers address count = true := by
  rw [check] at h
  constructor
  · rintro rfl
    cases hleaf : m.leaf? address with
    | none =>
        rw [hleaf] at h
        cases h
    | some r =>
        refine ⟨r, leaf_mem_regions hleaf, ?_⟩
        cases hcovers : r.covers address count with
        | true => rfl
        | false => simp [hleaf, Region.check, hcovers] at h
  · rintro ⟨r, hr, hcovers⟩
    rw [leaf_of_contains hm hr (Region.contains_of_covers hcount hcovers)] at h
    simp only [Region.check, hcovers, Bool.not_true, Bool.false_eq_true, if_false] at h
    split at h
    · exact (Except.error.inj h).symm
    · cases h

/-- A range and its first byte are refused alike just if the region that contains the byte, if there
is one, has the range. Both errors are exact conditions on regions (`refused_iff`), and only one
region has the byte. -/
theorem refused_alike_iff (hm : m.Ordered) {kind : AccessKind} (hcount : 0 < count)
    (h : m.check kind address 1 = .error e) {reported : AccessError}
    (h' : m.check kind address count = .error reported) :
    reported = e ↔ ∀ r ∈ m.regions, r.contains address = true → r.covers address count = true := by
  have hbyte : e = .violation ↔ ∃ r ∈ m.regions, r.contains address = true :=
    refused_iff hm Nat.one_pos h
  have hrange := refused_iff hm hcount h'
  constructor
  · rintro rfl r hr hin
    obtain ⟨r', hr', hcovers⟩ := hrange.mp (hbyte.mpr ⟨r, hr, hin⟩)
    -- there is only one region at an address
    have hleaf := leaf_of_contains hm hr' (Region.contains_of_covers hcount hcovers)
    rw [leaf_of_contains hm hr hin] at hleaf
    rwa [Option.some.inj hleaf]
  · intro hall
    have hsame : reported = .violation ↔ e = .violation := by
      rw [hbyte, hrange]
      constructor
      · rintro ⟨r, hr, hcovers⟩
        exact ⟨r, hr, Region.contains_of_covers hcount hcovers⟩
      · rintro ⟨r, hr, hin⟩
        exact ⟨r, hr, hall r hr hin⟩
    cases reported <;> cases e <;> simp_all

end Memory

/-! ### Windows -/

namespace CodeCache

/-- A cache that takes `size` bytes at once, with a window that can be read in memory as far as it
reaches. Nothing is said of the bytes in the window: whether a fetch hits depends on bounds only. -/
structure Backed (c : CodeCache) (size : Nat) (m : Memory) : Prop where
  size_eq : c.size = size
  within : ∀ w, c.window = some w → w.bytes.length ≤ (m.readableFrom w.base).length

section

variable {c : CodeCache} {size : Nat} {m : Memory}

theorem Backed.invalidate (h : c.Backed size m) (after : Memory) :
    c.invalidate.Backed size after where
  size_eq := h.size_eq
  within w hw := by cases hw

/-- Which bytes can be read does not depend on what they are. So stores keep a cache backed,
whatever they write. -/
theorem Backed.congr (h : c.Backed size m) {after : Memory} (hblank : after.blank = m.blank) :
    c.Backed size after where
  size_eq := h.size_eq
  within w hw := by
    rw [Memory.length_readableFrom_congr hblank]
    exact h.within w hw

/-- A fetch keeps a cache backed: a window that is read anew is a prefix of what can be read. -/
theorem Backed.fetch (h : c.Backed size m) (hsize : 0 < size) (pc : UInt32) :
    (RegisterVM.fetch m pc c).cache.Backed size m := by
  have hpos : 0 < c.size := h.size_eq.symm ▸ hsize
  rcases fetch_cases m pc c with heq | ⟨w, -, heq⟩
  · rw [heq]
    rcases refetch_cache hpos 0 with hcache | ⟨-, hcache⟩
    · rw [hcache]
      exact h.invalidate m
    · rw [hcache]
      refine ⟨h.size_eq, ?_⟩
      intro w hw
      cases hw
      exact List.length_take_le' _ _
  · rw [heq]
    exact h

/-- Where nothing can be read, such a cache is not hit, because all addresses of its window can be
read. -/
theorem Backed.miss (h : c.Backed size m) (hm : m.Ordered) {pc : UInt32}
    (hnone : m.readableFrom pc = []) : c.hit? pc = none := by
  cases hhit : c.hit? pc with
  | none => rfl
  | some w =>
      obtain ⟨hwindow, hbase, hlt⟩ := hit?_eq_some hhit
      have hwithin := h.within w hwindow
      have hrest := Memory.readableFrom_add hm hbase (by omega)
      rw [hnone, eq_comm, List.drop_eq_nil_iff] at hrest
      omega

/-- Where nothing can be read, a fetch fails with the error of reading as much as the cache takes.
It is a miss, and the read of the whole window is the first thing that a miss does. -/
theorem Backed.fetch_unreadable (h : c.Backed size m) (hsize : 0 < size) (hm : m.Ordered)
    {pc : UInt32} (hnone : m.readableFrom pc = []) :
    ∃ e, m.check .read pc size = .error e ∧
      (RegisterVM.fetch m pc c).outcome = .error ⟨.access e, pc, 0, pc⟩ := by
  obtain rfl := h.size_eq
  obtain ⟨e, hcheck, hrefetch⟩ := refetch_of_unreadable hnone hsize 0
  refine ⟨e, hcheck, ?_⟩
  rw [RegisterVM.fetch, h.miss hm hnone]
  exact congrArg Fetched.outcome hrefetch

end

end CodeCache

/-! ### Histories -/

namespace Session

variable {σ : Type} {s : Session σ} {size : Nat}

/-- What the fault of a fetch relies on: memory in order, and a window that can be read in it. -/
structure Backed (s : Session σ) (size : Nat) : Prop where
  ordered : s.memory.Ordered
  window : s.processor.cache.Backed size s.memory

/-- Executing changes bytes and no bounds or permissions. -/
theorem finish_blank (observer : Observer σ) (s : Session σ) (f : Frame) (patience : Nat)
    (outcome : Except Fault Instruction) :
    (s.finish observer f patience outcome).1.memory.blank = s.memory.blank := by
  rcases finish_memory observer s f patience outcome with heq | ⟨address, bytes, -, heq⟩
  · rw [heq]
  · rw [heq, Memory.blank_poke]

/-- A turn keeps the window backed, whether it fetches, stores or ends the run. -/
theorem Backed.turn (h : s.Backed size) (hsize : 0 < size) (observer : Observer σ) (floor : Nat) :
    (s.turn observer floor).1.Backed size := by
  rw [turn_eq]
  cases s.next observer floor with
  | error ending => exact h
  | ok chosen =>
      obtain ⟨f, patience⟩ := chosen
      simp only [execute_eq]
      have hblank := finish_blank observer s f patience
        (RegisterVM.fetch s.memory f.pc s.processor.cache).outcome
      exact ⟨Memory.ordered_of_blank hblank.symm h.ordered,
        (h.window.fetch hsize f.pc).congr hblank⟩

theorem Backed.run (h : s.Backed size) (hsize : 0 < size) (observer : Observer σ)
    (floor fuel : Nat) : (s.run observer floor fuel).1.Backed size := by
  induction fuel generalizing s with
  | zero => exact h
  | succ fuel ih =>
      have hturn := h.turn hsize observer floor
      rw [Session.run]
      rcases hafter : s.turn observer floor with ⟨after, _ | ending⟩
      · rw [hafter] at hturn
        exact ih hturn
      · rw [hafter] at hturn
        exact hturn

/-- So does everything that the host can do, if it empties the cache when it puts another memory in
place. -/
theorem Backed.apply (h : s.Backed size) (hsize : 0 < size) {action : HostAction σ}
    (hrewrite : ∀ m refresh, action = .rewrite m refresh → refresh = true ∧ m.Built) :
    (action.apply s).1.Backed size := by
  cases action with
  | enter | modify | replaceFrames => exact ⟨h.ordered, h.window⟩
  | invalidate => exact ⟨h.ordered, h.window.invalidate s.memory⟩
  | rewrite m refresh =>
      obtain ⟨rfl, hbuilt⟩ := hrewrite m refresh rfl
      exact ⟨hbuilt.ordered, h.window.invalidate m⟩
  | run observer floor turns =>
      exact Backed.run (s := { s with patience := 0 }) ⟨h.ordered, h.window⟩ hsize
        observer floor turns

theorem Backed.perform (h : s.Backed size) (hsize : 0 < size) {history : List (HostAction σ)}
    (hrewrites : ∀ m refresh, .rewrite m refresh ∈ history → refresh = true ∧ m.Built) :
    (perform history s).1.Backed size := by
  refine perform_keeps (P := fun s => s.Backed size) ?_ h
  intro action hmem s hs
  exact hs.apply hsize fun m refresh heq => hrewrites m refresh (heq ▸ hmem)

theorem Backed.turn_unreadable (h : s.Backed size) (hsize : 0 < size) (observer : Observer σ)
    {floor : Nat} {f : Frame} {rest : List Frame} (hframes : s.processor.frames = f :: rest)
    (hfloor : floor < s.processor.depth) (hstop : observer.stop? s.observed = none)
    (hnone : s.memory.readableFrom f.pc = []) :
    ∃ e, s.memory.check .read f.pc size = .error e ∧
      (s.turn observer floor).2 = some (.fault ⟨.access e, f.pc, 0, f.pc⟩) := by
  obtain ⟨e, hcheck, hfetch⟩ := h.window.fetch_unreadable hsize h.ordered hnone
  obtain ⟨patience, hnext⟩ := next_of_lt observer floor hframes hfloor hstop
  refine ⟨e, hcheck, ?_⟩
  simp only [turn_eq, hnext, execute_eq, hfetch, finish, Option.map_some]

/-- A step where the byte at the program counter cannot be read fails there, whatever the host and
the program did before and whatever was cached. Reading that byte is refused for its permission if a
region contains it; the fault says so if that region has as many bytes from there on as the cache
takes, and says out of bounds otherwise. So it gives the error of reading the byte just if the
region that contains it, if there is one, goes on so far.

That the fetch is a miss is an invariant of histories (`Backed`); which error a miss reports is then
a question about one refused read (`refused_iff`). -/
theorem unreadable_code_reported (p : Processor) (m : Memory) (observed : σ) (size spill : Int)
    (history : List (HostAction σ)) (hbuilt : m.Built)
    (hrewrites : ∀ m' refresh, .rewrite m' refresh ∈ history → refresh = true ∧ m'.Built) :
    let s := (perform history (start p m observed size spill)).1
    let reach := (CodeCache.ofOptions size spill).size
    ∀ (observer : Observer σ) (floor : Nat) (f : Frame) (rest : List Frame) (e : AccessError),
      s.processor.frames = f :: rest → floor < s.processor.depth →
        observer.stop? s.observed = none →
      s.memory.readByte f.pc = .error e →
      (e = .violation ↔ ∃ r ∈ s.memory.regions, r.contains f.pc = true) ∧
      ∃ reported, (s.turn observer floor).2 = some (.fault ⟨.access reported, f.pc, 0, f.pc⟩) ∧
        (reported = .violation ↔ ∃ r ∈ s.memory.regions, r.covers f.pc reach = true) ∧
        (reported = e ↔
          ∀ r ∈ s.memory.regions, r.contains f.pc = true → r.covers f.pc reach = true) := by
  intro s reach observer floor f rest e hframes hfloor hstop hread
  have hreach : 0 < reach := CodeCache.size_ofOptions_pos size spill
  have hstart : (start p m observed size spill).Backed reach :=
    ⟨hbuilt.ordered, rfl, fun w hw => by cases hw⟩
  have hs : s.Backed reach := hstart.perform hreach hrewrites
  have hnone := Memory.readableFrom_of_readByte hread
  have hone := Memory.check_of_readByte hread
  obtain ⟨reported, hcheck, hturn⟩ := hs.turn_unreadable hreach observer hframes hfloor hstop hnone
  exact ⟨Memory.refused_iff hs.ordered Nat.one_pos hone, reported, hturn,
    Memory.refused_iff hs.ordered hreach hcheck,
    Memory.refused_alike_iff hs.ordered hreach hone hcheck⟩

/-- Code that jumps to data that it may not read. -/
def straying : Memory :=
  .map [.region (.ofBytes "code" 0 [0x46, 0, 0, 16] ⟨true, false⟩),
    .region (.ofBytes "data" 16 [0, 0, 0, 0] ⟨false, true⟩)]

/-- The data has as many bytes as the cache takes, so the jump is reported for what it is. -/
theorem unreadable_code_reported_straying :
    let s := (perform [.enter 0 [], .run .none 0 1] (start (.ofOptions 0 0) straying () 4 0)).1
    s.processor.frames.map (·.pc) = [16] ∧ s.memory.readByte 16 = .error .violation ∧
      (s.turn .none 0).2 = some (.fault ⟨.access .violation, 16, 0, 16⟩) := by
  intro s
  have hpcs : s.processor.frames.map (·.pc) = [16] := by decide +kernel
  have hread : s.memory.readByte 16 = .error .violation := by decide +kernel
  refine ⟨hpcs, hread, ?_⟩
  have hbuilt : straying.Built :=
    .add (.add .empty (.region (.ofBytes "code" 0 [0x46, 0, 0, 16] ⟨true, false⟩)) rfl)
      (.region (.ofBytes "data" 16 [0, 0, 0, 0] ⟨false, true⟩)) rfl
  obtain ⟨f, hframes, hpc⟩ := List.map_eq_singleton_iff.mp hpcs
  obtain ⟨-, reported, hturn, hrange, -⟩ :=
    unreadable_code_reported (.ofOptions 0 0) straying () 4 0 [.enter 0 [], .run .none 0 1] hbuilt
      (by simp) .none 0 f [] .violation hframes (by decide +kernel) rfl (by rw [hpc]; exact hread)
  have hcovers : s.memory.regions.any (fun r => r.covers 16 4) = true := by decide +kernel
  rw [hpc] at hrange hturn
  rwa [hrange.mpr (List.any_eq_true.mp hcovers)] at hturn

/-- A region that may not be read and ends within the cache is reported as no region at all, and
with a cache of one byte as what it is. -/
theorem violation_reported_out_of_bounds :
    let m : Memory := .region (.ofBytes "code" 0x1000 [0x49] ⟨false, true⟩)
    let step (size : Int) :=
      ((perform [.enter 0x1000 []] (start (.ofOptions 0 0) m () size 0)).1.turn .none 0).2
    m.readByte 0x1000 = .error .violation ∧
      step 0 = some (.fault ⟨.access .outOfBounds, 0x1000, 0, 0x1000⟩) ∧
      step 1 = some (.fault ⟨.access .violation, 0x1000, 0, 0x1000⟩) := by
  decide +kernel

end Session

end RegisterVM
