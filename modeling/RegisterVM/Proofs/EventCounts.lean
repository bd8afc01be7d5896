import RegisterVM.Proofs.AtomicUpdates
import RegisterVM.Proofs.Segments
import RegisterVM.Telemetry.Metrics

/-!
# The counts of events

A processor counts its events itself, while it runs; a run adds what was counted since its start to
a set of metrics only at its end, one instrument after the other. `Member` is a processor with what
has become of it, and `perform` what can happen to it next.

`share` is what a processor has contributed to an instrument at any moment: what it has to show for
itself, less what it has still to record. It changes by just what is recorded. `Kept` ties the
counts of a processor to what it has done.
-/

namespace RegisterVM

/-! ### What a step counts -/

/-- Whether the flow enters a frame. -/
def Flow.isCall : Flow → Bool
  | .call .. => true
  | _ => false

/-- Whether the flow leaves the frame. -/
def Flow.isLeave : Flow → Bool
  | .leave _ => true
  | _ => false

/-- Whether a run ended with a fault that is no trap. Only these count as faults of a run. -/
def Ending.isFatal : Ending → Bool
  | .fault f => !f.isTrap
  | _ => false

/-- Whether a run ended with a trap. -/
def Ending.isTrap : Ending → Bool
  | .fault f => f.isTrap
  | _ => false

namespace Processor

variable {p : Processor} {m : Memory}

/-- A step that completes something counts it, once for each thing that it is. Refills are left out:
a step may refill whether or not it completes anything. -/
structure Counted (p q : Processor) (e : Effect) : Prop where
  steps : q.stats.steps = p.stats.steps + 1
  invokes : q.stats.invokes = p.stats.invokes + (if e.flow.isCall then 1 else 0)
  returns : q.stats.returns = p.stats.returns + (if e.flow.isLeave then 1 else 0)
  atomics : q.stats.atomics = p.stats.atomics + (if e.atomic then 1 else 0)
  traps : q.stats.traps = p.stats.traps
  depth : q.depth + (if e.flow.isLeave then 1 else 0) = p.depth + (if e.flow.isCall then 1 else 0)

/-- Every completed step is counted. -/
theorem counted_step {c : Completion} (h : p.completion? m = some c) :
    (p.step m).2.2 = none ∧ Counted p (p.step m).1 c.effect := by
  obtain ⟨f, rest, hcompletes⟩ := completion?_eq_some h
  have hstart := p.markStart_eq hcompletes.frames
  rw [step_of_completes hcompletes, hstart]
  refine ⟨rfl, ?_⟩
  simp only [commit, withCache]
  cases hflow : c.effect.flow with
  | goto pc =>
      constructor <;> simp [follow, hflow, Flow.isCall, Flow.isLeave, depth, hcompletes.frames]
  | call resume target arguments =>
      constructor <;> simp [follow, hflow, Flow.isCall, Flow.isLeave, depth, hcompletes.frames]
  | leave pc =>
      constructor <;>
        simp [follow, leaveFrame, hflow, Flow.isCall, Flow.isLeave, depth, hcompletes.frames]
      cases rest <;> simp

/-- A step that fails counts a trap, if it is one, and nothing else. Its frames stay, so a call that
fails is not entered. -/
theorem counted_fault {fault : Fault} (h : (p.step m).2.2 = some fault) :
    ∃ refills, (p.step m).1.stats = { p.stats with
      refills, traps := p.stats.traps + (if fault.isTrap then 1 else 0) } ∧
      (p.step m).1.depth = p.depth := by
  cases hframes : p.frames with
  | nil => simp [step, hframes] at h
  | cons f rest =>
      cases hcompletion : p.completion? m with
      | some c =>
          rw [(counted_step hcompletion).1] at h
          cases h
      | none =>
          obtain ⟨other, hstep⟩ := step_of_completion?_none hframes hcompletion
          obtain rfl : other = fault := by simpa [hstep] using h
          rw [hstep, p.markStart_eq hframes]
          refine ⟨p.stats.refills + UInt64.ofNat (RegisterVM.fetch m f.pc p.cache).refills, ?_, ?_⟩
          · by_cases htrap : other.isTrap <;> simp [withCache, noteFault, htrap]
          · by_cases htrap : other.isTrap <;> simp [withCache, noteFault, htrap, depth, hframes]

end Processor

/-- Entering a frame, leaving one and updating a word are different operations, so a step counts for
at most one of them. -/
theorem Operation.effect_exclusive {op : Operation} {f : Frame} {m : Memory} {next : UInt32}
    {e : Effect} (h : op.effect f m next = .ok e) :
    (if e.flow.isCall then 1 else 0) + (if e.flow.isLeave then 1 else 0) +
        (if e.atomic then 1 else 0) ≤ 1 := by
  cases op with
  | math op left right dest =>
      simp only [effect] at h
      split at h
      · cases h
      · cases h
        simp [Flow.isCall, Flow.isLeave]
  | branch | invoke | leave | marker | convert =>
      cases h
      simp [Flow.isCall, Flow.isLeave]
  | increment | decrement | load | store =>
      obtain ⟨result, -, h⟩ := bind_eq_ok h
      cases h
      simp [Flow.isCall, Flow.isLeave]

namespace Telemetry

/-! ### What instruments show -/

theorem Standard.index_injective : Function.Injective Standard.index := by
  intro s t h
  cases s <;> cases t <;> first | rfl | cases h

/-- What a reading amounts to: its value, or how much was observed. Instruments of all kinds can be
added up this way, and negative values wrap around. -/
def Reading.word : Reading → UInt64
  | .counter v => v
  | .gauge v => v.toUInt64
  | .histogram h => h.count

/-- The kind of a standard instrument. -/
def Standard.kind (s : Standard) : String :=
  if s = .runDuration then "histogram"
  else if s.index < Standard.activeProcessors.index then "counter"
  else "gauge"

namespace Metrics

/-- What a standard instrument amounts to. -/
def word (m : Metrics) (s : Standard) : UInt64 :=
  m.instruments[s.index]?.elim 0 fun i => i.reading.word

/-- All standard instruments are there, each of its kind. No change takes one away. -/
def Complete (m : Metrics) : Prop :=
  ∀ s : Standard, ∃ i, m.instruments[s.index]? = some i ∧ i.reading.typeName = s.kind

theorem complete_standard : standard.Complete := by
  intro s
  cases s <;> exact ⟨_, rfl, rfl⟩

theorem getElem?_update (m : Metrics) (s t : Standard) (f : Instrument → Instrument) :
    (m.update s f).instruments[t.index]? =
      if s = t then m.instruments[t.index]?.map f else m.instruments[t.index]? := by
  rw [update, modify, Array.getElem?_modify]
  simp only [Standard.index_injective.eq_iff]

end Metrics

namespace Change

/-- What a change adds to an instrument. Setting adds nothing, and an observation adds itself. -/
def amount (s : Standard) : Change → UInt64
  | .add t delta => if t = s then delta.toUInt64 else 0
  | .set .. => 0
  | .observe t _ => if t = s then 1 else 0

/-- A change that suits the kind of its instrument; only the depth of frames is ever set. A change
that does not suit would be lost. -/
def Suits : Change → Prop
  | .add t _ => t.kind ≠ "histogram"
  | .set t _ => t = .frameDepth
  | .observe t _ => t.kind = "histogram"

/-- What changes add to an instrument together. -/
def total (s : Standard) (changes : List Change) : UInt64 := (changes.map (amount s)).sum

theorem total_append (s : Standard) (front back : List Change) :
    total s (front ++ back) = total s front + total s back := by
  rw [total, List.map_append, List.sum_append]
  rfl

/-- What the end of a run adds to an instrument: what was counted since its start, the fault if
there was one, and the run itself. It is said here by instrument, while the changes are a list in
the order of recording. -/
def atEnd (before after : Stats) (ending : Ending) : Standard → UInt64
  | .steps => after.steps - before.steps
  | .invokes => after.invokes - before.invokes
  | .returns => after.returns - before.returns
  | .refills => after.refills - before.refills
  | .atomics => after.atomics - before.atomics
  | .traps => after.traps - before.traps
  | .faults => if ending.isFatal then 1 else 0
  | .activeProcessors => -1
  | .runDuration => 1
  | .frameDepth | .mappedBytes | .memoryBytes | .tasks | .libraries | .storeSize => 0

/-- What is recorded at the end of a run adds up to that, instrument by instrument. -/
theorem total_ofEnding (before : Stats) (after : Processor) (ending : Ending) (nanos : Int)
    (s : Standard) :
    total s (ofEnding before after ending nanos) = atEnd before after.stats ending s := by
  have hone : Int64.toUInt64 1 = 1 := rfl
  have hfault : total s (ofFault ending) = if s = .faults ∧ ending.isFatal then 1 else 0 := by
    cases ending with
    | fault f =>
        by_cases htrap : f.isTrap
        · simp [ofFault, total, htrap, Ending.isFatal]
        · by_cases hs : s = .faults <;>
            simp [ofFault, total, amount, htrap, hs, Ending.isFatal, hone, eq_comm]
    | finished | stopped | running => simp [ofFault, total, Ending.isFatal]
  rw [ofEnding, total_append, total_append, hfault]
  cases s <;> simp [total, ofRun, amount, atEnd, Stats.sub, hone]

theorem suits_ofEnding (before : Stats) (after : Processor) (ending : Ending) (nanos : Int) :
    ∀ c ∈ ofEnding before after ending nanos, c.Suits := by
  have hrun (events : Stats) (depth : Int64) : ∀ c ∈ ofRun events depth nanos, c.Suits := by
    simp [ofRun, Suits, Standard.kind, Standard.index]
  have hfault : ∀ c ∈ ofFault ending, c.Suits := by
    cases ending with
    | fault f =>
        by_cases htrap : f.isTrap <;> simp [ofFault, htrap, Suits, Standard.kind, Standard.index]
    | finished | stopped | running => simp [ofFault]
  have hstop : (Change.add .activeProcessors (-1)).Suits := by
    simp [Suits, Standard.kind, Standard.index]
  intro c hc
  simp only [ofEnding, List.mem_append, List.mem_singleton] at hc
  rcases hc with (hc | hc) | rfl
  · exact hfault c hc
  · exact hrun _ _ c hc
  · exact hstop

end Change

namespace Metrics

variable {m : Metrics}

theorem Complete.apply (h : m.Complete) (c : Change) : (m.apply c).Complete := by
  intro s
  obtain ⟨i, hi, hkind⟩ := h s
  have hupdate (t : Standard) (f : Instrument → Instrument)
      (hf : ∀ i, (f i).reading.typeName = i.reading.typeName) :
      ∃ i, (m.update t f).instruments[s.index]? = some i ∧ i.reading.typeName = s.kind := by
    rw [getElem?_update, hi]
    by_cases hs : t = s
    · exact ⟨f i, by simp [hs], (hf i).trans hkind⟩
    · exact ⟨i, by simp [hs], hkind⟩
  cases c with
  | add t delta =>
      refine hupdate t _ fun i => ?_
      cases hr : i.reading <;> simp [Instrument.add, hr, Reading.typeName]
  | set t value =>
      refine hupdate t _ fun i => ?_
      cases hr : i.reading <;> simp [Instrument.set, hr, Reading.typeName]
  | observe t value =>
      refine hupdate t _ fun i => ?_
      cases hr : i.reading <;> simp [Instrument.observe, hr, Reading.typeName]

/-- A change adds its amount to its own instrument, and nothing to others. -/
theorem word_apply (h : m.Complete) {c : Change} (hc : c.Suits) {s : Standard}
    (hs : s ≠ .frameDepth) : (m.apply c).word s = m.word s + c.amount s := by
  obtain ⟨i, hi, hkind⟩ := h s
  have hword : m.word s = i.reading.word := by simp [word, hi]
  cases c with
  | add t delta =>
      by_cases ht : t = s
      · subst ht
        have hi' : (m.update t (·.add delta)).word t = (i.add delta).reading.word := by
          simp [word, getElem?_update, hi]
        rw [apply, hi', hword]
        cases hr : i.reading with
        | counter v => simp [Instrument.add, hr, Reading.word, Change.amount]
        | gauge v => simp [Instrument.add, hr, Reading.word, Change.amount]
        | histogram hist =>
            rw [hr] at hkind
            exact absurd hkind.symm hc
      · simp [apply, word, getElem?_update, ht, Change.amount]
  | set t value =>
      obtain rfl : t = .frameDepth := hc
      simp [apply, word, getElem?_update, hs.symm, Change.amount]
  | observe t value =>
      by_cases ht : t = s
      · subst ht
        have hi' : (m.update t (·.observe value)).word t = (i.observe value).reading.word := by
          simp [word, getElem?_update, hi]
        rw [apply, hi', hword]
        have hkind' : i.reading.typeName = "histogram" := hkind.trans hc
        cases hr : i.reading with
        | counter v => simp [hr, Reading.typeName] at hkind'
        | gauge v => simp [hr, Reading.typeName] at hkind'
        | histogram hist =>
            simp [Instrument.observe, hr, Reading.word, Change.amount, Histogram.observe]
      · simp [apply, word, getElem?_update, ht, Change.amount]

theorem Complete.applyAll (h : m.Complete) (changes : List Change) :
    (m.applyAll changes).Complete := by
  induction changes generalizing m with
  | nil => exact h
  | cons c rest ih => exact ih (h.apply c)

/-- Changes add up, in whatever order they are recorded. -/
theorem word_applyAll (h : m.Complete) {changes : List Change} (hc : ∀ c ∈ changes, c.Suits)
    {s : Standard} (hs : s ≠ .frameDepth) :
    (m.applyAll changes).word s = m.word s + Change.total s changes := by
  induction changes generalizing m with
  | nil => exact (UInt64.add_zero _).symm
  | cons c rest ih =>
      obtain ⟨hfirst, hrest⟩ := List.forall_mem_cons.mp hc
      have hstep : m.applyAll (c :: rest) = (m.apply c).applyAll rest := rfl
      rw [hstep, ih (h.apply c) hrest, word_apply h hfirst hs, UInt64.add_assoc]
      simp [Change.total]

/-- What a counter shows is what it amounts to. -/
theorem Complete.value_eq (h : m.Complete) {s : Standard} (hs : s.kind = "counter") :
    m.value s = (m.word s).toNat := by
  obtain ⟨i, hi, hkind⟩ := h s
  have hkind' := hkind.trans hs
  cases hr : i.reading with
  | counter v => simp [value, word, hi, Instrument.value, hr, Reading.word]
  | gauge | histogram => simp [hr, Reading.typeName] at hkind'

theorem Complete.value_eq_zero (h : m.Complete) {s : Standard} (hs : s.kind = "gauge")
    (hword : m.word s = 0) : m.value s = 0 := by
  obtain ⟨i, hi, hkind⟩ := h s
  have hkind' := hkind.trans hs
  cases hr : i.reading with
  | gauge v =>
      have hv : v.toUInt64 = 0 := by simpa [word, hi, hr, Reading.word] using hword
      have hv' : v = 0 := congrArg UInt64.toInt64 hv
      simp [value, hi, Instrument.value, hr, hv']
  | counter | histogram => simp [hr, Reading.typeName] at hkind'

/-- The instrument of a histogram is there, and has counted what it amounts to. -/
theorem Complete.exists_histogram (h : m.Complete) {s : Standard} (hs : s.kind = "histogram") :
    ∃ i hist, m.instruments[s.index]? = some i ∧ i.reading = .histogram hist ∧
      hist.count = m.word s := by
  obtain ⟨i, hi, hkind⟩ := h s
  have hkind' := hkind.trans hs
  cases hr : i.reading with
  | histogram hist => exact ⟨i, hist, hi, hr, by simp [word, hi, hr, Reading.word]⟩
  | counter | gauge => simp [hr, Reading.typeName] at hkind'

end Metrics

/-! ### Processors with a set of metrics -/

/-- How often a processor has done things, without bound. It is kept beside the counters of the
processor, which start over after `2 ^ 64`. -/
structure Tally where
  steps : Nat := 0
  invokes : Nat := 0
  returns : Nat := 0
  atomics : Nat := 0

/-- One more completed step. -/
def Tally.count (t : Tally) (e : Effect) : Tally where
  steps := t.steps + 1
  invokes := t.invokes + (if e.flow.isCall then 1 else 0)
  returns := t.returns + (if e.flow.isLeave then 1 else 0)
  atomics := t.atomics + (if e.atomic then 1 else 0)

/-- What a processor is doing. The stages follow each other in this order and then start again. -/
inductive Activity where
  | idle
  /-- It runs, and had counted so much when it started. -/
  | running (before : Stats)
  /-- Its run has ended, and this is left to record. -/
  | recording (left : List Change)

/-- A processor, with what has become of it. Everything but the processor itself is kept for the
proofs. -/
structure Member where
  processor : Processor
  activity : Activity := .idle
  /-- How many frames the host has entered. -/
  entered : Nat := 0
  tally : Tally := {}
  /-- How its runs have ended. -/
  endings : List Ending := []

/-- What can happen to a processor. A step is taken in the memory that there is at that moment. -/
inductive Action where
  | enter (pc : UInt32) (arguments : List Int32)
  | start
  | step (memory : Memory) (nanos : Int)
  /-- The run ends between two steps: it is finished, or stopped for a reason. -/
  | leave (reason : Option StopReason) (nanos : Int)
  /-- One change is recorded, or nothing is left to record. -/
  | record

namespace Member

/-- The run of a processor ends, and what there is to record of it is laid down. -/
def close (member : Member) (before : Stats) (ending : Ending) (nanos : Int) : Member :=
  { member with
    activity := .recording (Change.ofEnding before member.processor ending nanos)
    endings := member.endings ++ [ending] }

/-- A running processor takes a step; one that fails ends the run. -/
def step (member : Member) (before : Stats) (memory : Memory) (nanos : Int) : Member :=
  let after := member.processor.step memory
  let tally := (member.processor.completion? memory).elim member.tally fun c =>
    member.tally.count c.effect
  let member := { member with processor := after.1, tally }
  after.2.2.elim member fun fault => member.close before (.fault fault) nanos

/-- What becomes of a processor, and what is recorded at the same time. An action that does not suit
what the processor is doing has no effect, so histories need no condition. -/
def perform (member : Member) (action : Action) : Member × List Change :=
  match action, member.activity with
  | .enter pc arguments, _ =>
      ({ member with
          processor := member.processor.enter pc arguments
          entered := member.entered + 1 }, [])
  | .start, .idle => ({ member with activity := .running member.processor.stats }, [.ofStart])
  | .step memory nanos, .running before => (member.step before memory nanos, [])
  | .leave reason nanos, .running before =>
      (member.close before (reason.elim .finished .stopped) nanos, [])
  | .record, .recording (c :: left) => ({ member with activity := .recording left }, [c])
  | .record, .recording [] => ({ member with activity := .idle }, [])
  | _, _ => (member, [])

/-- What a processor had counted when there was last nothing to record but what is left: at the
start of a run that goes on, and otherwise now. -/
def settled (member : Member) : Stats :=
  match member.activity with
  | .running before => before
  | .idle | .recording _ => member.processor.stats

theorem settled_of_idle {member : Member} (h : member.activity = .idle) :
    member.settled = member.processor.stats := by
  rw [settled, h]

/-- How often a processor is running. -/
def active (member : Member) : UInt64 :=
  match member.activity with
  | .running _ => 1
  | .idle | .recording _ => 0

/-- What is left to record at an instrument. -/
def due (member : Member) (s : Standard) : UInt64 :=
  match member.activity with
  | .recording left => Change.total s left
  | .idle | .running _ => 0

/-- What a processor has to show for itself at an instrument. During a run this stands still. -/
def shown (member : Member) : Standard → UInt64
  | .steps => member.settled.steps
  | .invokes => member.settled.invokes
  | .returns => member.settled.returns
  | .refills => member.settled.refills
  | .atomics => member.settled.atomics
  | .traps => member.settled.traps
  | .faults => UInt64.ofNat (member.endings.countP Ending.isFatal)
  | .activeProcessors => member.active
  | .runDuration => UInt64.ofNat member.endings.length
  | .frameDepth | .mappedBytes | .memoryBytes | .tasks | .libraries | .storeSize => 0

/-- What a processor has contributed to an instrument. It is what it has to show, less what it has
still to record. -/
def share (s : Standard) (member : Member) : UInt64 := member.shown s - member.due s

variable {member : Member}

/-- Whatever the instrument, a run has to record at its end what it then has more to show. -/
theorem shown_close {before : Stats} (h : member.activity = .running before) (ending : Ending)
    (nanos : Int) (s : Standard) :
    (member.close before ending nanos).shown s =
      member.shown s + Change.total s (Change.ofEnding before member.processor ending nanos) := by
  have hfatal : UInt64.ofNat ((member.endings ++ [ending]).countP Ending.isFatal) =
      UInt64.ofNat (member.endings.countP Ending.isFatal) + (if ending.isFatal then 1 else 0) := by
    by_cases hfatal : ending.isFatal <;> simp [hfatal]
  have hcounted (now earlier : UInt64) : now = earlier + (now - earlier) := by
    rw [UInt64.add_comm, UInt64.sub_add_cancel]
  rw [Change.total_ofEnding]
  cases s with
  | faults => exact hfatal
  | _ => simp [close, shown, settled, active, h, Change.atEnd, ← hcounted]

/-- A run that ends has contributed no more than before: all that is new is left to record. -/
theorem share_close {before : Stats} (h : member.activity = .running before) (ending : Ending)
    (nanos : Int) (s : Standard) : (member.close before ending nanos).share s = member.share s := by
  have hdue : (member.close before ending nanos).due s =
      Change.total s (Change.ofEnding before member.processor ending nanos) := rfl
  have hnone : member.due s = 0 := by simp [due, h]
  rw [share, share, shown_close h, hdue, hnone, UInt64.add_sub_cancel, UInt64.sub_zero]

/-- A step contributes nothing by itself, not even one that ends the run. -/
theorem share_step {before : Stats} (h : member.activity = .running before) (memory : Memory)
    (nanos : Int) (s : Standard) : (member.step before memory nanos).share s = member.share s := by
  let moved : Member := { member with
    processor := (member.processor.step memory).1
    tally := (member.processor.completion? memory).elim member.tally fun c =>
      member.tally.count c.effect }
  have hmoved : moved.share s = member.share s := by
    cases s <;> simp [moved, share, shown, settled, active, due, h]
  have hstep : member.step before memory nanos =
    (member.processor.step memory).2.2.elim moved fun fault =>
      moved.close before (.fault fault) nanos := rfl
  rw [hstep]
  cases (member.processor.step memory).2.2 with
  | none => exact hmoved
  | some fault =>
      exact (share_close (show moved.activity = .running before from h) _ _ s).trans hmoved

/-- Step lemma: a processor contributes to an instrument just what is recorded. This holds action by
action, so it does not matter what others do in between. -/
theorem share_perform (member : Member) (action : Action) (s : Standard) :
    (member.perform action).1.share s =
        member.share s + Change.total s (member.perform action).2 := by
  have hnothing : Change.total s [] = 0 := rfl
  cases action with
  | enter pc arguments =>
      have hsame : (member.perform (.enter pc arguments)).1.share s = member.share s := by
        cases s <;> rfl
      rw [hsame]
      exact (UInt64.add_zero _).symm
  | start =>
      cases hactivity : member.activity with
      | idle =>
          have hone : Int64.toUInt64 1 = 1 := rfl
          simp only [perform, hactivity]
          cases s <;>
            simp [share, shown, settled, active, due, hactivity, Change.total, Change.amount,
              Change.ofStart, hone]
      | running before => simp [perform, hactivity, hnothing]
      | recording left => simp [perform, hactivity, hnothing]
  | step memory nanos =>
      cases hactivity : member.activity with
      | running before => simp [perform, hactivity, hnothing, share_step hactivity]
      | idle | recording => simp [perform, hactivity, hnothing]
  | leave reason nanos =>
      cases hactivity : member.activity with
      | running before => simp [perform, hactivity, hnothing, share_close hactivity]
      | idle | recording => simp [perform, hactivity, hnothing]
  | record =>
      cases hactivity : member.activity with
      | recording left =>
          have hshown (next : Activity) (hnext : ∀ before, next ≠ .running before) :
              ({ member with activity := next } : Member).shown s = member.shown s := by
            cases next with
            | running before => exact absurd rfl (hnext before)
            | idle | recording => cases s <;> simp [shown, settled, active, hactivity]
          cases left with
          | nil =>
              simp only [perform, hactivity, share, hshown .idle (by simp), due, hnothing]
              simp
          | cons c left =>
              have hdue : Change.total s (c :: left) = c.amount s + Change.total s left := by
                simp [Change.total]
              have hone : Change.total s [c] = c.amount s := by simp [Change.total]
              simp only [perform, hactivity, share, hshown (.recording left) (by simp),
                due, hdue, hone]
              grind
      | idle | running => simp [perform, hactivity, hnothing]

/-! What a processor has counted by itself. -/

/-- The counts of a processor are those of what it has done, as far as they go. Depth and entries
are numbers without bound; only the counters start over. -/
structure Kept (member : Member) : Prop where
  steps : member.processor.stats.steps = UInt64.ofNat member.tally.steps
  invokes : member.processor.stats.invokes = UInt64.ofNat member.tally.invokes
  returns : member.processor.stats.returns = UInt64.ofNat member.tally.returns
  atomics : member.processor.stats.atomics = UInt64.ofNat member.tally.atomics
  traps : member.processor.stats.traps = UInt64.ofNat (member.endings.countP Ending.isTrap)
  depth : member.processor.depth + member.tally.returns = member.entered + member.tally.invokes
  exclusive : member.tally.invokes + member.tally.returns + member.tally.atomics ≤
    member.tally.steps
  suits : ∀ left, member.activity = .recording left → ∀ c ∈ left, c.Suits

theorem kept_ofOptions (size spill : Int) : Kept { processor := .ofOptions size spill } where
  steps := rfl
  invokes := rfl
  returns := rfl
  atomics := rfl
  traps := rfl
  depth := rfl
  exclusive := Nat.le_refl 0
  suits := by
    intro left h
    cases h

theorem Kept.close (h : member.Kept) (before : Stats) (ending : Ending)
    (hending : ending.isTrap = false) (nanos : Int) : (member.close before ending nanos).Kept where
  steps := h.steps
  invokes := h.invokes
  returns := h.returns
  atomics := h.atomics
  traps := by
    have htraps := h.traps
    simpa [Member.close, hending] using htraps
  depth := h.depth
  exclusive := h.exclusive
  suits := by
    rintro left ⟨⟩
    exact Change.suits_ofEnding before member.processor ending nanos

theorem ofNat_add_ite (n : Nat) (b : Bool) :
    UInt64.ofNat n + (if b then 1 else 0) = UInt64.ofNat (n + if b then 1 else 0) := by
  cases b <;> simp

/-- A completed step counts itself and what it is. -/
theorem Kept.count (h : member.Kept) {before : Stats} (hrunning : member.activity = .running before)
    {memory : Memory} {c : Completion}
    (hcompletion : member.processor.completion? memory = some c) :
    Kept { member with
      processor := (member.processor.step memory).1, tally := member.tally.count c.effect } := by
  obtain ⟨-, hcounted⟩ := Processor.counted_step hcompletion
  obtain ⟨f, rest, hcompletes⟩ := Processor.completion?_eq_some hcompletion
  have hexclusive := Operation.effect_exclusive hcompletes.effect
  have hdepth := hcounted.depth
  have hdepth' := h.depth
  have hle := h.exclusive
  exact {
    steps := by
      rw [hcounted.steps, h.steps]
      exact ofNat_add_ite member.tally.steps true
    invokes := by rw [hcounted.invokes, h.invokes, ofNat_add_ite]; rfl
    returns := by rw [hcounted.returns, h.returns, ofNat_add_ite]; rfl
    atomics := by rw [hcounted.atomics, h.atomics, ofNat_add_ite]; rfl
    traps := hcounted.traps.trans h.traps
    depth := by
      simp only [Tally.count]
      omega
    exclusive := by
      simp only [Tally.count]
      omega
    suits := by simp [hrunning] }

/-- A step that fails counts nothing but a trap, and ends the run. -/
theorem Kept.fault (h : member.Kept) {memory : Memory} {fault : Fault}
    (hfault : (member.processor.step memory).2.2 = some fault) (before : Stats) (nanos : Int) :
    (Member.close { member with processor := (member.processor.step memory).1 } before
        (.fault fault)
      nanos).Kept := by
  obtain ⟨refills, hstats, hdepth⟩ := Processor.counted_fault hfault
  have htraps : UInt64.ofNat ((member.endings ++ [Ending.fault fault]).countP Ending.isTrap) =
      UInt64.ofNat (member.endings.countP Ending.isTrap) + (if fault.isTrap then 1 else 0) := by
    by_cases htrap : fault.isTrap <;> simp [Ending.isTrap, htrap]
  exact {
    steps := by rw [Member.close, hstats]; exact h.steps
    invokes := by rw [Member.close, hstats]; exact h.invokes
    returns := by rw [Member.close, hstats]; exact h.returns
    atomics := by rw [Member.close, hstats]; exact h.atomics
    traps := by rw [Member.close, hstats, htraps, ← h.traps]
    depth := by rw [Member.close, hdepth]; exact h.depth
    exclusive := h.exclusive
    suits := by
      rintro left ⟨⟩
      exact Change.suits_ofEnding before _ _ nanos }

theorem Kept.step (h : member.Kept) {before : Stats} (hrunning : member.activity = .running before)
    (memory : Memory) (nanos : Int) : (member.step before memory nanos).Kept := by
  cases hcompletion : member.processor.completion? memory with
  | some c =>
      obtain ⟨hfault, -⟩ := Processor.counted_step hcompletion
      simpa [Member.step, hfault, hcompletion] using h.count hrunning hcompletion
  | none =>
      cases hfault : (member.processor.step memory).2.2 with
      | some fault => simpa [Member.step, hfault, hcompletion] using h.fault hfault before nanos
      | none =>
          -- without frames nothing happens
          have hidle : (member.processor.step memory).1 = member.processor := by
            cases hframes : member.processor.frames with
            | nil => simp [Processor.step, hframes]
            | cons f rest =>
                obtain ⟨fault, hstep⟩ := Processor.step_of_completion?_none hframes hcompletion
                simp [hstep] at hfault
          simpa [Member.step, hfault, hcompletion, hidle] using h

/-- As long as its counts have not started over, a processor has the frames that were entered and
not left, and has entered, left and updated no more often than it took steps. Bounding the steps is
enough, since they bound the rest. -/
theorem Kept.frames (h : member.Kept) (hsteps : member.tally.steps < 2 ^ 64) :
    let stats := member.processor.stats
    member.processor.depth + stats.returns.toNat = member.entered + stats.invokes.toNat ∧
      stats.invokes.toNat + stats.returns.toNat + stats.atomics.toNat ≤ stats.steps.toNat := by
  have hexclusive := h.exclusive
  have hdepth := h.depth
  have hsmall {n : Nat} (hn : n ≤ member.tally.steps) : (UInt64.ofNat n).toNat = n := by
    rw [UInt64.toNat_ofNat']
    omega
  simp only [h.steps, h.invokes, h.returns, h.atomics]
  rw [hsmall (Nat.le_refl _), hsmall (n := member.tally.invokes) (by omega),
    hsmall (n := member.tally.returns) (by omega), hsmall (n := member.tally.atomics) (by omega)]
  exact ⟨hdepth, hexclusive⟩

/-- Step lemma: whatever happens to a processor, its counts are kept. Only steps and entries by the
host need an argument. -/
theorem Kept.perform (h : member.Kept) (action : Action) : (member.perform action).1.Kept := by
  cases action with
  | enter pc arguments =>
      have hdepth : (member.processor.enter pc arguments).depth = member.processor.depth + 1 := rfl
      have hdepth' := h.depth
      exact { h with
        depth := by
          show (member.processor.enter pc arguments).depth + member.tally.returns =
            member.entered + 1 + member.tally.invokes
          omega }
  | start =>
      cases hactivity : member.activity with
      | idle =>
          simp only [Member.perform, hactivity]
          exact { h with suits := by simp }
      | running | recording => simpa [Member.perform, hactivity] using h
  | step memory nanos =>
      cases hactivity : member.activity with
      | running before => simpa [Member.perform, hactivity] using h.step hactivity memory nanos
      | idle | recording => simpa [Member.perform, hactivity] using h
  | leave reason nanos =>
      cases hactivity : member.activity with
      | running before =>
          have hending : (reason.elim Ending.finished Ending.stopped).isTrap = false := by
            cases reason <;> rfl
          simpa [Member.perform, hactivity] using h.close before _ hending nanos
      | idle | recording => simpa [Member.perform, hactivity] using h
  | record =>
      cases hactivity : member.activity with
      | recording left =>
          cases left with
          | nil =>
              simp only [Member.perform, hactivity]
              exact { h with suits := by simp }
          | cons c left =>
              have hsuits := h.suits _ hactivity
              simp only [Member.perform, hactivity]
              exact { h with
                suits := by
                  rintro other ⟨⟩ c' hc'
                  exact hsuits c' (List.mem_cons_of_mem _ hc') }
      | idle | running => simpa [Member.perform, hactivity] using h

/-- What is recorded suits the instruments. -/
theorem Kept.suits_perform (h : member.Kept) (action : Action) :
    ∀ c ∈ (member.perform action).2, c.Suits := by
  have hstart : Change.ofStart.Suits := by
    simp [Change.ofStart, Change.Suits, Standard.kind, Standard.index]
  cases action with
  | enter => simp [Member.perform]
  | start => cases hactivity : member.activity <;> simp [Member.perform, hactivity, hstart]
  | step => cases hactivity : member.activity <;> simp [Member.perform, hactivity]
  | leave => cases hactivity : member.activity <;> simp [Member.perform, hactivity]
  | record =>
      cases hactivity : member.activity with
      | recording left =>
          have hsuits := h.suits left hactivity
          cases left with
          | nil => simp [Member.perform, hactivity]
          | cons c left => simpa [Member.perform, hactivity] using hsuits c List.mem_cons_self
      | idle | running => simp [Member.perform, hactivity]

end Member

end Telemetry

end RegisterVM
