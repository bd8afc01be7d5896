import RegisterVM.Proofs.CallFrames
import RegisterVM.Proofs.Ownership

/-!
# Scheduling does not matter

Processors that keep to an ownership of memory do not notice each other. Whatever the order of their
steps, each of them does what it would have done alone from the start: the same frames, the same
statistics, the same bytes of its own. Only words that everyone increments hold values in between
that depend on the order, and in the end they have been incremented as often.

The proof compares an execution with the executions of the single processors, each of which starts
from the first state and leaves all others where they are. `Machine.permitted_alone` cuts a
permitted execution into these, `Machine.follow_alone` puts them together again in any order, and so
any two orders of the same steps end alike. One processor after the other is one such order.
-/

namespace RegisterVM

namespace Machine

/-! ### Permitted executions -/

/-- Whether a processor's next step completes, with accesses that the owners permit. A step that
fails is not permitted. -/
def stepPermitted (own : Ownership) (m : Machine) (i : Nat) : Bool :=
  m.processors[i]?.any fun p =>
    (p.completion? m.memory).any fun c => (p.accesses c).all (own.permits i)

/-- Whether all steps of a schedule complete, with accesses that the owners permit. It can be
decided for a given schedule. -/
def permitted (own : Ownership) (m : Machine) : List Nat → Bool
  | [] => true
  | i :: rest => m.stepPermitted own i && (m.advance i).permitted own rest

section

variable {own : Ownership} {m x y : Machine} {i j : Nat}

theorem stepPermitted_iff : m.stepPermitted own i = true ↔
    ∃ p f rest c, m.processors[i]? = some p ∧ p.Completes m.memory f rest c ∧
      ∀ access ∈ p.accesses c, own.permits i access = true := by
  unfold stepPermitted
  simp only [Option.any_eq_true, List.all_eq_true]
  constructor
  · rintro ⟨p, hp, c, hc, hpermits⟩
    obtain ⟨f, rest, hcompletes⟩ := Processor.completion?_eq_some hc
    exact ⟨p, f, rest, c, hp, hcompletes, hpermits⟩
  · rintro ⟨p, f, rest, c, hp, hcompletes, hpermits⟩
    exact ⟨p, hp, c, hcompletes.completion?_eq, hpermits⟩

theorem permitted_cons {rest : List Nat} : m.permitted own (i :: rest) = true ↔
    m.stepPermitted own i = true ∧ (m.advance i).permitted own rest = true := by
  rw [permitted, Bool.and_eq_true]

theorem permitted_append {front back : List Nat} : m.permitted own (front ++ back) = true ↔
    m.permitted own front = true ∧ (m.follow front).permitted own back = true := by
  induction front generalizing m with
  | nil => simp [permitted]
  | cons i rest ih =>
      rw [List.cons_append, permitted_cons, permitted_cons, ih, follow_cons, and_assoc]

theorem ordered_advance (hm : m.memory.Ordered) (i : Nat) : (m.advance i).memory.Ordered :=
  Memory.ordered_of_blank (m.blank_advance i).symm hm

theorem size_follow (m : Machine) (schedule : List Nat) :
    (m.follow schedule).processors.size = m.processors.size := by
  induction schedule generalizing m with
  | nil => rfl
  | cons i rest ih => rw [follow_cons, ih, size_advance]

/-- Permitted steps are steps of processors that exist. -/
theorem lt_of_permitted {schedule : List Nat} (h : m.permitted own schedule = true)
    (hi : i ∈ schedule) : i < m.processors.size := by
  induction schedule generalizing m with
  | nil => cases hi
  | cons j rest ih =>
      obtain ⟨hstep, hrest⟩ := permitted_cons.mp h
      rcases List.mem_cons.mp hi with rfl | hmem
      · obtain ⟨p, -, -, -, hp, -⟩ := stepPermitted_iff.mp hstep
        exact (Array.getElem?_eq_some_iff.mp hp).1
      · rw [← m.size_advance j]
        exact ih hrest hmem

/-! ### What one processor can tell -/

/-- Machines that a processor cannot tell apart: it stands the same in both, and it can reach the
same bytes. Other processors may stand anywhere. -/
structure AgreeFor (own : Ownership) (i : Nat) (x y : Machine) : Prop where
  memory : x.memory.AgreeOn (own.Reach i) y.memory
  processor : Option.Rel (Processor.AgreeOn (own.Reach i)) x.processors[i]? y.processors[i]?

theorem AgreeFor.refl (own : Ownership) (i : Nat) (x : Machine) : AgreeFor own i x x := by
  refine ⟨.refl x.memory, ?_⟩
  cases x.processors[i]? with
  | none => exact .none
  | some p => exact .some (.refl p)

theorem AgreeFor.symm (h : AgreeFor own i x y) : AgreeFor own i y x := by
  refine ⟨h.memory.symm, ?_⟩
  obtain ⟨hx, hy⟩ | ⟨p, q, hx, hy, hpq⟩ := optionRel_cases h.processor
  · rw [hx, hy]
    exact .none
  · rw [hx, hy]
    exact .some hpq.symm

/-- A permitted step of a processor does the same in machines that it cannot tell apart. In
particular it is permitted in the other one too. -/
theorem AgreeFor.advance (hx : x.memory.Ordered) (h : AgreeFor own i x y)
    (hstep : x.stepPermitted own i = true) :
    y.stepPermitted own i = true ∧ AgreeFor own i (x.advance i) (y.advance i) ∧
      ∃ c c', x.completion? i = some c ∧ y.completion? i = some c' ∧ c'.frame = c.frame ∧
        c'.operation = c.operation := by
  obtain ⟨p, f, rest, c, hp, hcompletes, hpermits⟩ := stepPermitted_iff.mp hstep
  obtain ⟨hnone, -⟩ | ⟨p', q, hp', hq, hpq⟩ := optionRel_cases h.processor
  · cases hp.symm.trans hnone
  obtain rfl : p = p' := Option.some.inj (hp.symm.trans hp')
  obtain ⟨c', hcompletes', hframe, hoperation, haccesses, hprocessor, hmemory⟩ :=
    Processor.step_agree hx h.memory hpq hcompletes hpermits
  refine ⟨?_, ⟨?_, ?_⟩, c, c', ?_, ?_, hframe, hoperation⟩
  · exact stepPermitted_iff.mpr ⟨q, f, rest, c', hq, hcompletes', haccesses ▸ hpermits⟩
  · simpa only [Machine.advance, hp, hq] using hmemory
  · rw [processors_advance_self x hp, processors_advance_self y hq]
    exact .some hprocessor
  · rw [completion?, hp]
    exact hcompletes.completion?_eq
  · rw [completion?, hq]
    exact hcompletes'.completion?_eq

/-- A permitted step of one processor is nothing to another. -/
theorem agreeFor_advance_of_ne (hx : x.memory.Ordered) (hstep : x.stepPermitted own j = true)
    (hij : i ≠ j) (h : AgreeFor own i y x) : AgreeFor own i y (x.advance j) := by
  obtain ⟨p, f, rest, c, hp, hcompletes, hpermits⟩ := stepPermitted_iff.mp hstep
  refine ⟨h.memory.trans ⟨(x.blank_advance j).symm, fun a ha => ?_⟩, ?_⟩
  · have hspares := Processor.step_spares hx hcompletes hpermits hij ha
    simpa only [Machine.advance, hp] using hspares.symm
  · rw [processors_advance_of_ne x hij]
    exact h.processor

/-! ### Taking executions apart and putting them together -/

/-- When a processor moves, its lone machine moves with it and all others stay. -/
theorem agreeFor_update (hx : x.memory.Ordered) (hstep : x.stepPermitted own j = true)
    {alone : Nat → Machine} (halone : ∀ i, AgreeFor own i (alone i) x)
    (hagree : AgreeFor own j ((alone j).advance j) (x.advance j)) (i : Nat) :
    AgreeFor own i (Function.update alone j ((alone j).advance j) i) (x.advance j) := by
  by_cases hij : i = j
  · subst hij
    rwa [Function.update_self]
  · rw [Function.update_of_ne hij]
    exact agreeFor_advance_of_ne hx hstep hij (halone i)

/-- In a permitted execution every processor takes steps that it could have taken alone. The
induction is on the schedule, with one lone machine for each processor. -/
theorem permitted_alone (hx : x.memory.Ordered) {alone : Nat → Machine}
    (halone : ∀ i, AgreeFor own i (alone i) x) {schedule : List Nat}
    (h : x.permitted own schedule = true) (i : Nat) :
    (alone i).permitted own (List.replicate (schedule.count i) i) = true := by
  induction schedule generalizing x alone with
  | nil => rfl
  | cons j rest ih =>
      obtain ⟨hstep, hrest⟩ := permitted_cons.mp h
      obtain ⟨hstep', hagree, -⟩ := (halone j).symm.advance hx hstep
      have hnext := agreeFor_update hx hstep halone hagree.symm
      have hlast := ih (ordered_advance hx j) hnext hrest
      by_cases hij : i = j
      · subst hij
        rw [Function.update_self] at hlast
        rw [List.count_cons_self, List.replicate_succ, permitted_cons]
        exact ⟨hstep', hlast⟩
      · rw [Function.update_of_ne hij] at hlast
        rwa [List.count_cons_of_ne (Ne.symm hij)]

/-- Steps that processors could take alone they can take together, in any order; every processor
ends up as it does alone, and completes the same operations. The operations are counted, since only
their number matters for shared words. -/
theorem follow_alone (hx : x.memory.Ordered) {alone : Nat → Machine}
    (halone : ∀ i, AgreeFor own i (alone i) x) {schedule : List Nat}
    (h : ∀ i, (alone i).permitted own (List.replicate (schedule.count i) i) = true) :
    x.permitted own schedule = true ∧
      (∀ i, AgreeFor own i ((alone i).follow (List.replicate (schedule.count i) i))
        (x.follow schedule)) ∧
      ∀ test : Frame → Operation → Bool, ∀ i,
        (x.completions schedule).countP
            (fun entry => decide (entry.1 = i) && test entry.2.frame entry.2.operation) =
          ((alone i).completions (List.replicate (schedule.count i) i)).countP
            (fun entry => test entry.2.frame entry.2.operation) := by
  induction schedule generalizing x alone with
  | nil => exact ⟨rfl, halone, fun _ _ => rfl⟩
  | cons j rest ih =>
      have hordered : (alone j).memory.Ordered :=
        Memory.ordered_of_blank (halone j).memory.blank.symm hx
      have hj := h j
      rw [List.count_cons_self, List.replicate_succ, permitted_cons] at hj
      obtain ⟨hstep, hagree, c, c', hc, hc', hframe, hoperation⟩ := (halone j).advance hordered hj.1
      have hnext := agreeFor_update hx hstep halone hagree
      have hrest : ∀ k, (Function.update alone j ((alone j).advance j) k).permitted own
          (List.replicate (rest.count k) k) = true := by
        intro k
        by_cases hkj : k = j
        · subst hkj
          rw [Function.update_self]
          exact hj.2
        · rw [Function.update_of_ne hkj]
          have hk := h k
          rwa [List.count_cons_of_ne (Ne.symm hkj)] at hk
      obtain ⟨hpermitted, hends, hcounts⟩ := ih (ordered_advance hx j) hnext hrest
      refine ⟨permitted_cons.mpr ⟨hstep, hpermitted⟩, fun i => ?_, fun test i => ?_⟩
      · have hend := hends i
        by_cases hij : i = j
        · subst hij
          rw [Function.update_self] at hend
          rwa [List.count_cons_self, List.replicate_succ, follow_cons, follow_cons]
        · rw [Function.update_of_ne hij] at hend
          rwa [List.count_cons_of_ne (Ne.symm hij), follow_cons]
      · have hcount := hcounts test i
        rw [completions, hc', List.countP_append, hcount]
        by_cases hij : i = j
        · subst hij
          rw [Function.update_self, List.count_cons_self, List.replicate_succ, completions, hc,
            List.countP_append]
          simp [hframe, hoperation]
        · rw [Function.update_of_ne hij, List.count_cons_of_ne (Ne.symm hij)]
          simp [Ne.symm hij]

end

/-! ### Shared words -/

/-- Entries that are as many for every number are as many altogether. -/
theorem countP_of_tags {α : Type} (test : α → Bool) {entries entries' : List (Nat × α)}
    (h : ∀ i, entries.countP (fun entry => decide (entry.1 = i) && test entry.2) =
      entries'.countP (fun entry => decide (entry.1 = i) && test entry.2)) :
    entries.countP (fun entry => test entry.2) = entries'.countP fun entry => test entry.2 := by
  have hcount : ∀ (list : List (Nat × α)) (i : Nat),
      ((list.filter fun entry => test entry.2).map Prod.fst).count i =
        list.countP fun entry => decide (entry.1 = i) && test entry.2 := by
    intro list i
    rw [List.count, List.countP_map, List.countP_filter]
    apply List.countP_congr
    intro entry _
    simp [Bool.beq_eq_decide_eq]
  have hperm : ((entries.filter fun entry => test entry.2).map Prod.fst).Perm
      ((entries'.filter fun entry => test entry.2).map Prod.fst) := by
    rw [List.perm_iff_count]
    intro i
    rw [hcount, hcount, h i]
  simpa only [List.length_map, List.countP_eq_length_filter] using hperm.length_eq

section

variable {own : Ownership} {m : Machine} {i : Nat} {w : UInt32}

/-- Among permitted operations only an increment of the word writes to a byte of a shared word. -/
theorem increments_of_written {p : Processor} {f : Frame} {rest : List Frame} {c : Completion}
    (hcompletes : p.Completes m.memory f rest c)
    (hpermits : ∀ access ∈ p.accesses c, own.permits i access = true) {a : Nat}
    (ha : own.owner a = .counter w) {address : UInt32} {bytes : List UInt8}
    (hstore : c.effect.store = some (address, bytes)) (hlow : address.toNat ≤ a)
    (hhigh : a < address.toNat + bytes.length) : c.increments w = true := by
  have howner := Operation.owner_of_written hcompletes.effect
    (fun access haccess => hpermits access (List.mem_cons_of_mem _ haccess)) hstore
    (k := a - address.toNat) (by omega)
  rw [Nat.add_sub_cancel' hlow, ha] at howner
  rcases howner with hexclusive | ⟨hcounter, base, offset, hop, haddress⟩
  · cases hexclusive
  · obtain rfl := Owner.counter.inj hcounter
    rw [Completion.increments, hop]
    exact decide_eq_true haddress

variable (hw : ∀ k < 4, own.owner (w.toNat + k) = .counter w)

include hw

theorem countsOrSpares_of_completes {p : Processor} {f : Frame} {rest : List Frame} {c : Completion}
    (hcompletes : p.Completes m.memory f rest c)
    (hpermits : ∀ access ∈ p.accesses c, own.permits i access = true) :
    c.countsOrSpares w = true := by
  unfold Completion.countsOrSpares
  by_cases hincrements : c.increments w = true
  · rw [hincrements, Bool.true_or, Bool.true_or]
  · rw [Bool.or_eq_true]
    refine .inr ?_
    cases hstore : c.effect.store with
    | none => rfl
    | some change =>
        obtain ⟨address, bytes⟩ := change
        rw [Option.all_some, decide_eq_true_eq]
        dsimp only
        by_contra hoverlap
        -- the first byte that both have
        have hbyte := hw (max address.toNat w.toNat - w.toNat) (by omega)
        rw [Nat.add_sub_cancel' (Nat.le_max_right _ _)] at hbyte
        exact hincrements
          (increments_of_written hcompletes hpermits hbyte hstore (by omega) (by omega))

/-- So a shared word meets the condition under which increments add up. -/
theorem countsOrSpares_of_permitted {schedule : List Nat} (h : m.permitted own schedule = true) :
    ∀ entry ∈ m.completions schedule, entry.2.countsOrSpares w = true := by
  induction schedule generalizing m with
  | nil => simp [completions]
  | cons i rest ih =>
      obtain ⟨hstep, hrest⟩ := permitted_cons.mp h
      obtain ⟨p, f, below, c, hp, hcompletes, hpermits⟩ := stepPermitted_iff.mp hstep
      have hc : m.completion? i = some c := by
        rw [completion?, hp]
        exact hcompletes.completion?_eq
      intro entry hentry
      rw [completions, hc] at hentry
      rcases List.mem_append.mp hentry with hfirst | hlater
      · obtain rfl := List.mem_singleton.mp hfirst
        exact countsOrSpares_of_completes hw hcompletes hpermits
      · exact ih hrest entry hlater

/-- Before any step a shared word has a value, or no step ever changes it. The second is for words
that are not all there: no increment of such a word completes. -/
theorem holdsWord_or_unchanged (hm : m.memory.Ordered) {schedule : List Nat}
    (h : m.permitted own schedule = true) :
    (∃ v, m.memory.HoldsWord w v) ∨
      ∀ k < 4, (m.follow schedule).memory.byte? (w.toNat + k) = m.memory.byte? (w.toNat + k) := by
  induction schedule generalizing m with
  | nil => exact .inr fun _ _ => rfl
  | cons i rest ih =>
      obtain ⟨hstep, hrest⟩ := permitted_cons.mp h
      obtain ⟨p, f, below, c, hp, hcompletes, hpermits⟩ := stepPermitted_iff.mp hstep
      by_cases hincrements : c.increments w = true
      · obtain ⟨n, hread, -⟩ := Completion.store_of_counts hcompletes.effect (.inl hincrements)
        exact .inl ⟨_, Memory.holdsWord_of_readNat hm hread⟩
      · have hsame : ∀ k < 4, (m.advance i).memory.byte? (w.toNat + k) =
            m.memory.byte? (w.toNat + k) := by
          intro k hk
          rw [memory_advance, completion?, hp, Option.bind_some, hcompletes.completion?_eq,
            Option.elim_some]
          refine Effect.byte?_memory hm hcompletes.effect fun address bytes hstore => ?_
          by_contra hinside
          exact hincrements
            (increments_of_written hcompletes hpermits (hw k hk) hstore (by omega) (by omega))
        rcases ih (ordered_advance hm i) hrest with ⟨v, hv⟩ | hunchanged
        · exact .inl ⟨v, fun k hk => by rw [← hsame k hk, hv k hk]⟩
        · exact .inr fun k hk => by rw [follow_cons, hunchanged k hk, hsame k hk]

end

/-! ### Any two orders -/

section

variable {own : Ownership} {m : Machine} {schedule schedule' : List Nat}

/-- A shared word is the same after two executions in which every processor completes the same
operations. Its first value is the same, and so is the number of increments. -/
theorem byte?_counter (hm : m.memory.Ordered) {w : UInt32}
    (hw : ∀ k < 4, own.owner (w.toNat + k) = .counter w) (h : m.permitted own schedule = true)
    (h' : m.permitted own schedule' = true)
    (hcounts : ∀ test : Frame → Operation → Bool, ∀ i,
      (m.completions schedule').countP
          (fun entry => decide (entry.1 = i) && test entry.2.frame entry.2.operation) =
        (m.completions schedule).countP
          (fun entry => decide (entry.1 = i) && test entry.2.frame entry.2.operation))
    {k : Nat} (hk : k < 4) :
    (m.follow schedule').memory.byte? (w.toNat + k) =
        (m.follow schedule).memory.byte? (w.toNat + k) := by
  by_cases hvalue : ∃ v, m.memory.HoldsWord w v
  · obtain ⟨v, hv⟩ := hvalue
    have hafter := holdsWord_follow hm (countsOrSpares_of_permitted hw h) hv
    have hafter' := holdsWord_follow hm (countsOrSpares_of_permitted hw h') hv
    have hincrements := countP_of_tags (fun c : Completion => c.increments w)
      (hcounts fun f op => op.increments f w)
    have hdecrements := countP_of_tags (fun c : Completion => c.decrements w)
      (hcounts fun f op => op.decrements f w)
    rw [hincrements, hdecrements] at hafter'
    rw [hafter k hk, hafter' k hk]
  · have hunchanged := (holdsWord_or_unchanged hw hm h).resolve_left hvalue
    have hunchanged' := (holdsWord_or_unchanged hw hm h').resolve_left hvalue
    rw [hunchanged k hk, hunchanged' k hk]

/-- If the steps of a permitted execution are taken in another order, they are permitted again;
memory ends up the same, and the processors do but for what they read ahead. Bytes are compared by
their owners: constant ones never change, those of a processor are settled by it alone, and shared
words by counting. -/
theorem follow_reordered (hm : m.memory.Ordered) (h : m.permitted own schedule = true)
    (hcount : ∀ i, schedule'.count i = schedule.count i) :
    m.permitted own schedule' = true ∧ (m.follow schedule').memory = (m.follow schedule).memory ∧
      ∀ i : Nat, Option.Rel (fun p q : Processor => p.frames = q.frames ∧ p.retired = q.retired ∧
        p.stats = q.stats) (m.follow schedule).processors[i]?
          (m.follow schedule').processors[i]? := by
  have halone : ∀ i, (m.permitted own (List.replicate (schedule.count i) i)) = true :=
    permitted_alone hm (fun i => .refl own i m) h
  have halone' : ∀ i, (m.permitted own (List.replicate (schedule'.count i) i)) = true :=
    fun i => hcount i ▸ halone i
  obtain ⟨-, hends, hcounts⟩ := follow_alone hm (fun i => .refl own i m) halone
  obtain ⟨hpermitted, hends', hcounts'⟩ := follow_alone hm (fun i => .refl own i m) halone'
  simp only [hcount] at hends' hcounts'
  refine ⟨hpermitted, ?_, fun i => ?_⟩
  · apply Memory.ext_bytes (ordered_follow hm schedule')
    · rw [blank_follow, blank_follow]
    · have hreach : ∀ i a, own.Reach i a →
          (m.follow schedule').memory.byte? a = (m.follow schedule).memory.byte? a := by
        intro i a ha
        rw [← (hends i).memory.bytes a ha, (hends' i).memory.bytes a ha]
      intro a
      cases howner : own.owner a with
      | constant => exact hreach 0 a (.inl howner)
      | exclusive i => exact hreach i a (.inr howner)
      | counter w =>
          obtain ⟨hlow, hhigh, hwhole⟩ := own.whole a w howner
          have hsame := byte?_counter hm hwhole h hpermitted
            (fun test i => (hcounts' test i).trans (hcounts test i).symm) (k := a - w.toNat)
            (by omega)
          rwa [Nat.add_sub_cancel' hlow] at hsame
  · obtain ⟨hnone, hp⟩ | ⟨r, p, hr, hp, hrp⟩ := optionRel_cases (hends i).processor
    · obtain ⟨-, hq⟩ | ⟨r', q, hr', -⟩ := optionRel_cases (hends' i).processor
      · rw [hp, hq]
        exact .none
      · cases hnone.symm.trans hr'
    · obtain ⟨hnone, -⟩ | ⟨r', q, hr', hq, hrq⟩ := optionRel_cases (hends' i).processor
      · cases hnone.symm.trans hr
      · obtain rfl := Option.some.inj (hr.symm.trans hr')
        rw [hp, hq]
        exact .some ⟨hrp.frames.symm.trans hrq.frames, hrp.retired.symm.trans hrq.retired,
          hrp.stats.symm.trans hrq.stats⟩

end

/-! ### One after the other -/

/-- Runs a processor until it has no frames left, with the others standing still. -/
def runOne (fuel : Nat) (m : Machine) (i : Nat) : Machine × Ending :=
  match m.processors[i]? with
  | none => (m, .finished)
  | some p =>
      let final := Session.run .none 0 fuel ⟨p, m.memory, (), 0⟩
      ({ m with
          memory := final.1.memory
          processors := m.processors.setIfInBounds i final.1.processor }, final.2)

/-- Runs some processors, one after the other. All of them are run, however those before have
ended. -/
def runEach (fuel : Nat) : List Nat → Machine → Machine × List Ending
  | [], m => (m, [])
  | i :: rest, m =>
      let one := m.runOne fuel i
      let others := runEach fuel rest one.1
      (others.1, one.2 :: others.2)

/-- Runs all processors, one after the other in the order of their numbers. -/
def runInOrder (fuel : Nat) (m : Machine) : Machine × List Ending :=
  runEach fuel (List.range m.processors.size) m

/-- The schedule in which some processors take their steps one after the other. -/
def sequential (order : List Nat) (steps : Nat → Nat) : List Nat :=
  order.flatMap fun i => List.replicate (steps i) i

section

variable {own : Ownership} {m : Machine} {i : Nat}

theorem sequential_cons (i : Nat) (rest : List Nat) (steps : Nat → Nat) :
    sequential (i :: rest) steps = List.replicate (steps i) i ++ sequential rest steps :=
  List.flatMap_cons

theorem mem_of_mem_sequential {order : List Nat} {steps : Nat → Nat}
    (h : i ∈ sequential order steps) : i ∈ order := by
  obtain ⟨j, hj, hi⟩ := List.mem_flatMap.mp h
  rwa [List.eq_of_mem_replicate hi]

theorem processors_follow_of_notMem {schedule : List Nat} (h : i ∉ schedule) :
    (m.follow schedule).processors[i]? = m.processors[i]? := by
  induction schedule generalizing m with
  | nil => rfl
  | cons j rest ih =>
      rw [List.mem_cons, not_or] at h
      rw [follow_cons, ih h.2, processors_advance_of_ne m h.1]

/-- In that schedule every processor takes its steps, and no others are taken. -/
theorem count_sequential (n : Nat) (steps : Nat → Nat) (i : Nat) :
    (sequential (List.range n) steps).count i = if i < n then steps i else 0 := by
  induction n with
  | zero => rfl
  | succ n ih =>
      rw [sequential] at ih ⊢
      rw [List.range_succ, List.flatMap_append, List.count_append, ih, List.flatMap_singleton,
        List.count_replicate]
      by_cases hi : n = i
      · subst hi
        simp
      · have hlt : i < n + 1 ↔ i < n := by omega
        simp [hi, hlt]

/-- The first turn of a run is the step that the processor takes in the machine. -/
theorem turn_eq_advance {p : Processor} (hp : m.processors[i]? = some p)
    (h : m.stepPermitted own i = true) (patience : Nat) :
    ∃ left, (⟨p, m.memory, (), patience⟩ : Session Unit).turn .none 0 =
      (⟨(p.step m.memory).1, (m.advance i).memory, (), left⟩, none) := by
  obtain ⟨p', f, rest, c, hp', hcompletes, -⟩ := stepPermitted_iff.mp h
  obtain rfl := Option.some.inj (hp.symm.trans hp')
  let s : Session Unit := ⟨p, m.memory, (), patience⟩
  have hdepth : 0 < s.processor.depth := by
    change 0 < p.frames.length
    rw [hcompletes.frames]
    exact Nat.succ_pos _
  obtain ⟨hprocessor, hmemory, hending⟩ := Session.turn_of_lt .none 0 hdepth rfl
  have hadvance : (m.advance i).memory = (p.step m.memory).2.1 := by rw [advance, hp]
  have hfault : (p.step m.memory).2.2 = none := by rw [Processor.step_of_completes hcompletes]
  refine ⟨(s.turn .none 0).1.patience, ?_⟩
  rw [hadvance, ← hprocessor, ← hmemory]
  exact Prod.ext rfl (hending.trans (congrArg (Option.map Ending.fault) hfault))

/-- A run of a processor takes the steps that the processor takes until its frames are gone. Fuel
for one more turn is needed to see that they are. -/
theorem run_eq_follow {n : Nat} (fuel patience : Nat) {p : Processor}
    (hp : m.processors[i]? = some p) (h : m.permitted own (List.replicate n i) = true)
    (hdone : ∀ q, (m.follow (List.replicate n i)).processors[i]? = some q → q.frames = [])
    (hfuel : n < fuel) :
    ∃ q left, Session.run .none 0 fuel ⟨p, m.memory, (), patience⟩ =
        (⟨q, (m.follow (List.replicate n i)).memory, (), left⟩, .finished) ∧
      m.follow (List.replicate n i) =
        { m with
          memory := (m.follow (List.replicate n i)).memory
          processors := m.processors.setIfInBounds i q } := by
  induction n generalizing m p fuel patience with
  | zero =>
      obtain ⟨fuel, rfl⟩ : ∃ k, fuel = k + 1 := ⟨fuel - 1, by omega⟩
      have hdepth : p.depth ≤ 0 := Nat.le_of_eq (congrArg List.length (hdone p hp))
      refine ⟨p, patience, Session.run_of_le hdepth fuel, ?_⟩
      rw [Array.setIfInBounds_eq_self hp]
      rfl
  | succ n ih =>
      obtain ⟨fuel, rfl⟩ : ∃ k, fuel = k + 1 := ⟨fuel - 1, by omega⟩
      rw [List.replicate_succ] at h hdone ⊢
      obtain ⟨hstep, hrest⟩ := permitted_cons.mp h
      rw [follow_cons] at hdone ⊢
      obtain ⟨left, hturn⟩ := turn_eq_advance hp hstep patience
      obtain ⟨q, left, hrun, hfollow⟩ :=
        ih fuel left (m.processors_advance_self hp) hrest hdone (by omega)
      refine ⟨q, left, (Session.run_of_turn hturn fuel).trans hrun, ?_⟩
      rw [hfollow]
      simp only [advance, hp, Array.setIfInBounds_setIfInBounds]

theorem runOne_eq_follow {n fuel : Nat} (hi : i < m.processors.size)
    (h : m.permitted own (List.replicate n i) = true)
    (hdone : ∀ q, (m.follow (List.replicate n i)).processors[i]? = some q → q.frames = [])
    (hfuel : n < fuel) : m.runOne fuel i = (m.follow (List.replicate n i), .finished) := by
  have hp : m.processors[i]? = some m.processors[i] := Array.getElem?_eq_getElem hi
  obtain ⟨q, left, hrun, hfollow⟩ := run_eq_follow fuel 0 hp h hdone hfuel
  rw [runOne, hp]
  simp only [hrun]
  rw [← hfollow]

/-- Processors that are run one after the other follow the schedule in which they take their steps
one after the other. -/
theorem runEach_eq_follow {order : List Nat} {steps : Nat → Nat} {fuel : Nat} (hnodup : order.Nodup)
    (hexist : ∀ i ∈ order, i < m.processors.size)
    (h : m.permitted own (sequential order steps) = true)
    (hdone : ∀ i ∈ order, ∀ q, (m.follow (sequential order steps)).processors[i]? = some q →
      q.frames = [])
    (hfuel : ∀ i ∈ order, steps i < fuel) :
    m.runEach fuel order =
      (m.follow (sequential order steps), List.replicate order.length .finished) := by
  induction order generalizing m with
  | nil => rfl
  | cons i rest ih =>
      rw [List.nodup_cons] at hnodup
      rw [sequential_cons] at h hdone ⊢
      rw [permitted_append] at h
      rw [follow_append] at hdone ⊢
      have hlater : i ∉ sequential rest steps := fun hi => hnodup.1 (mem_of_mem_sequential hi)
      have hfirst : ∀ q, (m.follow (List.replicate (steps i) i)).processors[i]? = some q →
          q.frames = [] := by
        intro q hq
        apply hdone i List.mem_cons_self
        rwa [processors_follow_of_notMem hlater]
      have hone := runOne_eq_follow (hexist i List.mem_cons_self) h.1 hfirst
        (hfuel i List.mem_cons_self)
      have hothers := ih hnodup.2
        (fun j hj => by rw [size_follow]; exact hexist j (List.mem_cons_of_mem i hj)) h.2
        (fun j hj => hdone j (List.mem_cons_of_mem i hj))
        (fun j hj => hfuel j (List.mem_cons_of_mem i hj))
      rw [runEach, hone]
      dsimp only
      rw [hothers, List.length_cons, List.replicate_succ]

end

/-- If all processors of a machine come to their end in some interleaving, without a fault and
within an ownership of memory, then they come to their end one after the other as well, and it is
the same end: memory, the frames that the host holds and the statistics of every processor are the
same.

The proof takes the interleaving apart into the executions of single processors (`permitted_alone`)
and puts them together one after the other (`follow_alone`); that running them so is following that
schedule is `runEach_eq_follow`. -/
theorem schedule_irrelevant (own : Ownership) (m : Machine) (hm : m.memory.Built)
    (schedule : List Nat) (hpermitted : m.permitted own schedule = true)
    (hdone : ∀ p ∈ (m.follow schedule).processors, p.frames = []) (fuel : Nat)
    (hfuel : schedule.length < fuel) :
    let ordered := m.runInOrder fuel
    ordered.2 = List.replicate m.processors.size .finished ∧
      ordered.1.memory = (m.follow schedule).memory ∧
      ∀ (i : Nat) (p : Processor), (m.follow schedule).processors[i]? = some p →
        ∃ q : Processor, ordered.1.processors[i]? = some q ∧
          (∀ ticket, q.held? ticket = p.held? ticket) ∧
          q.stats = p.stats := by
  let order := List.range m.processors.size
  have hcount : ∀ i, (sequential order schedule.count).count i = schedule.count i := by
    intro i
    rw [count_sequential]
    split
    · rfl
    · rename_i hi
      exact (List.count_eq_zero.mpr fun hmem => hi (lt_of_permitted hpermitted hmem)).symm
  obtain ⟨hsequential, hmemory, hprocessors⟩ := follow_reordered hm.ordered hpermitted hcount
  have hends : ∀ i ∈ order, ∀ q,
      (m.follow (sequential order schedule.count)).processors[i]? = some q → q.frames = [] := by
    intro i _ q hq
    obtain ⟨-, hnone⟩ | ⟨p, q', hp, hq', hframes, -⟩ := optionRel_cases (hprocessors i)
    · cases hq.symm.trans hnone
    · obtain rfl := Option.some.inj (hq.symm.trans hq')
      rw [← hframes]
      exact hdone p (Array.mem_of_getElem? hp)
  have hrun : m.runInOrder fuel =
      (m.follow (sequential order schedule.count), List.replicate order.length .finished) :=
    runEach_eq_follow List.nodup_range (fun i hi => List.mem_range.mp hi) hsequential hends
      fun i _ => Nat.lt_of_le_of_lt List.count_le_length hfuel
  rw [hrun, List.length_range]
  refine ⟨rfl, hmemory, fun i p hp => ?_⟩
  obtain ⟨hnone, -⟩ | ⟨p', q, hp', hq, hframes, hretired, hstats⟩ := optionRel_cases (hprocessors i)
  · cases hp.symm.trans hnone
  · obtain rfl := Option.some.inj (hp.symm.trans hp')
    refine ⟨q, hq, fun ticket => ?_, hstats.symm⟩
    rw [Processor.held?, Processor.held?, hframes, hretired]

/-- Code up to 32, a counter there, and a word for each of two processors behind it. -/
def sharedCounter : Ownership where
  owner a :=
    if a < 32 then .constant else if a < 36 then .counter 32 else if a < 40 then .exclusive 0
    else if a < 44 then .exclusive 1 else .constant
  whole a w h := by
    split at h
    · cases h
    · split at h
      · cases h
        refine ⟨Nat.not_lt.mp ‹_›, ‹_›, fun i hi => ?_⟩
        have hbase : (32 : UInt32).toNat = 32 := rfl
        rw [if_neg (by omega), if_pos (by omega)]
      · split at h
        · cases h
        · split at h <;> cases h

/-- Two processors that increment the counter and then note an address in a word of their own. Both
read ahead over the counter and both words. -/
def noting : Machine where
  memory := .region (.ofBytes "ram" 0
    ([0x4C, 12, 0, 0xD3, 13, 13, 0, 0, 0, 0, 0x49] ++ List.replicate 33 0) ⟨true, true⟩)
  processors :=
    #[(Processor.ofOptions 0 0).enter 0 [32, 36], (Processor.ofOptions 0 0).enter 0 [32, 40]]
  headers := .empty 1

theorem schedule_irrelevant_noting :
    let schedule := [1, 0, 0, 1, 1, 0]
    noting.permitted sharedCounter schedule = true ∧
      (∀ p ∈ (noting.follow schedule).processors, p.frames = []) ∧
      (noting.runInOrder 7).2 = List.replicate noting.processors.size .finished ∧
      (noting.runInOrder 7).1.memory = (noting.follow schedule).memory ∧
      ∀ (i : Nat) (p : Processor), (noting.follow schedule).processors[i]? = some p →
        ∃ q : Processor, (noting.runInOrder 7).1.processors[i]? = some q ∧
          (∀ ticket, q.held? ticket = p.held? ticket) ∧ q.stats = p.stats := by
  have hpermitted : noting.permitted sharedCounter [1, 0, 0, 1, 1, 0] = true := by decide +kernel
  have hdone : ∀ p ∈ (noting.follow [1, 0, 0, 1, 1, 0]).processors, p.frames = [] := by
    have hempty : (noting.follow [1, 0, 0, 1, 1, 0]).processors.all (·.frames.isEmpty) = true := by
      decide +kernel
    intro p hp
    exact List.isEmpty_iff.mp (Array.all_eq_true_iff_forall_mem.mp hempty p hp)
  exact ⟨hpermitted, hdone,
    schedule_irrelevant sharedCounter noting (.region _) _ hpermitted hdone 7 (by decide)⟩

end Machine

end RegisterVM
