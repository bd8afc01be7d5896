import RegisterVM.Proofs.Segments

/-!
# Noticing that a run is to stop

Whether to stop is asked before the first step of a run, after each step that changes the innermost
frame, and otherwise once the patience given at the last question is used up. Patience goes down by
one with every step that stays in its frame and is dropped with every other, so at any time it
bounds the steps that can start before the next question. It is below `checkInterval`, and with it
the number of steps that start after the observer has made up its mind to stop the run.
-/

namespace RegisterVM

/-- Once the observer wants a run to stop, it goes on wanting so, for the same reason. A context
that was cancelled stays cancelled. -/
def Observer.Steadfast {σ : Type} (observer : Observer σ) : Prop :=
  ∀ notes memory view reason, observer.stop? notes = some reason →
    observer.stop? (observer.observe notes memory view) = some reason

/-! ### The innermost frame -/

/-- A frame entered as another was. The registers and the position may have changed since. -/
structure Frame.SameEntry (f g : Frame) : Prop where
  entry : f.entry = g.entry
  spilled : f.spilled = g.spilled
  ticket : f.ticket = g.ticket

theorem Frame.sameEntry_foldl_set (changes : List (Register × Int32)) (f : Frame) :
    (changes.foldl (fun f (r, v) => f.set r v) f).SameEntry f := by
  induction changes generalizing f with
  | nil => exact ⟨rfl, rfl, rfl⟩
  | cons change rest ih =>
      have hrest := ih (f.set change.1 change.2)
      exact ⟨hrest.entry, hrest.spilled, hrest.ticket⟩

namespace Processor

/-- The frame that was innermost still is: the frames below it are what they were. A call and a
return do not stay, not even a call of the same code. -/
def StaysInFrame (p q : Processor) : Prop :=
  ∃ f f' rest, p.frames = f :: rest ∧ q.frames = f' :: rest ∧ f'.SameEntry f

/-- A step that leaves as many frames as there were stays in the innermost one. A run compares
depths only, and this is why that is enough. -/
theorem staysInFrame_of_depth {p q : Processor} {m n : Memory} (hpos : 0 < p.depth)
    (h : p.step m = (q, n, none)) (hdepth : q.depth = p.depth) : p.StaysInFrame q := by
  obtain ⟨f, rest, hframes⟩ := List.exists_cons_of_length_pos hpos
  obtain ⟨c, hcompletes⟩ := completes_of_step hframes (by rw [h])
  rw [step_of_completes hcompletes] at h
  cases h
  simp only [depth, withCache_frames, commit, p.markStart_eq hframes, hframes] at hdepth
  cases hflow : c.effect.flow with
  | goto pc =>
      have hset := Frame.sameEntry_foldl_set c.effect.registers { f with last := f.pc }
      have hafter : ((p.markStart.commit c.effect).withCache
          (RegisterVM.fetch m f.pc p.cache).cache (p.stats.refills +
            UInt64.ofNat (RegisterVM.fetch m f.pc p.cache).refills)).frames =
          { c.effect.registers.foldl (fun f (r, v) => f.set r v) { f with last := f.pc } with
            pc } :: rest := by
        simp only [withCache_frames, commit, p.markStart_eq hframes, hflow, follow]
      exact ⟨f, _, rest, hframes, hafter, hset.entry, hset.spilled, hset.ticket⟩
  | call resume target arguments =>
      simp only [hflow, follow, List.length_cons] at hdepth
      omega
  | leave pc =>
      simp only [hflow, follow, leaveFrame] at hdepth
      cases rest <;> simp at hdepth

end Processor

namespace Session

open Processor (Concludes)

variable {σ : Type} {observer : Observer σ} {floor : Nat}

/-! ### Patience -/

/-- What a turn that completes a step makes of patience. It goes down by one, or starts again if it
was used up and the observer let the run go on. Where the step changed the innermost frame, none is
left. -/
theorem patience_turn {s after : Session σ} (h : s.turn observer floor = (after, none)) :
    (after.patience = 0 ∨ s.patience = after.patience + 1 ∨
      s.patience = 0 ∧ after.patience = checkInterval - 1) ∧
    (¬ s.processor.StaysInFrame after.processor → after.patience = 0) := by
  obtain ⟨-, hturn⟩ | ⟨-, reason, -, hturn⟩ | ⟨f, rest, left, hframes, hleft, hturn⟩ :=
    turn_alternatives observer floor s
  · rw [hturn] at h
    cases h
  · rw [hturn] at h
    cases h
  · rw [hturn] at h
    obtain ⟨rfl, hnone⟩ := Prod.mk.inj h
    obtain ⟨hprocessor, -, hfault⟩ := execute_step observer hframes left
    rw [Option.map_eq_none_iff, hfault] at hnone
    rw [patience_execute observer hframes left hnone, hprocessor]
    have hpos : 0 < s.processor.depth := by
      rw [Processor.depth, hframes]
      exact Nat.zero_lt_succ _
    split
    · rename_i hdepth
      refine ⟨.inr (hleft.imp_right fun hfull => ⟨hfull.1, hfull.2.2⟩), fun hleaves => ?_⟩
      exact absurd (Processor.staysInFrame_of_depth hpos (m := s.memory) (by rw [← hnone]) hdepth)
        hleaves
    · exact ⟨.inl rfl, fun _ => rfl⟩

/-- The observer's mind stays made up over a turn, whatever the turn shows it. -/
theorem done_turn (hsteadfast : observer.Steadfast) (floor : Nat) {s : Session σ}
    {reason : StopReason} (hdone : observer.stop? s.observed = some reason) :
    observer.stop? (s.turn observer floor).1.observed = some reason := by
  obtain ⟨-, hturn⟩ | ⟨-, other, -, hturn⟩ | ⟨f, rest, left, -, -, hturn⟩ :=
    turn_alternatives observer floor s
  · rw [hturn]
    exact hdone
  · rw [hturn]
    exact hdone
  · rw [hturn, execute]
    cases s.processor.markStart.fetch s.memory f.pc with
    | mk p outcome =>
        cases outcome with
        | error fault => exact hdone
        | ok inst => exact hsteadfast _ _ _ _ hdone

/-- A turn that ends a run says how: `running` is for runs that are cut off. -/
theorem turn_ne_running (observer : Observer σ) (floor : Nat) (s : Session σ) :
    (s.turn observer floor).2 ≠ some .running := by
  obtain ⟨-, hturn⟩ | ⟨-, reason, -, hturn⟩ | ⟨f, rest, left, -, -, hturn⟩ :=
    turn_alternatives observer floor s
  · simp [hturn]
  · simp [hturn]
  · rw [hturn]
    intro hrunning
    obtain ⟨fault, -, hfault⟩ := Option.map_eq_some_iff.mp hrunning
    cases hfault

/-- A run that goes on has completed a step in its first turn. -/
theorem run_running {k : Nat} {s before : Session σ}
    (h : s.run observer floor (k + 1) = (before, .running)) :
    ∃ after, s.turn observer floor = (after, none) ∧
      after.run observer floor k = (before, .running) := by
  cases hturn : s.turn observer floor with
  | mk after ending =>
      cases ending with
      | none => exact ⟨after, rfl, (run_of_turn hturn k).symm.trans h⟩
      | some ending =>
          rw [run, hturn] at h
          obtain ⟨rfl, rfl⟩ := Prod.mk.inj h
          exact absurd (congrArg Prod.snd hturn) (turn_ne_running observer floor s)

/-- Patience stays below the interval, since it starts there and no turn takes it higher. -/
theorem patience_run {k : Nat} {s before : Session σ} (hs : s.patience < checkInterval)
    (h : s.run observer floor k = (before, .running)) : before.patience < checkInterval := by
  induction k generalizing s with
  | zero =>
      cases h
      exact hs
  | succ k ih =>
      obtain ⟨after, hturn, hrest⟩ := run_running h
      refine ih ?_ hrest
      have hinterval : 0 < checkInterval := by decide
      have hpatience := (patience_turn hturn).1
      omega

/-! ### Returning -/

/-- A run that starts `count` steps, the last of which may fail, and returns. It counts steps, which
`run` does not: a turn that ends a run before its step is not one. -/
inductive Returns (observer : Observer σ) (floor : Nat) :
    (count : Nat) → (s final : Session σ) → Ending → Prop
  | finished {s : Session σ} : s.turn observer floor = (s, some .finished) →
      Returns observer floor 0 s s .finished
  | stopped {s : Session σ} {reason : StopReason} :
      s.turn observer floor = (s, some (.stopped reason)) →
      Returns observer floor 0 s s (.stopped reason)
  | fault {s final : Session σ} {fault : Fault} :
      s.turn observer floor = (final, some (.fault fault)) →
      Returns observer floor 1 s final (.fault fault)
  | step {count : Nat} {s after final : Session σ} {ending : Ending} :
      s.turn observer floor = (after, none) → Returns observer floor count after final ending →
      Returns observer floor (count + 1) s final ending

namespace Returns

variable {count : Nat} {s final : Session σ} {ending : Ending}

/-- With enough turns granted a run comes to its return, and more turns change nothing. -/
theorem run_eq (h : Returns observer floor count s final ending) {fuel : Nat}
    (hfuel : count < fuel) : s.run observer floor fuel = (final, ending) := by
  induction h generalizing fuel with
  | finished hturn | stopped hturn | fault hturn =>
      obtain ⟨fuel, rfl⟩ := Nat.exists_eq_add_of_lt (Nat.zero_lt_of_lt hfuel)
      rw [Nat.zero_add, run, hturn]
  | step hturn _ ih =>
      obtain ⟨fuel, rfl⟩ := Nat.exists_eq_add_of_lt (Nat.zero_lt_of_lt hfuel)
      rw [Nat.zero_add, run_of_turn hturn]
      exact ih (by omega)

theorem ne_running (h : Returns observer floor count s final ending) : ending ≠ .running := by
  induction h with
  | finished => simp
  | stopped => simp
  | fault => simp
  | step _ _ ih => exact ih

/-- Steps that were taken before count too. -/
theorem after_run {k : Nat} {before : Session σ}
    (hrun : s.run observer floor k = (before, .running))
    (h : Returns observer floor count before final ending) :
    Returns observer floor (k + count) s final ending := by
  induction k generalizing s with
  | zero =>
      cases hrun
      rwa [Nat.zero_add]
  | succ k ih =>
      obtain ⟨after, hturn, hrest⟩ := run_running hrun
      rw [Nat.add_right_comm]
      exact .step hturn (ih hrest)

end Returns

/-- After the observer has made up its mind, patience bounds the steps that start. The induction is
on patience. -/
theorem returns_of_done (hsteadfast : observer.Steadfast) (floor : Nat) {s : Session σ}
    {reason : StopReason} (hdone : observer.stop? s.observed = some reason) :
    ∃ count final ending, Returns observer floor count s final ending ∧ count ≤ s.patience ∧
      ∀ other, ending = .stopped other → other = reason := by
  -- every step uses up patience, since only a question starts it again and that would end the run
  induction hpatience : s.patience using Nat.strong_induction_on generalizing s with
  | h patience ih =>
      obtain ⟨-, hturn⟩ | ⟨-, other, hother, hturn⟩ | ⟨f, rest, left, -, hleft, hturn⟩ :=
        turn_alternatives observer floor s
      · exact ⟨0, s, _, .finished hturn, Nat.zero_le _, by simp⟩
      · refine ⟨0, s, _, .stopped hturn, Nat.zero_le _, ?_⟩
        rintro _ ⟨⟩
        exact Option.some.inj (hother.symm.trans hdone)
      · rw [hdone] at hleft
        simp only [reduceCtorEq, false_and, and_false, or_false] at hleft
        cases hfault : (s.execute observer f left).2 with
        | some fault =>
            rw [hfault] at hturn
            exact ⟨1, _, _, .fault hturn, by omega, by simp⟩
        | none =>
            rw [hfault] at hturn
            have hless := (patience_turn hturn).1
            have hstill : observer.stop? (s.execute observer f left).1.observed = some reason := by
              have hkept := done_turn hsteadfast floor hdone
              rwa [hturn] at hkept
            obtain ⟨count, final, ending, hreturns, hcount, hreason⟩ := ih _ (by omega) hstill rfl
            exact ⟨count + 1, final, ending, .step hturn hreturns, by omega, hreason⟩

/-- Without patience a run asks the observer before it starts a step. -/
theorem returns_of_asked {s : Session σ} {reason : StopReason} (hdepth : floor < s.processor.depth)
    (hpatience : s.patience = 0) (hdone : observer.stop? s.observed = some reason) :
    Returns observer floor 0 s s (.stopped reason) :=
  .stopped (turn_of_stop observer floor hdepth hpatience hdone)

/-- Where the observer makes up its mind in a turn, a step is carried out in that turn: only a step
is shown to the observer. -/
theorem step_of_done {s after : Session σ} {ending : Option Ending} {reason : StopReason}
    (hturn : s.turn observer floor = (after, ending)) (hbefore : observer.stop? s.observed = none)
    (hafter : observer.stop? after.observed = some reason) :
    ∃ fault, s.processor.step s.memory = (after.processor, after.memory, fault) ∧
      ending = fault.map .fault := by
  have hdepth : floor < s.processor.depth := by
    by_contra hle
    rw [turn_of_le observer floor (Nat.not_lt.mp hle)] at hturn
    cases hturn
    cases hbefore.symm.trans hafter
  obtain ⟨hprocessor, hmemory, hending⟩ := turn_of_lt observer floor hdepth hbefore
  rw [hturn] at hprocessor hmemory hending
  exact ⟨_, by rw [hprocessor, hmemory], hending⟩

/-- From the turn on in which the observer makes up its mind, one step and what is left of patience
is all that starts. After a step that leaves the frame there is no patience left. -/
theorem returns_of_turn_done (hsteadfast : observer.Steadfast) {s after : Session σ}
    {fault : Option Fault} {reason : StopReason} (hpatience : s.patience < checkInterval)
    (hturn : s.turn observer floor = (after, fault.map .fault))
    (hafter : observer.stop? after.observed = some reason) :
    ∃ count final result, count < checkInterval ∧
      Returns observer floor (count + 1) s final result ∧
      (∀ other, result = .stopped other → other = reason) ∧
      (¬ s.processor.StaysInFrame after.processor → count = 0) := by
  have hinterval : 0 < checkInterval := by decide
  cases fault with
  | some fault => exact ⟨0, after, _, hinterval, .fault hturn, by simp, fun _ => rfl⟩
  | none =>
      obtain ⟨count, final, result, hreturns, hcount, hreason⟩ :=
        returns_of_done hsteadfast floor hafter
      obtain ⟨hless, hleaves⟩ := patience_turn hturn
      refine ⟨count, final, result, by omega, .step hturn hreturns, hreason, ?_⟩
      intro hmoved
      have hnone := hleaves hmoved
      omega

/-! ### Noticing -/

/-- A run notices soon that it is to stop. If the observer wants it to stop from the start and there
are frames above the floor, no step starts and nothing changes. If the observer makes up its mind
during a step, that step is carried out, and fewer than `checkInterval` others start before the run
returns: for the observer's reason, unless it came to its end or failed before, as it would have
without an observer. No other step starts if the step did not stay in the innermost frame.

The proof follows patience: it stays below the interval along every run (`patience_run`), and once
the observer's mind is made up each further step uses it up (`returns_of_done`). -/
theorem done_is_noticed (hsteadfast : observer.Steadfast) (floor : Nat) (p : Processor) (m : Memory)
    (notes : σ) :
    let s : Session σ := ⟨p, m, notes, 0⟩
    (∀ reason, floor < p.depth → observer.stop? notes = some reason →
      Returns observer floor 0 s s (.stopped reason) ∧
        ∀ fuel, s.run observer floor (fuel + 1) = (s, .stopped reason)) ∧
    ∀ k before after ending reason, s.run observer floor k = (before, .running) →
      before.turn observer floor = (after, ending) → observer.stop? before.observed = none →
      observer.stop? after.observed = some reason →
      (∃ fault, before.processor.step before.memory = (after.processor, after.memory, fault) ∧
        ending = fault.map .fault) ∧
      ∃ count final result, count < checkInterval ∧
        Returns observer floor (k + 1 + count) s final result ∧
        (∀ fuel, k + 1 + count < fuel → s.run observer floor fuel = (final, result)) ∧
        (result = .stopped reason ∨ Concludes floor p m final.processor final.memory result) ∧
        (¬ before.processor.StaysInFrame after.processor → count = 0) := by
  intro s
  constructor
  · intro reason hdepth hdone
    have hreturns : Returns observer floor 0 s s (.stopped reason) :=
      returns_of_asked hdepth rfl hdone
    exact ⟨hreturns, fun fuel => hreturns.run_eq (Nat.zero_lt_succ fuel)⟩
  · intro k before after ending reason hrun hturn hbefore hafter
    obtain ⟨fault, hstep, rfl⟩ := step_of_done hturn hbefore hafter
    refine ⟨⟨fault, hstep, rfl⟩, ?_⟩
    have hinterval : 0 < checkInterval := by decide
    have hpatience : before.patience < checkInterval := patience_run (s := s) hinterval hrun
    obtain ⟨count, final, result, hcount, hreturns, hreason, hstays⟩ :=
      returns_of_turn_done hsteadfast hpatience hturn hafter
    have hwhole : Returns observer floor (k + 1 + count) s final result := by
      rw [Nat.add_assoc, Nat.add_comm 1]
      exact hreturns.after_run hrun
    refine ⟨count, final, result, hcount, hwhole, fun fuel => hwhole.run_eq, ?_, hstays⟩
    by_cases hstopped : ∃ other, result = .stopped other
    · obtain ⟨other, rfl⟩ := hstopped
      exact .inl (congrArg Ending.stopped (hreason other rfl))
    · rw [not_exists] at hstopped
      have hend := hwhole.run_eq (Nat.lt_succ_self _)
      exact .inr (concludes_run _ hend hwhole.ne_running hstopped)

/-- An observer that counts steps up to a limit is steadfast. -/
theorem steadfast_countingTo (limit : Nat) : (countingTo limit).Steadfast := by
  intro notes memory view reason h
  simp only [countingTo] at h ⊢
  split at h
  · rw [if_pos (by omega)]
    exact h
  · cases h

/-- A run that is told to stop while it makes a call returns right after that call. -/
theorem done_is_noticed_nestedCall :
    let s : Session Nat := ⟨nestedCall.processor, nestedCall.memory, 0, 0⟩
    let after := (s.turn (countingTo 1) 0).1
    ¬ s.processor.StaysInFrame after.processor ∧ after.processor.depth = 3 ∧
      ∃ final result, Returns (countingTo 1) 0 1 s final result ∧ result = .stopped .canceled := by
  intro s after
  have hturn : (s.turn (countingTo 1) 0).2 = none := by decide +kernel
  have hdepth : after.processor.depth = 3 := by decide +kernel
  have hcalls : ¬ s.processor.StaysInFrame after.processor := by
    rintro ⟨f, f', rest, hbefore, hafter, -⟩
    have hsame : after.processor.depth = s.processor.depth := by
      rw [Processor.depth, Processor.depth, hbefore, hafter, List.length_cons, List.length_cons]
    rw [hdepth] at hsame
    exact absurd hsame (by decide +kernel)
  obtain ⟨-, hnoticed⟩ := done_is_noticed (steadfast_countingTo 1) 0 nestedCall.processor
    nestedCall.memory 0
  obtain ⟨-, count, final, result, -, hreturns, hrun, -, hcount⟩ :=
    hnoticed 0 s after none .canceled rfl (Prod.ext rfl hturn) rfl (by decide +kernel)
  obtain rfl : count = 0 := hcount hcalls
  refine ⟨hcalls, hdepth, final, result, hreturns, ?_⟩
  have hresult : (s.run (countingTo 1) 0 2).2 = .stopped .canceled := by decide +kernel
  rwa [hrun 2 (by decide)] at hresult

end Session

end RegisterVM
