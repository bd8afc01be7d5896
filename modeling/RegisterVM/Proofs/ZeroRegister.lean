import RegisterVM.Proofs.CallConvention
import RegisterVM.Proofs.HostHistory

/-!
# The zero register

A frame is entered with zero in its zero register. Nothing keeps it there: an instruction whose
destination is the zero register writes it like any other, and a return hands it on to the caller
with the globals. So the register is zero in every active frame for exactly as long as no
instruction with that destination has a result other than zero.

The step lemma `zeroed_step_iff` says so of one step. It needs of an operation only which registers
it sets (`Operation.effect_registers`): none, or its destination first and then no register that
could be the zero register.
-/

namespace RegisterVM

/-! ### Registers set by an operation -/

/-- The register that an operation puts its result into. A wide load sets a second register, the one
after it, which is never the zero register. -/
def Operation.dest? : Operation → Option Register
  | .math _ _ _ dest | .decrement dest _ _ | .load _ dest _ _ | .convert _ _ _ dest => some dest
  | .branch _ _ _ _ | .invoke _ _ | .leave | .marker | .increment _ _ | .store _ _ _ _ => none

theorem pairedRegister_ne_zero {r second : Register} (h : pairedRegister r = .ok second) :
    second ≠ .zero := by
  unfold pairedRegister at h
  split at h
  · cases h
    exact Fin.ne_of_gt (Nat.succ_pos r.val)
  · cases h

/-- A load sets its destination, and for a wide value the register after it. The pair of the last
register does not exist, so the second is above some other register and not zero. -/
theorem loadEffect_registers {f : Frame} {m : Memory} {type : DataType} {dest base : Register}
    {offset : Source} {set : List (Register × Int32)}
    (h : loadEffect f m type dest base offset = .ok set) :
    ∃ v more, set = (dest, v) :: more ∧ ∀ change ∈ more, change.1 ≠ .zero := by
  unfold loadEffect at h
  dsimp only at h
  split at h
  · obtain ⟨second, hsecond, h⟩ := bind_eq_ok h
    obtain ⟨n, -, h⟩ := bind_eq_ok h
    cases h
    refine ⟨_, _, rfl, ?_⟩
    simp only [List.mem_singleton, forall_eq]
    exact pairedRegister_ne_zero (eq_ok_of_mapError hsecond)
  · obtain ⟨n, -, h⟩ := bind_eq_ok h
    cases h
    exact ⟨_, [], rfl, by simp⟩

/-- An operation sets no register, or it sets its destination first, none but that can be the zero
register, and execution goes on in the frame. One case for each operation; nothing below looks at an
operation again. -/
theorem Operation.effect_registers {op : Operation} {f : Frame} {m : Memory} {next : UInt32}
    {e : Effect} (h : op.effect f m next = .ok e) :
    (op.dest? = none ∧ e.registers = []) ∨
      ∃ dest v more pc, op.dest? = some dest ∧ e.registers = (dest, v) :: more ∧
        (∀ change ∈ more, change.1 ≠ .zero) ∧ e.flow = .goto pc := by
  cases op with
  | math op left right dest =>
      simp only [effect] at h
      split at h
      · cases h
      · cases h
        exact .inr ⟨dest, _, [], next, rfl, rfl, by simp, rfl⟩
  | branch | invoke | leave | marker =>
      cases h
      exact .inl ⟨rfl, rfl⟩
  | increment | store =>
      obtain ⟨_, -, h⟩ := bind_eq_ok h
      cases h
      exact .inl ⟨rfl, rfl⟩
  | decrement dest base offset =>
      obtain ⟨_, -, h⟩ := bind_eq_ok h
      cases h
      exact .inr ⟨dest, _, [], next, rfl, rfl, by simp, rfl⟩
  | load type dest base offset =>
      obtain ⟨set, hset, h⟩ := bind_eq_ok h
      cases h
      obtain ⟨v, more, rfl, hmore⟩ := loadEffect_registers hset
      exact .inr ⟨dest, v, more, next, rfl, rfl, hmore, rfl⟩
  | convert sourceKind targetKind source dest =>
      cases h
      exact .inr ⟨dest, _, [], next, rfl, rfl, by simp, rfl⟩

theorem Frame.get_foldl_set {r : Register} {changes : List (Register × Int32)}
    (h : ∀ change ∈ changes, change.1 ≠ r) (f : Frame) :
    (changes.foldl (fun f (r, v) => f.set r v) f).get r = f.get r := by
  induction changes generalizing f with
  | nil => rfl
  | cons change rest ih =>
      rw [List.forall_mem_cons] at h
      rw [List.foldl_cons, ih h.2, Frame.get_set_of_ne f _ h.1.symm]

/-! ### Frames -/

theorem Frame.get_zero_enter (caller : Option RegisterFile) (pc : UInt32) (arguments : List Int32)
    (ticket : Option Nat) : (enter caller pc arguments ticket).get .zero = 0 := by
  simp [get, enter, enteredRegisters]

theorem Frame.get_zero_resume (caller callee : Frame) :
    (caller.resume callee).get .zero = callee.get .zero :=
  (resumed_resume caller callee).globals .zero (by decide) (by decide) (by decide)

namespace Processor

/-- Every active frame has zero in its zero register. Frames that have been left are not asked
about: nothing runs in them. -/
def Zeroed (p : Processor) : Prop := ∀ f ∈ p.frames, f.get .zero = 0

/-- The next step completes an instruction whose destination is the zero register, with a result
other than zero. A step that fails spoils nothing, since it writes nothing. -/
def Spoils (p : Processor) (m : Memory) : Prop :=
  ∃ c v, p.completion? m = some c ∧ c.operation.dest? = some .zero ∧
    (Register.zero, v) ∈ c.effect.registers ∧ v ≠ 0

variable {p : Processor} {m : Memory}

theorem spoils_iff {c : Completion} (h : p.completion? m = some c) :
    p.Spoils m ↔ c.operation.dest? = some .zero ∧
      ∃ v, (Register.zero, v) ∈ c.effect.registers ∧ v ≠ 0 := by
  constructor
  · intro hspoils
    obtain ⟨c', v, hc', hdest, hv⟩ := hspoils
    obtain rfl := Option.some.inj (h.symm.trans hc')
    exact ⟨hdest, v, hv⟩
  · intro hwritten
    obtain ⟨hdest, v, hv⟩ := hwritten
    exact ⟨c, v, h, hdest, hv⟩

theorem not_spoils (h : p.completion? m = none) : ¬ p.Spoils m := by
  intro hspoils
  obtain ⟨c, v, hc, -⟩ := hspoils
  rw [h] at hc
  cases hc

theorem Zeroed.enter (h : p.Zeroed) (pc : UInt32) (arguments : List Int32) :
    (p.enter pc arguments).Zeroed :=
  List.forall_mem_cons.mpr ⟨Frame.get_zero_enter _ pc arguments _, h⟩

/-- An effect that sets no register keeps the zero registers, a call and a return included. A call
enters with zero, and a return hands on the zero of the callee. -/
theorem zeroed_commit (h : p.Zeroed) {e : Effect} (he : e.registers = []) :
    (p.commit e).Zeroed := by
  unfold Zeroed at h ⊢
  cases hframes : p.frames with
  | nil => simp [commit, hframes]
  | cons f rest =>
      rw [hframes, List.forall_mem_cons] at h
      obtain ⟨htop, hrest⟩ := h
      simp only [commit, hframes, he, List.foldl_nil, follow]
      cases e.flow with
      | goto pc => exact List.forall_mem_cons.mpr ⟨htop, hrest⟩
      | call resume target arguments =>
          exact List.forall_mem_cons.mpr
            ⟨Frame.get_zero_enter _ target arguments none, List.forall_mem_cons.mpr ⟨htop, hrest⟩⟩
      | leave pc =>
          cases rest with
          | nil => simp [leaveFrame]
          | cons caller below =>
              rw [List.forall_mem_cons] at hrest
              refine List.forall_mem_cons.mpr ⟨?_, hrest.2⟩
              rw [Frame.get_zero_resume]
              exact htop

theorem Zeroed.markStart (h : p.Zeroed) : p.markStart.Zeroed := by
  cases hframes : p.frames with
  | nil =>
      rw [Processor.markStart, hframes]
      exact h
  | cons f rest =>
      rw [p.markStart_eq hframes]
      unfold Zeroed at h
      rw [hframes, List.forall_mem_cons] at h
      exact List.forall_mem_cons.mpr h

/-- An effect that sets registers leaves the zero registers alone, or puts a number into the
innermost. Which of the two it is depends on its first register alone, as the others cannot be the
zero register. -/
theorem zeroed_commit_iff (h : p.Zeroed) {e : Effect} {dest : Register} {v : Int32}
    {more : List (Register × Int32)} {pc : UInt32} {f : Frame} {rest : List Frame}
    (hframes : p.frames = f :: rest) (he : e.registers = (dest, v) :: more)
    (hmore : ∀ change ∈ more, change.1 ≠ .zero) (hflow : e.flow = .goto pc) :
    (p.commit e).Zeroed ↔ (dest = .zero → v = 0) := by
  unfold Zeroed at h ⊢
  rw [hframes, List.forall_mem_cons] at h
  rw [frames_commit_goto hframes hflow, he, List.foldl_cons, List.forall_mem_cons]
  have hget : (more.foldl (fun f (r, v) => f.set r v) (f.set dest v)).get .zero =
      (f.set dest v).get .zero := Frame.get_foldl_set hmore _
  change (more.foldl (fun f (r, v) => f.set r v) (f.set dest v)).get .zero = 0 ∧ _ ↔ _
  rw [hget]
  by_cases hzero : dest = .zero
  · subst hzero
    rw [Frame.get_set_self]
    exact ⟨fun hall _ => hall.1, fun hv => ⟨hv rfl, h.2⟩⟩
  · rw [Frame.get_set_of_ne f v (Ne.symm hzero)]
    exact ⟨fun _ heq => absurd heq hzero, fun _ => h⟩

/-- A step that completes nothing leaves all registers alone. -/
theorem zeroed_step_of_none (h : p.Zeroed) (hnone : p.completion? m = none) :
    (p.step m).1.Zeroed := by
  cases hframes : p.frames with
  | nil =>
      rw [step, hframes]
      exact h
  | cons f rest =>
      obtain ⟨fault, hstep⟩ := step_of_completion?_none hframes hnone
      unfold Zeroed
      rw [hstep]
      simp only [withCache_frames, frames_noteFault]
      exact h.markStart

/-- A step keeps the zero registers just if it does not put something else into one. This is the
step lemma: both directions are needed, because the claim is exact. -/
theorem zeroed_step_iff (h : p.Zeroed) (m : Memory) : (p.step m).1.Zeroed ↔ ¬ p.Spoils m := by
  cases hcompletion : p.completion? m with
  | none => exact iff_of_true (zeroed_step_of_none h hcompletion) (not_spoils hcompletion)
  | some c =>
      obtain ⟨f, rest, hcompletes⟩ := completion?_eq_some hcompletion
      have hframes : p.markStart.frames = c.frame :: rest := by
        rw [p.markStart_eq hcompletes.frames, hcompletes.frame]
      have hstep : (p.step m).1.Zeroed ↔ (p.markStart.commit c.effect).Zeroed := by
        rw [step_of_completes hcompletes]
        rfl
      rw [hstep, spoils_iff hcompletion]
      rcases Operation.effect_registers hcompletes.effect with
        ⟨hdest, hnone⟩ | ⟨dest, v, more, pc, hdest, hregisters, hmore, hflow⟩
      · refine iff_of_true (zeroed_commit h.markStart hnone) ?_
        simp [hdest]
      · -- the destination comes first, and no later register is the zero register
        rw [zeroed_commit_iff h.markStart hframes hregisters hmore hflow, hdest, hregisters]
        constructor
        · intro hkept hspoils
          obtain ⟨-, w, hmem, hw⟩ := hspoils
          rcases List.mem_cons.mp hmem with heq | hlater
          · obtain ⟨rfl, rfl⟩ := Prod.mk.inj heq
            exact hw (hkept rfl)
          · exact hmore _ hlater rfl
        · intro hnot hzero
          subst hzero
          by_contra hv
          exact hnot ⟨rfl, v, List.mem_cons_self, hv⟩

end Processor

/-! ### Histories -/

/-- The host writes no register, and lets the processor take one step at a time. Longer runs are
histories of such steps, so nothing is lost by cutting them; that each step is an action of its own
lets a history name it. -/
def HostAction.LeavesRegisters : HostAction Unit → Prop
  | .enter _ _ | .rewrite _ _ | .invalidate => True
  | .modify _ _ | .replaceFrames _ => False
  | .run observer floor turns => observer = .none ∧ floor = 0 ∧ turns = 1

/-- What can happen to a processor while the host writes no register: an action together with the
proof that it is of this kind. -/
abbrev Happening := { action : HostAction Unit // action.LeavesRegisters }

/-- The processor takes a step. -/
def Happening.step : Happening := ⟨.run .none 0 1, rfl, rfl, rfl⟩

/-- The session after a history in which the host writes no register. -/
def Session.after (history : List Happening) (s : Session Unit) : Session Unit :=
  (s.perform (history.map (·.val))).1

namespace Processor

variable {s : Session Unit}

/-- A run of one turn that nothing stops is one step, and no step if there is no frame. -/
theorem processor_apply_step (s : Session Unit) :
    (Happening.step.val.apply s).1.processor = (s.processor.step s.memory).1 := by
  simp only [Happening.step, HostAction.apply, Session.run]
  by_cases hdepth : s.processor.depth ≤ 0
  · have hframes : s.processor.frames = [] := List.length_eq_zero_iff.mp (Nat.le_zero.mp hdepth)
    rw [Session.turn_of_le .none 0 (s := { s with patience := 0 }) hdepth, step, hframes]
  · obtain ⟨hprocessor, -⟩ := Session.turn_of_lt .none 0 (s := { s with patience := 0 })
      (Nat.lt_of_not_le hdepth) rfl
    rw [← hprocessor]
    split <;> simp_all

/-- Of all that can happen, only a step can spoil a zero register. Changing memory or the cache can
make a different instruction come next, but writes no register itself. -/
theorem zeroed_apply_iff (h : s.processor.Zeroed) (happening : Happening) :
    (happening.val.apply s).1.processor.Zeroed ↔
      (happening = .step → ¬ s.processor.Spoils s.memory) := by
  obtain ⟨action, hleaves⟩ := happening
  cases action with
  | enter pc arguments =>
      refine iff_of_true (h.enter pc arguments) fun heq => ?_
      cases congrArg Subtype.val heq
  | rewrite memory refresh =>
      refine iff_of_true (by cases refresh <;> exact h) fun heq => ?_
      cases congrArg Subtype.val heq
  | invalidate =>
      refine iff_of_true h fun heq => ?_
      cases congrArg Subtype.val heq
  | run observer floor turns =>
      obtain ⟨rfl, rfl, rfl⟩ := hleaves
      have hprocessor : ((HostAction.run .none 0 1).apply s).1.processor =
          (s.processor.step s.memory).1 :=
        processor_apply_step s
      rw [hprocessor, zeroed_step_iff h]
      exact ⟨fun hkept _ => hkept, fun hkept => hkept rfl⟩
  | modify | replaceFrames => exact hleaves.elim

theorem zeroed_after_iff (h : s.processor.Zeroed) (history : List Happening) :
    (∀ past, past <+: history → (s.after past).processor.Zeroed) ↔
      ∀ past, past ++ [.step] <+: history →
        ¬ (s.after past).processor.Spoils (s.after past).memory := by
  -- from the front: what happens first decides whether the rest begins with zeros
  induction history generalizing s with
  | nil => simp [Session.after, Session.perform, h]
  | cons happening history ih =>
      have hfirst := zeroed_apply_iff h happening
      constructor
      · intro hall past hpast
        have hnext : (happening.val.apply s).1.processor.Zeroed :=
          hall [happening] (List.prefix_append _ history)
        cases past with
        | nil =>
            have hstep : .step = happening := (List.cons_prefix_cons.mp hpast).1
            exact hfirst.mp hnext hstep.symm
        | cons first past =>
            obtain ⟨rfl, hrest⟩ := List.cons_prefix_cons.mp hpast
            refine (ih hnext).mp ?_ past hrest
            intro others hothers
            exact hall (first :: others) (List.cons_prefix_cons.mpr ⟨rfl, hothers⟩)
      · intro hnone past hpast
        cases past with
        | nil => exact h
        | cons first past =>
            obtain ⟨rfl, hrest⟩ := List.cons_prefix_cons.mp hpast
            have hnext : (first.val.apply s).1.processor.Zeroed := by
              refine hfirst.mpr ?_
              rintro rfl
              exact hnone [] (List.cons_prefix_cons.mpr ⟨rfl, List.nil_prefix⟩)
            refine (ih hnext).mpr ?_ past hrest
            intro others hothers
            exact hnone (first :: others) (List.cons_prefix_cons.mpr ⟨rfl, hothers⟩)

/-- The zero register is zero in every active frame, at every point of a history that begins without
frames and in which the host writes no register, just if no step of the history completes an
instruction whose destination is the zero register with a result other than zero. By induction on
the history, one step at a time: as long as the registers are zero, only such an instruction can
change that (`zeroed_step_iff`), and a call or a return hands on the zero that is there. -/
theorem zero_register_kept_iff (size spill : Int) (m : Memory) (history : List Happening) :
    let s : Session Unit := ⟨ofOptions size spill, m, (), 0⟩
    (∀ past, past <+: history → ∀ f ∈ (s.after past).processor.frames, f.get .zero = 0) ↔
      ∀ past, past ++ [.step] <+: history →
        ¬ (s.after past).processor.Spoils (s.after past).memory := by
  intro s
  have hstart : s.processor.Zeroed := by simp [Zeroed, s, ofOptions]
  exact zeroed_after_iff hstart history

/-- Code that puts five into the zero register and returns, which hands the five on to the
caller. -/
theorem zero_register_written :
    let m : Memory := .region (.ofBytes "code" 0x1000 [0x80, 0, 0, 0, 0, 5, 0, 0x49] ⟨true, false⟩)
    let entered : List Happening := [⟨.enter 0 [], trivial⟩, ⟨.enter 0x1000 [], trivial⟩]
    let zeros (history : List Happening) :=
      (Session.after history ⟨ofOptions 0 0, m, (), 0⟩).processor.frames.map (·.get .zero)
    zeros entered = [0, 0] ∧ zeros (entered ++ [.step]) = [5, 0] ∧
      zeros (entered ++ [.step, .step]) = [5] := by
  decide +kernel

end Processor

end RegisterVM
