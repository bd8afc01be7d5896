import RegisterVM.Proofs.CallFrames

/-!
# The call convention

What a call passes and what a return gives back, register by register. A callee starts with the
globals of its caller, with the pool that the caller asked for and with zero in the zero register,
and its arguments stand in the argument registers and on through the locals as far as there is room
(`Frame.Entered`). A callee that returns at once gives back what it was given: the caller goes on
after the call with its own registers, except that the zero register and the next-pool register are
cleared and that the arguments which stood in global registers have come back with the globals
(`Frame.Regained`).

The values of the arguments are taken before anything is set, so it does not matter whether
registers repeat in the list or whether the target is among them.
-/

namespace RegisterVM

/-! ### Entering -/

/-- What a register of a callee has from its caller before the arguments are put in place. The pool
comes from the register for the next pool, globals are shared, and locals start at zero. -/
def Frame.inherited (caller : Frame) (r : Register) : Int32 :=
  if r = .pool then caller.get .nextPool else if r.val < Register.localBase then caller.get r else 0

/-- Every register of a frame that was just entered, in the order in which entering sets them:
arguments go over what was inherited, and the zero register comes last. -/
theorem Frame.get_enter (caller : Frame) (pc : UInt32) (arguments : List Int32)
    (ticket : Option Nat) (r : Register) :
    (enter (some caller.registers) pc arguments ticket).get r =
      if r = .zero then 0
      else if Register.argumentBase ≤ r.val then
        arguments[r.val - Register.argumentBase]?.getD (caller.inherited r)
      else caller.inherited r := by
  simp only [get, enter, enteredRegisters, inherited, Fin.getElem_fin, Vector.getElem_ofFn, Fin.eta,
    Array.getD_eq_getD_getElem?, List.getElem?_toArray]

section

variable {caller : Frame} {pc : UInt32} {arguments : List Int32} {ticket : Option Nat}
    {r : Register}

theorem Frame.get_enter_argument {i : Nat} (hi : i < arguments.length)
    (hr : r.val = Register.argumentBase + i) :
    (enter (some caller.registers) pc arguments ticket).get r = arguments[i] := by
  have hle : Register.argumentBase ≤ r.val := Nat.le.intro hr.symm
  have hzero : r ≠ .zero := Fin.ne_of_gt (Nat.lt_of_lt_of_le (by decide) hle)
  rw [get_enter, if_neg hzero, if_pos hle, hr, Nat.add_sub_cancel_left,
    List.getElem?_eq_getElem hi]
  rfl

theorem Frame.get_enter_inherited (hzero : r ≠ .zero)
    (hnone : ¬ (Register.argumentBase ≤ r.val ∧ r.val < Register.argumentBase + arguments.length)) :
    (enter (some caller.registers) pc arguments ticket).get r = caller.inherited r := by
  rw [get_enter, if_neg hzero]
  by_cases hargument : Register.argumentBase ≤ r.val
  · rw [if_pos hargument, List.getElem?_eq_none (by omega)]
    rfl
  · rw [if_neg hargument]

end

/-- A frame entered by a call of the address in `target` with the values of the registers in `list`.
Arguments that find no register are counted in `spilled`; their values are lost. -/
structure Frame.Entered (callee caller : Frame) (target : Register)
    (list : List Register) : Prop where
  pc : callee.pc = (caller.get target).toUInt32
  entry : callee.entry = (caller.get target).toUInt32
  last : callee.last = (caller.get target).toUInt32
  zero : callee.get .zero = 0
  pool : callee.get .pool = caller.get .nextPool
  arguments : ∀ i (hi : i < list.length) (r : Register), r.val = Register.argumentBase + i →
    callee.get r = caller.get list[i]
  globals : ∀ r : Register, r.val < Register.localBase → r ≠ .zero → r ≠ .pool →
    ¬ (Register.argumentBase ≤ r.val ∧ r.val < Register.argumentBase + list.length) →
    callee.get r = caller.get r
  locals : ∀ r : Register, Register.localBase ≤ r.val →
    Register.argumentBase + list.length ≤ r.val →
    callee.get r = 0
  spilled : callee.spilled = list.length - Frame.argumentRoom

/-- Entering with the values of the listed registers follows the convention. -/
theorem Frame.entered_enter (caller : Frame) (target : Register) (list : List Register)
    (ticket : Option Nat) :
    (enter (some caller.registers) (caller.get target).toUInt32 (list.map caller.get)
        ticket).Entered
      caller target list where
  pc := rfl
  entry := rfl
  last := rfl
  zero := by rw [get_enter, if_pos rfl]
  pool := by
    rw [get_enter_inherited (by decide) (fun h => absurd h.1 (by decide)), inherited, if_pos rfl]
  arguments i hi r hr := by
    rw [get_enter_argument (by rwa [List.length_map]) hr, List.getElem_map]
  globals r hr hzero hpool hnone := by
    rw [get_enter_inherited hzero (by rwa [List.length_map]), inherited, if_neg hpool, if_pos hr]
  locals r hr hpast := by
    have hzero : r ≠ .zero := Fin.ne_of_gt (Nat.lt_of_lt_of_le (by decide) hr)
    have hpool : r ≠ .pool := Fin.ne_of_gt (Nat.lt_of_lt_of_le (by decide) hr)
    rw [get_enter_inherited hzero (by rw [List.length_map]; omega), inherited, if_neg hpool,
      if_neg (by omega)]
  spilled := by rw [enter, List.length_map]

/-! ### Returning at once -/

/-- A caller that goes on at `next` after a call whose callee changed nothing. Registers are told
apart by what they are for: only arguments that stood in globals come back changed. -/
structure Frame.Regained (resumed caller : Frame) (next : UInt32)
    (list : List Register) : Prop where
  unchanged : resumed =
    { caller with registers := resumed.registers, pc := next, last := caller.pc }
  zero : resumed.get .zero = 0
  pool : resumed.get .pool = caller.get .pool
  nextPool : resumed.get .nextPool = 0
  arguments : ∀ i (hi : i < list.length) (r : Register), r.val = Register.argumentBase + i →
    r.val < Register.localBase → resumed.get r = caller.get list[i]
  others : ∀ r : Register, r ≠ .zero → r ≠ .nextPool →
    ¬ (Register.argumentBase ≤ r.val ∧ r.val < Register.argumentBase + list.length ∧
      r.val < Register.localBase) → resumed.get r = caller.get r

/-- Resuming from a callee as it was entered gives the caller back, by going through the kinds of
registers. -/
theorem Frame.regained_resume {callee caller : Frame} {target : Register} {list : List Register}
    (h : callee.Entered caller target list) (next : UInt32) :
    (resume { caller with pc := next, last := caller.pc } callee).Regained caller next list := by
  -- The globals of the callee come back over those of the caller; only the pool registers are kept
  -- apart.
  have hresumed := resumed_resume { caller with pc := next, last := caller.pc } callee
  refine ⟨rfl, ?_, hresumed.pool, hresumed.nextPool, ?_, ?_⟩
  · rw [hresumed.globals .zero (by decide) (by decide) (by decide), h.zero]
  · intro i hi r hr hglobal
    have hle : Register.argumentBase ≤ r.val := Nat.le.intro hr.symm
    have hpool : r ≠ .pool := Fin.ne_of_gt (Nat.lt_of_lt_of_le (by decide) hle)
    have hnext : r ≠ .nextPool := Fin.ne_of_gt (Nat.lt_of_lt_of_le (by decide) hle)
    rw [hresumed.globals r hglobal hpool hnext, h.arguments i hi r hr]
  · intro r hzero hnext hnone
    by_cases hglobal : r.val < Register.localBase
    · by_cases hpool : r = .pool
      · rw [hpool]
        exact hresumed.pool
      · rw [hresumed.globals r hglobal hpool hnext,
          h.globals r hglobal hzero hpool fun hin => hnone ⟨hin.1, hin.2, hglobal⟩]
    · exact hresumed.locals r (Nat.le_of_not_lt hglobal)

/-! ### Steps -/

/-- The instruction that calls the address in `target` with the registers in `list`, in any of its
encodings. -/
def Instruction.invoke (target : Register) (list : List Register) (wide wideList : Bool) :
    Instruction :=
  ⟨0x48, [.number (Int32.ofNat target.val) wide,
    .registers (list.map fun r => Int32.ofNat r.val) wideList]⟩

theorem mapM_namedRegister (list : List Register) :
    (list.map fun r => Int32.ofNat r.val).mapM namedRegister = .ok list := by
  induction list with
  | nil => rfl
  | cons r rest ih =>
      rw [List.map_cons, List.mapM_cons, namedRegister_ofNat, ok_bind, ih]
      rfl

theorem Operation.ofInstruction_invoke (target : Register) (list : List Register)
    (wide wideList : Bool) :
    ofInstruction (.invoke target list wide wideList) = .ok (.invoke target list) := by
  have hop : Opcode.ofByte? 0x48 = some .invoke := by decide
  simp only [Instruction.invoke, ofInstruction, hop, namedRegister_ofNat, mapM_namedRegister,
    ok_bind, pure, Except.pure]

namespace Processor

variable {p : Processor} {m : Memory} {f : Frame} {rest : List Frame}

/-- A step that fetches a call enters a frame. The caller under it already points to the instruction
after the call. -/
theorem step_invoke (hframes : p.frames = f :: rest) {target : Register} {list : List Register}
    {wide wideList : Bool}
    (hfetch : (RegisterVM.fetch m f.pc p.cache).outcome = .ok (.invoke target list wide wideList)) :
    let caller : Frame := { f with
      pc := f.pc + UInt32.ofNat (Instruction.invoke target list wide wideList).size
      last := f.pc }
    (p.step m).1.frames = Frame.enter (some f.registers) (f.get target).toUInt32
      (list.map f.get) none ::
        caller :: rest ∧
      (p.step m).2 = (m, none) := by
  have hcompletes : p.Completes m f rest
      ⟨{ f with last := f.pc }, .invoke target list wide wideList, .invoke target list,
        { flow := .call (f.pc + UInt32.ofNat (Instruction.invoke target list wide wideList).size)
            (f.get target).toUInt32 (list.map f.get) }⟩ :=
    ⟨hframes, rfl, hfetch, Operation.ofInstruction_invoke target list wide wideList, rfl⟩
  rw [step_of_completes hcompletes]
  simp only [withCache_frames, commit, p.markStart_eq hframes, follow, List.foldl_nil]
  exact ⟨trivial, rfl⟩

/-- A step that fetches a return resumes the caller, which must be there. -/
theorem step_return {caller : Frame} (hframes : p.frames = f :: caller :: rest)
    (hfetch : (RegisterVM.fetch m f.pc p.cache).outcome = .ok ⟨0x49, []⟩) :
    (p.step m).1.frames = caller.resume f :: rest ∧ (p.step m).2 = (m, none) := by
  have hop : Operation.ofInstruction ⟨0x49, []⟩ = .ok .leave := by decide
  have hcompletes : p.Completes m f (caller :: rest)
      ⟨{ f with last := f.pc }, ⟨0x49, []⟩, .leave, { flow := .leave (f.pc + 1) }⟩ :=
    ⟨hframes, rfl, hfetch, hop, rfl⟩
  rw [step_of_completes hcompletes]
  simp only [withCache_frames, commit, p.markStart_eq hframes, follow, leaveFrame, List.foldl_nil]
  exact ⟨congrArg (· :: rest) (caller.resume_congr rfl), rfl⟩

/-- The call convention, end to end. A step that executes a call enters a frame with what the
convention says, on top of the caller, which is to go on after the call. If the first instruction of
the callee is a return, the next step brings the caller back as the convention says. Neither step
touches memory or the frames below.

The proof puts two steps together, `step_invoke` and `step_return`; what the frames hold is a matter
of entering and resuming alone (`entered_enter`, `regained_resume`). -/
theorem call_convention (hframes : p.frames = f :: rest) (target : Register) (list : List Register)
    (wide wideList : Bool)
    (hfetch : (RegisterVM.fetch m f.pc p.cache).outcome = .ok (.invoke target list wide wideList)) :
    ∃ callee caller, (p.step m).1.frames = callee :: caller :: rest ∧ (p.step m).2 = (m, none) ∧
      callee.Entered f target list ∧
      ((RegisterVM.fetch m callee.pc (p.step m).1.cache).outcome = .ok ⟨0x49, []⟩ →
        ∃ resumed, ((p.step m).1.step m).1.frames = resumed :: rest ∧
          ((p.step m).1.step m).2 = (m, none) ∧
          resumed.Regained f
            (f.pc + UInt32.ofNat (Instruction.invoke target list wide wideList).size) list) := by
  obtain ⟨hentered, hstep⟩ := step_invoke hframes hfetch
  refine ⟨_, _, hentered, hstep, f.entered_enter target list none, ?_⟩
  intro hreturn
  obtain ⟨hresumed, hstep'⟩ := step_return hentered hreturn
  exact ⟨_, hresumed, hstep', Frame.regained_resume (f.entered_enter target list none) _⟩

/-- A frame in which every register has a value of its own; the twelfth has 63. With distinct values
a register that ended up in the wrong place would show. -/
def overfull : Frame where
  registers := .ofFn fun i => Int32.ofNat (i.val + 51)
  pc := 0
  entry := 0
  last := 0

/-- A call with sixty arguments, among them the target and both pool registers, and a return at
63. -/
def overfullCode : List UInt8 :=
  [0x48, 12, 60] ++ (List.range 60).map (fun i => UInt8.ofNat (i + 4)) ++ [0x49]

theorem call_convention_overfull :
    let p : Processor := { cache := .ofOptions 0 0, frames := [overfull] }
    let m : Memory := .region (.ofBytes "code" 0 overfullCode ⟨true, false⟩)
    let list : List Register := (List.finRange 64).drop 4
    (RegisterVM.fetch m overfull.pc p.cache).outcome = .ok (.invoke 12 list false false) ∧
      ∃ callee caller resumed, (p.step m).1.frames = [callee, caller] ∧
        callee.Entered overfull 12 list ∧ callee.pc = 63 ∧ callee.spilled = 8 ∧
        ((p.step m).1.step m).1.frames = [resumed] ∧ resumed.Regained overfull 63 list := by
  intro p m list
  have hfetch : (RegisterVM.fetch m overfull.pc p.cache).outcome =
      .ok (.invoke 12 list false false) := by
    decide +kernel
  have hreturn : (RegisterVM.fetch m 63 (p.step m).1.cache).outcome = .ok ⟨0x49, []⟩ := by
    decide +kernel
  obtain ⟨callee, caller, hframes, -, hentered, hreturns⟩ :=
    call_convention (show p.frames = [overfull] from rfl) 12 list false false hfetch
  have hpc : callee.pc = 63 := hentered.pc.trans (by decide)
  obtain ⟨resumed, hresumed, -, hregained⟩ := hreturns (by rw [hpc]; exact hreturn)
  exact ⟨hfetch, callee, caller, resumed, hframes, hentered, hpc, hentered.spilled,
    hresumed, hregained⟩

end Processor

end RegisterVM
