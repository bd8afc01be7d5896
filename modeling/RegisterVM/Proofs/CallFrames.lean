import RegisterVM.Proofs.CompletedStep

/-!
# Isolation of call frames

A step works in the innermost frame. It goes on there, enters a frame above it, or leaves it, and
only when it leaves does it touch a frame below: the globals of the callee come back into the frame
directly underneath. Over a whole run above a floor the frames at and below the floor therefore stay
as they are, until the return that ends the run.

The step lemma is `frames_step_above` and the run lemma `run_frames`. Both are stated with the
frames split around the caller, so that neither counts frames.
-/

namespace RegisterVM

/-! ### Returns -/

/-- A caller after a callee left it. Locals, the pool register and everything that is not a register
are the caller's own, the next-pool register is cleared, and the other globals are the callee's. -/
structure Frame.Resumed (resumed caller callee : Frame) : Prop where
  pc : resumed.pc = caller.pc
  entry : resumed.entry = caller.entry
  last : resumed.last = caller.last
  queuePosition : resumed.queuePosition = caller.queuePosition
  spilled : resumed.spilled = caller.spilled
  ticket : resumed.ticket = caller.ticket
  locals : ∀ r : Register, Register.localBase ≤ r.val → resumed.get r = caller.get r
  pool : resumed.get .pool = caller.get .pool
  nextPool : resumed.get .nextPool = 0
  globals : ∀ r : Register, r.val < Register.localBase → r ≠ .pool → r ≠ .nextPool →
    resumed.get r = callee.get r

/-- The registers of a caller after a return, one by one, in the order of the cases of the
definition. -/
theorem Frame.get_resume (caller callee : Frame) (r : Register) :
    (caller.resume callee).get r =
      if r = .nextPool then 0 else if r = .pool then caller.get r
      else if r.val < Register.localBase then callee.get r else caller.get r := by
  simp only [get, resume, returnedRegisters, Fin.getElem_fin, Vector.getElem_ofFn, Fin.eta]

theorem Frame.resumed_resume (caller callee : Frame) :
    (caller.resume callee).Resumed caller callee where
  pc := by rw [resume]
  entry := by rw [resume]
  last := by rw [resume]
  queuePosition := by rw [resume]
  spilled := by rw [resume]
  ticket := by rw [resume]
  locals r hr := by
    have hpool : r ≠ .pool := by
      rintro rfl
      exact absurd hr (by decide)
    have hnext : r ≠ .nextPool := by
      rintro rfl
      exact absurd hr (by decide)
    rw [get_resume, if_neg hnext, if_neg hpool, if_neg (Nat.not_lt.mpr hr)]
  pool := by rw [get_resume, if_neg (by decide), if_pos rfl]
  nextPool := by rw [get_resume, if_pos rfl]
  globals r hr hpool hnext := by rw [get_resume, if_neg hnext, if_neg hpool, if_pos hr]

/-- A caller takes nothing but registers from a callee, so where the callee stood when it left does
not matter. -/
theorem Frame.resume_congr (caller : Frame) {callee other : Frame}
    (h : callee.registers = other.registers) : caller.resume callee = caller.resume other := by
  rw [resume, resume, h]

theorem Opcode.ofByte?_eq_return {b : UInt8} (h : ofByte? b = some .return) : b = 0x49 := by
  unfold ofByte? ofNibbles? at h
  split at h
  case h_5 hhigh =>
    split at h
    case h_2 hlow =>
      have hbyte : (0x49 : UInt8).toNat = 0x49 := rfl
      exact UInt8.toNat_inj.mp (by omega)
    all_goals cases h
  all_goals cases h

/-- Only the return instruction, which has no operands, asks to leave a frame. A return is thereby
known by what was fetched, not only by what became of the frames. -/
theorem Operation.eq_return_of_leave {bytes rest : List UInt8} {inst : Instruction}
    (hdecode : Instruction.decode bytes = .ok (inst, rest))
    (h : Operation.ofInstruction inst = .ok .leave) : inst = ⟨0x49, []⟩ := by
  obtain ⟨code, -, hstands⟩ := Instruction.decode_inv hdecode
  obtain ⟨op, hop, hfits⟩ := hstands.fits
  obtain ⟨opcode, operands⟩ := inst
  obtain rfl : Opcode.return = op := opcode_of_ofInstruction hop hfits h
  cases hfits
  obtain rfl := Opcode.ofByte?_eq_return hop
  rfl

/-- Only an operation that asks to leave the frame leaves it, and it sets no register. So what the
caller takes over is what the callee had before the step. -/
theorem Operation.effect_leave {op : Operation} {f : Frame} {m : Memory} {next pc : UInt32}
    {e : Effect} (h : op.effect f m next = .ok e) (hflow : e.flow = .leave pc) :
    op = .leave ∧ e.registers = [] := by
  cases op with
  | leave =>
      cases h
      exact ⟨rfl, rfl⟩
  | math op left right dest =>
      simp only [effect] at h
      split at h
      · cases h
      · cases h
        cases hflow
  | branch | invoke | marker | convert =>
      cases h
      cases hflow
  | increment | decrement | load | store =>
      obtain ⟨_, -, h⟩ := bind_eq_ok h
      cases h
      cases hflow

/-! ### Frames after a step -/

namespace Processor

theorem frames_noteFault (p : Processor) (fault : Fault) :
    (p.noteFault fault).frames = p.frames := by
  obtain ⟨traps, hnote⟩ := p.noteFault_eq fault
  rw [hnote]

/-- What a step makes of the frames where the innermost frame has a caller: it goes on in the frame,
enters one above it, or executes a return and resumes the caller. A step that fails is one that goes
on. -/
theorem frames_step {p : Processor} {f caller : Frame} {below : List Frame}
    (hframes : p.frames = f :: caller :: below) (m : Memory) :
    (∃ f', (p.step m).1.frames = f' :: caller :: below) ∨
    (∃ callee f', (p.step m).1.frames = callee :: f' :: caller :: below) ∨
    ((RegisterVM.fetch m f.pc p.cache).outcome = .ok ⟨0x49, []⟩ ∧ (p.step m).2.2 = none ∧
      (p.step m).1.frames = caller.resume f :: below) := by
  have hstart := p.markStart_eq hframes
  cases hcompletion : p.completion? m with
  | none =>
      obtain ⟨fault, hstep⟩ := step_of_completion?_none hframes hcompletion
      refine .inl ⟨{ f with last := f.pc }, ?_⟩
      rw [hstep]
      simp only [withCache_frames, frames_noteFault, hstart]
  | some c =>
      obtain ⟨top, rest, hcompletes⟩ := completion?_eq_some hcompletion
      obtain ⟨rfl, rfl⟩ := List.cons.inj (hcompletes.frames.symm.trans hframes)
      rw [step_of_completes hcompletes]
      simp only [withCache_frames, commit, hstart]
      cases hflow : c.effect.flow with
      | goto pc => exact .inl ⟨_, rfl⟩
      | call resume target arguments => exact .inr (.inl ⟨_, _, rfl⟩)
      | leave pc =>
          obtain ⟨hop, hregisters⟩ := Operation.effect_leave hcompletes.effect hflow
          have hasked := hcompletes.operation
          rw [hop] at hasked
          obtain ⟨bytes, rest, hdecode⟩ := fetch_decoded hcompletes.fetched
          refine .inr (.inr ⟨?_, trivial, ?_⟩)
          · rw [hcompletes.fetched, Operation.eq_return_of_leave hdecode hasked]
          · simp only [hregisters, List.foldl_nil, follow, leaveFrame]
            exact congrArg (· :: below) (caller.resume_congr rfl)

/-- A step of a frame above a caller leaves the caller and all below it alone, unless it is the
return into that caller. This is the step lemma of the module; the frames in between may come and
go. -/
theorem frames_step_above {p : Processor} {f caller : Frame} {above below : List Frame}
    (hframes : p.frames = f :: (above ++ caller :: below)) (m : Memory) :
    (∃ above', above' ≠ [] ∧ (p.step m).1.frames = above' ++ caller :: below) ∨
    (above = [] ∧ (RegisterVM.fetch m f.pc p.cache).outcome = .ok ⟨0x49, []⟩ ∧
      (p.step m).2.2 = none ∧ (p.step m).1.frames = caller.resume f :: below) := by
  cases above with
  | nil =>
      obtain ⟨f', h⟩ | ⟨callee, f', h⟩ | h := frames_step hframes m
      · exact .inl ⟨[f'], by simp, h⟩
      · exact .inl ⟨[callee, f'], by simp, h⟩
      · exact .inr ⟨rfl, h⟩
  | cons g above =>
      obtain ⟨f', h⟩ | ⟨callee, f', h⟩ | ⟨-, -, h⟩ := frames_step hframes m
      · exact .inl ⟨f' :: g :: above, by simp, h⟩
      · exact .inl ⟨callee :: f' :: g :: above, by simp, h⟩
      · exact .inl ⟨g.resume f :: above, by simp, h⟩

end Processor

/-! ### Runs -/

namespace Session

variable {σ : Type} {observer : Observer σ} {floor : Nat}

/-- Above the floor a turn is stopped before it does anything, or takes a step. -/
theorem turn_cases (observer : Observer σ) {s : Session σ} (hfloor : floor < s.processor.depth) :
    (∃ reason, s.turn observer floor = (s, some (.stopped reason))) ∨
    ((s.turn observer floor).1.processor = (s.processor.step s.memory).1 ∧
      (s.turn observer floor).1.memory = (s.processor.step s.memory).2.1 ∧
      (s.turn observer floor).2 = (s.processor.step s.memory).2.2.map .fault) := by
  obtain ⟨hle, -⟩ | ⟨-, reason, -, hturn⟩ | ⟨f, rest, left, hframes, -, hturn⟩ :=
    turn_alternatives observer floor s
  · exact absurd hfloor (Nat.not_lt.mpr hle)
  · exact .inl ⟨reason, hturn⟩
  · obtain ⟨hprocessor, hmemory, hfault⟩ := execute_step observer hframes left
    rw [hturn]
    exact .inr ⟨hprocessor, hmemory, congrArg (Option.map Ending.fault) hfault⟩

/-- The session is about to execute a return in the frame `callee`, with `below` underneath. -/
structure Returning (s : Session σ) (callee : Frame) (below : List Frame) : Prop where
  frames : s.processor.frames = callee :: below
  fetched : (fetch s.memory callee.pc s.processor.cache).outcome = .ok ⟨0x49, []⟩

/-- A run that came down to its floor by a return: after some turns the frame directly above the
caller executes a return, and the run ends with what that turn left. The moment before the return is
part of it, so that the registers handed over can be named. -/
structure EndsByReturn (observer : Observer σ) (floor : Nat) (s final : Session σ) (caller : Frame)
    (below : List Frame) (turns : Nat) (moment : Session σ) (callee resumed : Frame) : Prop where
  reached : s.run observer floor turns = (moment, .running)
  returning : moment.Returning callee (caller :: below)
  last : moment.turn observer floor = (final, none)
  frames : final.processor.frames = resumed :: below
  resumed : resumed.Resumed caller callee

/-- At its floor a run ends and changes nothing, not even the patience. -/
theorem run_of_le {s : Session σ} (hfloor : s.processor.depth ≤ floor) (fuel : Nat) :
    s.run observer floor (fuel + 1) = (s, .finished) := by
  rw [run, turn_of_le observer floor hfloor]

theorem run_of_turn {s after : Session σ} (h : s.turn observer floor = (after, none)) (fuel : Nat) :
    s.run observer floor (fuel + 1) = after.run observer floor fuel := by
  rw [run, h]

/-- A turn before a run that ends by a return. Only the first field mentions where the run started,
so the others are kept as they are. -/
theorem EndsByReturn.of_turn {s after final moment : Session σ} {caller callee resumed : Frame}
    {below : List Frame} {turns : Nat} (hturn : s.turn observer floor = (after, none))
    (h : EndsByReturn observer floor after final caller below turns moment callee resumed) :
    EndsByReturn observer floor s final caller below (turns + 1) moment callee resumed :=
  { h with reached := (run_of_turn hturn turns).trans h.reached }

/-- While a run above the caller goes on, and when it fails or is stopped, the caller and all below
it are as they were; when it finishes, it has just returned into the caller. By induction on the
turns, with `frames_step_above` at each; the invariant is that some frame stands above the
caller. -/
theorem run_frames (observer : Observer σ) (fuel : Nat) {s : Session σ} {above below : List Frame}
    {caller : Frame} (hframes : s.processor.frames = above ++ caller :: below) (habove : above ≠ [])
    (hfloor : below.length + 1 = floor) :
    (∃ above', above' ≠ [] ∧ (s.run observer floor fuel).2 ≠ .finished ∧
      (s.run observer floor fuel).1.processor.frames = above' ++ caller :: below) ∨
    (((s.run observer floor fuel).2 = .finished ∨ (s.run observer floor fuel).2 = .running) ∧
      ∃ turns moment callee resumed,
        EndsByReturn observer floor s (s.run observer floor fuel).1 caller below turns moment callee
          resumed) := by
  -- by turns; as long as no return reaches the caller there is a frame above it, and the run goes
  -- on
  induction fuel generalizing s above with
  | zero => exact .inl ⟨above, habove, by simp [run], hframes⟩
  | succ fuel ih =>
      obtain ⟨f, rest, rfl⟩ := List.exists_cons_of_ne_nil habove
      have hdepth : floor < s.processor.depth := by
        rw [Processor.depth, hframes, ← hfloor]
        simp only [List.cons_append, List.length_cons, List.length_append]
        omega
      rcases turn_cases observer hdepth with ⟨reason, hturn⟩ | ⟨hprocessor, -, hending⟩
      · rw [run, hturn]
        exact .inl ⟨_, habove, by simp, hframes⟩
      · cases hturn : s.turn observer floor with
        | mk after ending =>
            simp only [hturn] at hprocessor hending
            have hstep := s.processor.frames_step_above hframes s.memory
            rw [← hprocessor] at hstep
            cases hfault : (s.processor.step s.memory).2.2 with
            | some fault =>
                rw [hfault] at hstep hending
                obtain ⟨above', hne, hafter⟩ | ⟨-, -, hnone, -⟩ := hstep
                · rw [run, hturn, hending]
                  exact .inl ⟨above', hne, by simp, hafter⟩
                · cases hnone
            | none =>
                obtain rfl : ending = none := by rw [hending, hfault]; rfl
                rw [run_of_turn hturn]
                obtain ⟨above', hne, hafter⟩ | ⟨rfl, hfetched, -, hafter⟩ := hstep
                · rcases ih hafter hne with hgoes | ⟨hends, turns, moment, callee, resumed, hreturn⟩
                  · exact .inl hgoes
                  · exact .inr ⟨hends, turns + 1, moment, callee, resumed, hreturn.of_turn hturn⟩
                · -- the caller is at the floor now
                  have hreturn : EndsByReturn observer floor s after caller below 0 s f
                      (caller.resume f) :=
                    ⟨rfl, ⟨hframes, hfetched⟩, hturn, hafter, caller.resumed_resume f⟩
                  have hdone : after.processor.depth ≤ floor := by
                    rw [Processor.depth, hafter, List.length_cons, hfloor]
                  cases fuel with
                  | zero => exact .inr ⟨.inr rfl, 0, s, f, _, hreturn⟩
                  | succ fuel =>
                      rw [run_of_le hdone]
                      exact .inr ⟨.inl rfl, 0, s, f, _, hreturn⟩

/-- Calls are isolated over whole runs. In a run above a floor of at least one frame, the frames
below the floor and the caller at it are as they were whenever the run fails or is stopped, and
there are still frames above. When the run finishes, the floor is reached exactly: the frame
directly above the caller executed a return, the caller resumed from it, and all frames below are as
they were.

The frames are split at the floor first; `run_frames` then says the rest of that split. A run cannot
pass its floor, because a step takes away one frame at most and the floor is asked for at every
turn. -/
theorem run_isolates_frames (observer : Observer σ) (fuel : Nat) (s : Session σ) (floor : Nat)
    (hpos : 1 ≤ floor) (hfloor : floor < s.processor.depth) :
    ∃ above caller below, s.processor.frames = above ++ caller :: below ∧ below.length + 1 = floor ∧
      let final := (s.run observer floor fuel).1
      let ending := (s.run observer floor fuel).2
      (ending = .finished → final.processor.depth = floor ∧ ∃ turns moment callee resumed,
        EndsByReturn observer floor s final caller below turns moment callee resumed) ∧
      ((∃ fault, ending = .fault fault) ∨ (∃ reason, ending = .stopped reason) →
        floor < final.processor.depth ∧
          ∃ above', final.processor.frames = above' ++ caller :: below) := by
  let rise := s.processor.depth - floor
  have hlength : (s.processor.frames.drop rise).length = floor := by
    rw [List.length_drop]
    unfold rise Processor.depth at *
    omega
  obtain ⟨caller, below, hcaller⟩ : ∃ caller below,
      s.processor.frames.drop rise = caller :: below :=
    List.exists_cons_of_length_pos (by omega)
  rw [hcaller, List.length_cons] at hlength
  have hframes : s.processor.frames = s.processor.frames.take rise ++ caller :: below := by
    rw [← hcaller, List.take_append_drop]
  have habove : s.processor.frames.take rise ≠ [] := by
    rw [← List.length_pos_iff, List.length_take]
    unfold rise Processor.depth at *
    omega
  refine ⟨_, caller, below, hframes, hlength, ?_⟩
  dsimp only
  obtain ⟨above', hne, hends, hfinal⟩ | ⟨hends, turns, moment, callee, resumed, hreturn⟩ :=
    run_frames observer fuel hframes habove hlength
  · refine ⟨fun hfinished => absurd hfinished hends, fun _ => ⟨?_, above', hfinal⟩⟩
    have hpositive := List.length_pos_iff.mpr hne
    rw [Processor.depth, hfinal, List.length_append, List.length_cons]
    omega
  · refine ⟨fun _ => ⟨?_, turns, moment, callee, resumed, hreturn⟩, ?_⟩
    · rw [Processor.depth, hreturn.frames, List.length_cons, hlength]
    · rintro (⟨fault, hfault⟩ | ⟨reason, hstopped⟩)
      · simp [hfault] at hends
      · simp [hstopped] at hends

/-- A method at 0 that calls the method at 4, which puts a number into a global register. -/
def nestedCall : Session Unit where
  processor := ((Processor.ofOptions 0 0).enter 0 [4]).enter 0 [4]
  memory := .region (.ofBytes "code" 0
    [0x48, 12, 0, 0x49, 0x80, 0, 0, 0, 0, 5, 1, 0x49] ⟨true, false⟩)
  observed := ()

theorem run_isolates_frames_nestedCall :
    1 < nestedCall.processor.depth ∧ (nestedCall.run .none 1 10).2 = .finished ∧
      ∃ above caller below, nestedCall.processor.frames = above ++ caller :: below ∧
        below.length + 1 = 1 ∧
        let final := (nestedCall.run .none 1 10).1
        let ending := (nestedCall.run .none 1 10).2
        (ending = .finished → final.processor.depth = 1 ∧ ∃ turns moment callee resumed,
          EndsByReturn .none 1 nestedCall final caller below turns moment callee resumed) ∧
        ((∃ fault, ending = .fault fault) ∨ (∃ reason, ending = .stopped reason) →
          1 < final.processor.depth ∧
            ∃ above', final.processor.frames = above' ++ caller :: below) :=
  ⟨by decide +kernel, by decide +kernel,
    run_isolates_frames .none 10 nestedCall 1 (by decide) (by decide +kernel)⟩

end Session

end RegisterVM
