import RegisterVM.Proofs.Fetch
import RegisterVM.Proofs.Step

/-!
# Completed steps

A step either completes an operation or fails. `completion?` says which operation it completes, in
which frame and with what effect; a step that completes nothing leaves everything but the start of
the instruction, the cache and the counts of refills and traps as it was. A turn of a run and a step
of a machine are both such a step, so what is shown of completions holds for either.

That a step is described by its completion alone is what lets the same lemmas serve a processor that
runs by itself, one of several that take turns, and one that is checked access by access.
-/

namespace RegisterVM

/-! ### Instructions and their operations -/

theorem decodeLong_decoded {m : Memory} {pc : UInt32} {fuel size : Nat} {inst : Instruction}
    (h : decodeLong m pc fuel size = .ok inst) :
    ∃ bytes rest, Instruction.decode bytes = .ok (inst, rest) := by
  induction fuel generalizing size with
  | zero => cases h
  | succ fuel ih =>
      rw [decodeLong] at h
      split at h
      · cases h
      · split at h
        · rename_i hdecode
          cases h
          exact ⟨_, _, hdecode⟩
        · cases h
        · split at h
          · cases h
          · split at h
            · cases h
            · exact ih h

theorem decodeAtStart_decoded {m : Memory} {size : Nat} {w : CodeWindow} {inst : Instruction}
    (h : decodeAtStart m size w = .ok inst) :
    ∃ bytes rest, Instruction.decode bytes = .ok (inst, rest) := by
  unfold decodeAtStart at h
  split at h
  · rename_i hdecode
    cases h
    exact ⟨_, _, hdecode⟩
  · cases h
  · split at h
    · cases h
    · exact decodeLong_decoded h

theorem refetch_decoded {m : Memory} {pc : UInt32} {c : CodeCache} {refills : Nat}
    {inst : Instruction} (h : (refetch m pc c refills).outcome = .ok inst) :
    ∃ bytes rest, Instruction.decode bytes = .ok (inst, rest) := by
  unfold refetch at h
  split at h
  · cases h
  · exact decodeAtStart_decoded h

/-- Whatever is fetched was decoded from some bytes, on each path of the fetch. So a fetched
instruction has operands of the shape that its opcode asks for, even where the cache is stale. -/
theorem fetch_decoded {m : Memory} {pc : UInt32} {c : CodeCache} {inst : Instruction}
    (h : (fetch m pc c).outcome = .ok inst) :
    ∃ bytes rest, Instruction.decode bytes = .ok (inst, rest) := by
  unfold fetch at h
  split at h
  · exact refetch_decoded h
  · dsimp only at h
    split at h
    · rename_i hdecode
      cases h
      exact ⟨_, _, hdecode⟩
    · cases h
    · split at h
      · exact decodeAtStart_decoded h
      · exact refetch_decoded h

/-- The index of a register names it. What is written for a register is therefore read as that
register. -/
theorem namedRegister_ofNat (r : Register) : namedRegister (Int32.ofNat r) = .ok r := by
  have hr : r.val < 64 := r.isLt
  have hnat : (Int32.ofNat r).toUInt32.toNat = r := by
    rw [Int32.toUInt32_ofNat', UInt32.toNat_ofNat', Nat.mod_eq_of_lt (by omega)]
  simp only [namedRegister, hnat, hr, dif_pos]

/-- The opcode that asks for an operation. Operands in registers and constants in the instruction
have opcodes of their own, so the source of a value is part of the answer. -/
def Operation.opcode : Operation → Opcode
  | .math op _ (.register _) _ => .math .integer op
  | .math op _ (.constant _) _ => .mathConst .integer op
  | .branch condition _ (.register _) _ => .branch condition
  | .branch _ _ (.constant _) _ => .branchConst
  | .invoke _ _ => .invoke
  | .leave => .return
  | .marker => .entryMarker
  | .increment _ _ => .increment
  | .decrement _ _ _ => .decrement
  | .load type _ _ (.register _) => .memory .load type
  | .load type _ _ (.constant _) => .memoryConst .load type
  | .store type _ _ (.register _) => .memory .store type
  | .store type _ _ (.constant _) => .memoryConst .store type
  | .convert source target _ _ => .convert source target

/-- An operation comes from no other opcode than the one that asks for it. The formats of the opcode
fix the shape of the operands, which leaves one branch of the definition for each. -/
theorem Operation.opcode_of_ofInstruction {opcode : UInt8} {operands : List Operand} {op : Opcode}
    {operation : Operation} (hop : Opcode.ofByte? opcode = some op)
    (hfits : Operand.FitAll op.formats operands)
    (h : ofInstruction ⟨opcode, operands⟩ = .ok operation) : operation.opcode = op := by
  -- the formats of an opcode give its operands their shape, and with it one branch of the
  -- definition
  cases op with
  | math kind op =>
      obtain _ | ⟨⟨⟩, _ | ⟨⟨⟩, _ | ⟨⟨⟩, ⟨⟩⟩⟩⟩ := hfits
      cases kind <;> simp only [ofInstruction, hop, reduceCtorEq] at h
      obtain ⟨left, -, h⟩ := bind_eq_ok h
      obtain ⟨right, -, h⟩ := bind_eq_ok h
      obtain ⟨dest, -, h⟩ := bind_eq_ok h
      cases h
      rfl
  | mathConst kind op =>
      cases kind <;> obtain _ | ⟨⟨⟩, _ | ⟨⟨⟩, _ | ⟨⟨⟩, ⟨⟩⟩⟩⟩ := hfits <;>
        simp only [ofInstruction, hop, reduceCtorEq] at h
      obtain ⟨left, -, h⟩ := bind_eq_ok h
      obtain ⟨dest, -, h⟩ := bind_eq_ok h
      cases h
      rfl
  | branch condition =>
      obtain _ | ⟨⟨⟩, _ | ⟨⟨⟩, _ | ⟨⟨⟩, ⟨⟩⟩⟩⟩ := hfits
      simp only [ofInstruction, hop] at h
      obtain ⟨left, -, h⟩ := bind_eq_ok h
      obtain ⟨right, -, h⟩ := bind_eq_ok h
      cases h
      rfl
  | branchConst =>
      obtain _ | ⟨⟨⟩, _ | ⟨⟨⟩, _ | ⟨⟨⟩, ⟨⟩⟩⟩⟩ := hfits
      simp only [ofInstruction, hop] at h
      obtain ⟨left, -, h⟩ := bind_eq_ok h
      cases h
      rfl
  | invoke =>
      obtain _ | ⟨⟨⟩, _ | ⟨⟨⟩, ⟨⟩⟩⟩ := hfits
      simp only [ofInstruction, hop] at h
      obtain ⟨target, -, h⟩ := bind_eq_ok h
      obtain ⟨arguments, -, h⟩ := bind_eq_ok h
      cases h
      rfl
  | «return» | entryMarker =>
      obtain ⟨⟩ := hfits
      simp only [ofInstruction, hop] at h
      cases h
      rfl
  | increment =>
      obtain _ | ⟨⟨⟩, _ | ⟨⟨⟩, ⟨⟩⟩⟩ := hfits
      simp only [ofInstruction, hop] at h
      obtain ⟨base, -, h⟩ := bind_eq_ok h
      cases h
      rfl
  | decrement =>
      obtain _ | ⟨⟨⟩, _ | ⟨⟨⟩, _ | ⟨⟨⟩, ⟨⟩⟩⟩⟩ := hfits
      simp only [ofInstruction, hop] at h
      obtain ⟨dest, -, h⟩ := bind_eq_ok h
      obtain ⟨base, -, h⟩ := bind_eq_ok h
      cases h
      rfl
  | loadPool => simp only [ofInstruction, hop, reduceCtorEq] at h
  | memory direction type =>
      obtain _ | ⟨⟨⟩, _ | ⟨⟨⟩, _ | ⟨⟨⟩, ⟨⟩⟩⟩⟩ := hfits
      simp only [ofInstruction, hop] at h
      obtain ⟨value, -, h⟩ := bind_eq_ok h
      obtain ⟨base, -, h⟩ := bind_eq_ok h
      obtain ⟨offset, -, h⟩ := bind_eq_ok h
      cases direction <;> cases h <;> rfl
  | memoryConst direction type =>
      obtain _ | ⟨⟨⟩, _ | ⟨⟨⟩, _ | ⟨⟨⟩, ⟨⟩⟩⟩⟩ := hfits
      simp only [ofInstruction, hop] at h
      obtain ⟨value, -, h⟩ := bind_eq_ok h
      obtain ⟨base, -, h⟩ := bind_eq_ok h
      cases direction <;> cases h <;> rfl
  | convert source target =>
      obtain _ | ⟨⟨⟩, _ | ⟨⟨⟩, ⟨⟩⟩⟩ := hfits
      simp only [ofInstruction, hop] at h
      obtain ⟨value, -, h⟩ := bind_eq_ok h
      obtain ⟨dest, -, h⟩ := bind_eq_ok h
      cases h
      rfl

/-! ### Completions -/

/-- What a step completes. All four parts are kept, because later results speak of each: the frame
of who acted, the instruction of what stood there, the operation and the effect of what was done. -/
structure Completion where
  /-- The innermost frame, with the start of the instruction noted. -/
  frame : Frame
  instruction : Instruction
  operation : Operation
  effect : Effect

theorem Frame.get_set_self (f : Frame) (r : Register) (v : Int32) : (f.set r v).get r = v := by
  simp only [get, set, Fin.getElem_fin, Vector.getElem_set_self]

theorem Frame.get_set_of_ne (f : Frame) {r s : Register} (v : Int32) (h : s ≠ r) :
    (f.set r v).get s = f.get s := by
  have hval : r.val ≠ s.val := fun heq => h (Fin.ext heq.symm)
  simp only [get, set, Fin.getElem_fin]
  exact Vector.getElem_set_ne r.isLt s.isLt hval

namespace Processor

/-- What the next step completes; nothing if it fails or if there is no frame. It is computed in the
order in which the step itself does it, and any of the four parts may be missing. -/
def completion? (p : Processor) (m : Memory) : Option Completion := do
  let f ← p.top?
  let inst ← (RegisterVM.fetch m f.pc p.cache).outcome.toOption
  let op ← (Operation.ofInstruction inst).toOption
  let e ← (op.effect { f with last := f.pc } m (f.pc + UInt32.ofNat inst.size)).toOption
  return ⟨{ f with last := f.pc }, inst, op, e⟩

/-- How a completion comes about. It is `completion?` as a record of equations, which proofs take
apart by field names. -/
structure Completes (p : Processor) (m : Memory) (f : Frame) (rest : List Frame) (c : Completion) :
    Prop where
  frames : p.frames = f :: rest
  frame : c.frame = { f with last := f.pc }
  fetched : (RegisterVM.fetch m f.pc p.cache).outcome = .ok c.instruction
  operation : Operation.ofInstruction c.instruction = .ok c.operation
  effect : c.operation.effect c.frame m (f.pc + UInt32.ofNat c.instruction.size) = .ok c.effect

theorem toOption_eq_some {ε α : Type} {x : Except ε α} {a : α} (h : x.toOption = some a) :
    x = .ok a := by
  cases x with
  | error e => cases h
  | ok b => rw [Option.some.inj h]

theorem completion?_eq_some {p : Processor} {m : Memory} {c : Completion}
    (h : p.completion? m = some c) : ∃ f rest, p.Completes m f rest c := by
  simp only [completion?, Option.bind_eq_bind, Option.bind_eq_some_iff, Option.pure_def,
    Option.some.injEq] at h
  obtain ⟨f, htop, inst, hfetch, op, hop, e, heffect, rfl⟩ := h
  obtain ⟨rest, hframes⟩ : ∃ rest, p.frames = f :: rest := by
    unfold top? at htop
    exact List.head?_eq_some_iff.mp htop
  exact ⟨f, rest, hframes, rfl, toOption_eq_some hfetch, toOption_eq_some hop,
    toOption_eq_some heffect⟩

theorem Completes.completion?_eq {p : Processor} {m : Memory} {f : Frame} {rest : List Frame}
    {c : Completion} (h : p.Completes m f rest c) : p.completion? m = some c := by
  obtain ⟨frame, inst, op, e⟩ := c
  obtain ⟨hframes, rfl, hfetch, hop, heffect⟩ := h
  simp only at hfetch hop heffect
  simp only [completion?, top?, hframes, List.head?_cons, hfetch, hop, heffect, Except.toOption,
    Option.bind_eq_bind, Option.bind_some, Option.pure_def]

/-- An instruction whose operation has an effect commits it. -/
theorem execute_of_effect {p : Processor} {m : Memory} {inst : Instruction} {f : Frame}
    {rest : List Frame} {op : Operation} {e : Effect} (hframes : p.frames = f :: rest)
    (hop : Operation.ofInstruction inst = .ok op)
    (heffect : op.effect f m (f.pc + UInt32.ofNat inst.size) = .ok e) :
    p.execute m inst = (p.commit e, e.memory m, none) :=
  execute_of_plan (by simp only [plan, hframes, hop, heffect])

/-- An instruction whose operation is refused faults, and nothing changes but the count of traps.
The fault names the frame's program counter and the opcode, and the address that the refusal
gives. -/
theorem execute_of_refusal {p : Processor} {m : Memory} {inst : Instruction} {f : Frame}
    {rest : List Frame} {op : Operation} {cause : FaultCause} {address : UInt32}
    (hframes : p.frames = f :: rest) (hop : Operation.ofInstruction inst = .ok op)
    (hrefused : op.effect f m (f.pc + UInt32.ofNat inst.size) = .error (cause, address)) :
    p.execute m inst = (p.noteFault ⟨cause, f.pc, inst.opcode, address⟩, m,
      some ⟨cause, f.pc, inst.opcode, address⟩) := by
  have hplan : p.plan m inst = .error ⟨cause, f.pc, inst.opcode, address⟩ := by
    simp only [plan, hframes, hop, hrefused]
  simp only [execute, hplan]

/-- An effect that goes on in the same frame sets registers there, in the order in which the effect
lists them. -/
theorem frames_commit_goto {p : Processor} {f : Frame} {rest : List Frame}
    (hframes : p.frames = f :: rest) {e : Effect} {pc : UInt32} (hflow : e.flow = .goto pc) :
    (p.commit e).frames = { e.registers.foldl (fun f (r, v) => f.set r v) f with pc } :: rest := by
  simp only [commit, hframes, hflow, follow]

/-- The processor of a step that completes: the effect is committed, and the cache is as the fetch
left it. With `step_of_completion?_none` this is all that a step can do. -/
theorem step_of_completes {p : Processor} {m : Memory} {f : Frame} {rest : List Frame}
    {c : Completion} (h : p.Completes m f rest c) :
    p.step m =
      let fetched := RegisterVM.fetch m f.pc p.cache
      ((p.markStart.commit c.effect).withCache fetched.cache
        (p.stats.refills + UInt64.ofNat fetched.refills), c.effect.memory m, none) := by
  have hstart : p.markStart.frames = c.frame :: rest := by rw [p.markStart_eq h.frames, h.frame]
  have hpc : c.frame.pc = f.pc := by rw [h.frame]
  have hexecute : p.markStart.execute m c.instruction =
      (p.markStart.commit c.effect, c.effect.memory m, none) :=
    execute_of_effect hstart h.operation (hpc ▸ h.effect)
  rw [step, h.frames]
  dsimp only
  rw [fetch_markStart]
  simp only [h.fetched, execute_withCache, hexecute]

/-- A step that completes nothing fails, and leaves memory and the frames alone but for the start of
the instruction. The fault is that of the fetch, or the refusal of what was fetched. -/
theorem step_of_completion?_none {p : Processor} {m : Memory} {f : Frame} {rest : List Frame}
    (hframes : p.frames = f :: rest) (h : p.completion? m = none) :
    ∃ fault, p.step m =
      let fetched := RegisterVM.fetch m f.pc p.cache
      ((p.markStart.noteFault fault).withCache fetched.cache
        (p.stats.refills + UInt64.ofNat fetched.refills), m, some fault) := by
  have hstart := p.markStart_eq hframes
  rw [step, hframes]
  dsimp only
  rw [fetch_markStart]
  dsimp only
  cases hfetch : (RegisterVM.fetch m f.pc p.cache).outcome with
  | error fault => exact ⟨fault, by simp only [noteFault_withCache]⟩
  | ok inst =>
      obtain ⟨fault, -, hexecute⟩ | ⟨e, after, hplan, -⟩ := p.markStart.execute_cases m inst
      · exact ⟨fault, by simp only [execute_withCache, hexecute]⟩
      · -- what was planned would have been completed
        rw [hstart, plan] at hplan
        dsimp only at hplan
        cases hop : Operation.ofInstruction inst with
        | error cause => simp [hop] at hplan
        | ok op =>
            simp only [hop] at hplan
            cases heffect : op.effect { f with last := f.pc } m (f.pc + UInt32.ofNat inst.size) with
            | error refusal => simp [heffect] at hplan
            | ok planned =>
                have hcompletes : p.Completes m f rest
                    ⟨{ f with last := f.pc }, inst, op, planned⟩ :=
                  ⟨hframes, rfl, hfetch, hop, heffect⟩
                rw [hcompletes.completion?_eq] at h
                cases h

/-- A step that does not fail completes something. Most arguments about runs start from here, since
a run that goes on is made of steps that do not fail. -/
theorem completes_of_step {p : Processor} {m : Memory} {f : Frame} {rest : List Frame}
    (hframes : p.frames = f :: rest) (h : (p.step m).2.2 = none) : ∃ c, p.Completes m f rest c := by
  cases hcompletion : p.completion? m with
  | none =>
      obtain ⟨fault, hstep⟩ := step_of_completion?_none hframes hcompletion
      rw [hstep] at h
      cases h
  | some c =>
      obtain ⟨top, below, hcompletes⟩ := completion?_eq_some hcompletion
      obtain ⟨rfl, rfl⟩ := List.cons.inj (hcompletes.frames.symm.trans hframes)
      exact ⟨c, hcompletes⟩

end Processor

end RegisterVM
