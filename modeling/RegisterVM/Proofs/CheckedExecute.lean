import RegisterVM.Proofs.Handlers

/-!
# Executing with every access checked

What protects a handler from an index out of range is the check before it: a table of masks says
which operands name registers, and an instruction is refused when one of those is too large.

`perform_eq` says that the masks are right. A handler that runs on a decoded record always ends.
Where the operation that the instruction stands for is refused, the handler is, and has changed
nothing; otherwise it has written, piece by piece, the effect of the operation.
-/

namespace RegisterVM

/-! ### What the index of a named register finds -/

theorem namesRegister_iff {v : Int32} :
    namesRegister v = true ↔ ∃ r, namedRegister v = .ok r := by
  unfold namesRegister namedRegister
  by_cases h : v.toUInt32.toNat < registerCount
  · simp [h]
  · simp [h]

theorem namedRegister_of_not {v : Int32} (h : namesRegister v = false) :
    namedRegister v = .error .invalidRegister := by
  unfold namesRegister at h
  exact dif_neg (by simpa using h)

section

variable {v : Int32} {r : Register}

/-- An operand that names a register is the index of that register, read with its sign. So the check
that it is not too large is enough, and it need not be checked for being negative. -/
theorem toInt_of_named (h : namedRegister v = .ok r) : v.toInt = r.val := by
  unfold namedRegister at h
  by_cases hlt : v.toUInt32.toNat < 64
  · rw [dif_pos hlt] at h
    cases h
    dsimp only
    rw [← UInt32.toNat_toBitVec, Int32.toBitVec_toUInt32] at hlt ⊢
    rw [← Int32.toInt_toBitVec, BitVec.toInt_eq_toNat_of_lt (by omega)]
  · rw [dif_neg hlt] at h
    cases h

theorem registerAt?_eq (h : namedRegister v = .ok r) (registers : RegisterFile) :
    registerAt? registers v = some (registers.get r) := by
  have hv := toInt_of_named h
  rw [registerAt?, if_pos (by omega), show v.toInt.toNat = r.val by omega]
  exact Vector.getElem?_eq_getElem r.isLt

theorem setRegisterAt?_eq (h : namedRegister v = .ok r) (registers : RegisterFile) (word : Int32) :
    setRegisterAt? registers v word = some (registers.set r.val word r.isLt) := by
  have hv := toInt_of_named h
  rw [setRegisterAt?, if_pos (by omega), show v.toInt.toNat = r.val by omega, set?, dif_pos r.isLt]

/-- The index after that of a register is small. -/
theorem toInt_succ_of_named (h : namedRegister v = .ok r) : (v + 1).toInt = r.val + 1 := by
  have hv := toInt_of_named h
  have hr : r.val < 64 := r.isLt
  rw [Int32.toInt_add, hv]
  exact Int.bmod_eq_of_le (by simp; omega) (by simp; omega)

/-- The index after that of a register is that of its pair, if there is one. A wide value is put
there without another check, so the handler asks for the index beforehand. -/
theorem namedRegister_succ (h : namedRegister v = .ok r) (hlt : (v + 1).toInt < registerCount) :
    ∃ s, pairedRegister r = .ok s ∧ namedRegister (v + 1) = .ok s := by
  have hv := toInt_succ_of_named h
  have hpair : r.val + 1 < registerCount := by omega
  have hindex : (v + 1).toUInt32.toNat = r.val + 1 := by
    have := Instruction.toUInt32_toNat_of_nonneg (v := v + 1) (by omega)
    omega
  refine ⟨⟨r.val + 1, hpair⟩, dif_pos hpair, ?_⟩
  unfold namedRegister
  simp only [hindex, hpair, dif_pos]

theorem pairedRegister_of_le (h : namedRegister v = .ok r)
    (hle : (registerCount : Int) ≤ (v + 1).toInt) : pairedRegister r = .error .invalidRegister := by
  have hv := toInt_succ_of_named h
  exact dif_neg (by omega)

end

/-! ### A frame in hand -/

/-- Where a flow lets the frame of the instruction go on. -/
def Flow.next : Flow → UInt32
  | .goto pc => pc
  | .call resume _ _ => resume
  | .leave pc => pc

namespace Workspace

/-- A workspace with a frame in hand, on top of others. All lemmas on handlers are stated for such a
workspace, which leaves no index of a frame to compute. -/
def holding (below : List Frame) (f : Frame) (m : Memory) (stats : Stats) : Workspace :=
  ⟨below ++ [f], below.length, none, m, stats⟩

variable (below : List Frame) (f : Frame) (m : Memory) (stats : Stats)

theorem frame?_holding : (holding below f m stats).frame? = some f := by
  simp [frame?, holding]

theorem put_holding (g : Frame) : (holding below f m stats).put g = holding below g m stats := by
  simp [put, holding]

/-- The frames that are left when `f` leaves those below it. The outermost frame leaves none, and
hands its globals to nobody. -/
def resumed (below : List Frame) (f : Frame) : List Frame :=
  match below.getLast? with
  | none => []
  | some caller => below.dropLast ++ [caller.resume f]

/-- The caller takes over globals only, so where the frame goes on does not matter to it. This is
what makes it harmless that a handler sets the program counter of a frame that has been left. -/
theorem reverse_resumed (p : Processor) (below : List Frame) (f : Frame) (pc : UInt32) :
    (resumed below f).reverse = (p.leaveFrame { f with pc } below.reverse).frames := by
  rcases List.eq_nil_or_concat below with rfl | ⟨lower, caller, rfl⟩
  · rfl
  · simp [resumed, Processor.leaveFrame, Frame.resume]

/-- The workspace once an effect has been written to it, before the frame goes on. Handlers write
the parts of an effect in orders of their own; this is where all of them end. -/
def written (e : Effect) : Workspace :=
  let f := e.registers.foldl (fun f (r, v) => f.set r v) f
  let memory := e.memory m
  let stats := if e.atomic then { stats with atomics := stats.atomics + 1 } else stats
  match e.flow with
  | .goto _ => holding below f memory stats
  | .call resume target arguments =>
      { frames := below ++ [{ f with pc := resume }] ++
          [Frame.enter (some f.registers) target arguments none]
        hand := below.length
        memory
        stats := { stats with invokes := stats.invokes + 1 } }
  | .leave _ =>
      { frames := resumed below f
        hand := below.length
        left := some f
        memory
        stats := { stats with returns := stats.returns + 1 } }

/-- What a handler is to come to: a refusal that has changed nothing, or an effect that was
written. -/
def outcome : Except Refusal Effect → Except Refusal UInt32 × Workspace
  | .error refusal => (.error refusal, holding below f m stats)
  | .ok e => (.ok e.flow.next, written below f m stats e)

end Workspace

open Workspace (holding written outcome)

namespace Handling

variable {α β : Type} {x : Handling α} {k : α → Handling β} {w w' : Workspace}

theorem bind_ok {a : α} (h : x w = some (.ok a, w')) : (x >>= k) w = k a w' := by
  rw [bind_apply, h]

theorem bind_error {refusal : Refusal} (h : x w = some (.error refusal, w')) :
    (x >>= k) w = some (.error refusal, w') := by
  rw [bind_apply, h]

theorem index_eq {find : Workspace → Option α} {a : α} (h : find w = some a) :
    index find w = some (.ok a, w) := by
  rw [index, h]
  rfl

theorem change_eq {next : Workspace → Option Workspace} (h : next w = some w') :
    change next w = some (.ok (), w') := by
  rw [change, h]
  rfl

section

variable {v : Int32} {r : Register} {below : List Frame} {f : Frame} {m : Memory} {stats : Stats}

theorem register_holding (h : namedRegister v = .ok r) :
    register v (holding below f m stats) = some (.ok (f.get r), holding below f m stats) := by
  refine index_eq ?_
  rw [Workspace.frame?_holding]
  exact registerAt?_eq h f.registers

theorem setRegister_holding (h : namedRegister v = .ok r) (word : Int32) :
    setRegister v word (holding below f m stats) =
      some (.ok (), holding below (f.set r word) m stats) := by
  refine change_eq ?_
  simp only [Workspace.frame?_holding, setRegisterAt?_eq h, Option.bind_eq_bind, Option.bind_some,
    Workspace.put_holding, Option.pure_def]
  rfl

theorem load_holding (below : List Frame) (f : Frame) (m : Memory) (stats : Stats)
    (address : UInt32) (width : Nat) :
    load address width (holding below f m stats) =
      some ((m.readNat address width).mapError (refuse address), holding below f m stats) := rfl

/-- A write is refused with nothing changed, or is done. -/
theorem store_holding (below : List Frame) (f : Frame) (m : Memory) (stats : Stats)
    (address : UInt32) (bytes : List UInt8) :
    store address bytes (holding below f m stats) =
      match (m.check .write address bytes.length).mapError (refuse address) with
      | .error refusal => some (.error refusal, holding below f m stats)
      | .ok _ => some (.ok (), holding below f (m.poke address bytes) stats) := by
  have hask : ask (fun w => (w.memory.check .write address bytes.length).mapError (refuse address))
      (holding below f m stats) =
        some ((m.check .write address bytes.length).mapError (refuse address),
          holding below f m stats) := rfl
  cases hcheck : (m.check .write address bytes.length).mapError (refuse address) with
  | error refusal =>
      rw [hcheck] at hask
      exact bind_error hask
  | ok =>
      rw [hcheck] at hask
      exact bind_ok hask

end

end Handling

open Handling (bind_ok bind_error index_eq change_eq)

/-! ### Handlers and operations -/

/-- Operand `i` names the register `r`. -/
def Slots.Names (slots : Slots) (i : Nat) (r : Register) : Prop :=
  ∃ v, slots.args[i]? = some v ∧ namedRegister v = .ok r

/-- Operand `i` has the value of a source, whatever frame is in hand. Register or constant is
decided by the opcode, so one handler serves both forms of an instruction. -/
def Slots.Gives (slots : Slots) (i : Nat) (source : Source) : Prop :=
  ∀ below f m stats, slots.source i (holding below f m stats) =
    some (.ok (f.source source), holding below f m stats)

section

variable {slots : Slots} {i : Nat} {r : Register} {below : List Frame} {f : Frame} {m : Memory}
  {stats : Stats}

theorem Slots.argument_eq {v : Int32} (h : slots.args[i]? = some v) (w : Workspace) :
    slots.argument i w = some (.ok v, w) := index_eq h

theorem Slots.Names.register (h : slots.Names i r) :
    slots.register i (holding below f m stats) =
      some (.ok (f.get r), holding below f m stats) := by
  obtain ⟨v, hv, hr⟩ := h
  exact (bind_ok (Slots.argument_eq hv _)).trans (Handling.register_holding hr)

theorem Slots.Names.setRegister (h : slots.Names i r) (word : Int32) :
    slots.setRegister i word (holding below f m stats) =
      some (.ok (), holding below (f.set r word) m stats) := by
  obtain ⟨v, hv, hr⟩ := h
  exact (bind_ok (Slots.argument_eq hv _)).trans (Handling.setRegister_holding hr word)

theorem Slots.Names.gives (h : slots.Names i r) (hlow : slots.opcode.toNat < 128) :
    slots.Gives i (.register r) := by
  intro below f m stats
  rw [Slots.source, if_neg (by simp [Slots.hasConstant, hlow])]
  exact h.register

theorem Slots.gives_constant {constant : Int32} (h : slots.args[i]? = some constant)
    (hhigh : 128 ≤ slots.opcode.toNat) : slots.Gives i (.constant constant) := by
  intro below f m stats
  rw [Slots.source, if_pos (by simp [Slots.hasConstant, hhigh])]
  exact Slots.argument_eq h _

end

/-- A handler that does what an operation says. This is the specification of a handler; the lemmas
below prove it for each, from what its operands are. -/
def Does (run : Handler) (slots : Slots) (op : Operation) : Prop :=
  ∀ below f m stats, run f.pc slots (holding below f m stats) =
    some (outcome below f m stats (op.effect f m (slots.next f.pc)))

section

variable {slots : Slots}

theorem runMath_does {left dest : Register} {right : Source} (hleft : slots.Names 0 left)
    (hright : slots.Gives 1 right) (hdest : slots.Names 2 dest) :
    Does runMath slots (.math (.ofBits slots.opcode.toNat) left right dest) := by
  intro below f m stats
  rw [runMath, bind_ok hleft.register, bind_ok (hright below f m stats), Operation.effect]
  cases (MathOp.ofBits slots.opcode.toNat).apply (f.get left) (f.source right) with
  | none => rfl
  | some v => exact bind_ok (hdest.setRegister v)

theorem runBranch_does {left right : Register} {distance : Int32} (hleft : slots.Names 0 left)
    (hright : slots.Names 1 right) (hdistance : slots.args[2]? = some distance) :
    Does runBranch slots
      (.branch (.ofBits slots.opcode.toNat) left (.register right) distance) := by
  intro below f m stats
  rw [runBranch, bind_ok hleft.register, bind_ok hright.register, Operation.effect, Frame.source]
  by_cases hholds : (Comparison.ofBits slots.opcode.toNat).holds (f.get left) (f.get right) = true
  · rw [if_pos hholds, if_pos hholds]
    exact bind_ok (Slots.argument_eq hdistance _)
  · rw [if_neg hholds, if_neg hholds]
    rfl

theorem runBranchConst_does {left : Register} {constant distance : Int32}
    (hleft : slots.Names 0 left) (hconstant : slots.args[1]? = some constant)
    (hdistance : slots.args[2]? = some distance) :
    Does runBranchConst slots (.branch .eq left (.constant constant) distance) := by
  intro below f m stats
  rw [runBranchConst, bind_ok hleft.register, bind_ok (Slots.argument_eq hconstant _),
    Operation.effect, Frame.source]
  have hholds : Comparison.eq.holds (f.get left) constant = decide (f.get left = constant) := rfl
  rw [hholds]
  by_cases heq : f.get left = constant
  · rw [if_pos heq, if_pos (decide_eq_true heq)]
    exact bind_ok (Slots.argument_eq hdistance _)
  · rw [if_neg heq, if_neg (by simpa using heq)]
    rfl

theorem registerWords_holding {vs : List Int32} {rs : List Register} {below : List Frame}
    {f : Frame} {m : Memory} {stats : Stats} (h : vs.mapM namedRegister = .ok rs) :
    registerWords vs (holding below f m stats) =
      some (.ok (rs.map f.get), holding below f m stats) := by
  induction vs generalizing rs with
  | nil =>
      cases h
      rfl
  | cons v vs ih =>
      rw [List.mapM_cons] at h
      obtain ⟨r, hr, h⟩ := bind_eq_ok h
      obtain ⟨rest, hrest, h⟩ := bind_eq_ok h
      cases h
      rw [registerWords, bind_ok (Handling.register_holding hr), bind_ok (ih hrest)]
      rfl

theorem setPc_holding (below : List Frame) (f : Frame) (m : Memory) (stats : Stats) (pc : UInt32) :
    Handling.setPc pc (holding below f m stats) =
      some (.ok (), holding below { f with pc } m stats) := by
  refine change_eq ?_
  simp only [Workspace.frame?_holding, Option.bind_eq_bind, Option.bind_some, Option.pure_def,
    Workspace.put_holding]

/-- A caller was made to go on after the call before its frame is let go on there, so the second
time changes nothing. -/
theorem setPc_called (below : List Frame) (caller callee : Frame) (m : Memory) (stats : Stats) :
    Handling.setPc caller.pc ⟨below ++ [caller] ++ [callee], below.length, none, m, stats⟩ =
      some (.ok (), ⟨below ++ [caller] ++ [callee], below.length, none, m, stats⟩) := by
  refine change_eq ?_
  simp [Workspace.frame?, Workspace.put]

/-- A frame that has been left is let go on all the same, where the host may still see it. -/
theorem setPc_left (frames : List Frame) (hand : Nat) (f : Frame) (m : Memory) (stats : Stats)
    (pc : UInt32) :
    Handling.setPc pc ⟨frames, hand, some f, m, stats⟩ =
      some (.ok (), ⟨frames, hand, some { f with pc }, m, stats⟩) := rfl

theorem runInvoke_does {target : Register} {arguments : List Register}
    (htarget : slots.Names 0 target) (harguments : slots.list.mapM namedRegister = .ok arguments) :
    Does runInvoke slots (.invoke target arguments) := by
  intro below f m stats
  let resumed : Frame := { f with pc := slots.next f.pc }
  have henter : Handling.enter (f.get target).toUInt32 (arguments.map f.get)
      (holding below resumed m stats) =
        some (.ok (), { holding below resumed m stats with
          frames := below ++ [resumed] ++
            [.enter (some f.registers) (f.get target).toUInt32 (arguments.map f.get) none] }) := by
    refine change_eq ?_
    rw [enterFrame?_eq]
    simp [holding, resumed]
  rw [runInvoke, bind_ok (registerWords_holding harguments),
    bind_ok (setPc_holding below f m stats _), bind_ok htarget.register]
  exact (bind_ok henter).trans (bind_ok (change_eq rfl))

theorem leaveFrame?_resumed (below : List Frame) (f : Frame) :
    leaveFrame? (below ++ [f]) = some (f, Workspace.resumed below f) := by
  -- the outermost frame leaves nobody to pass its globals back to
  rcases List.eq_nil_or_concat below with rfl | ⟨lower, caller, hbelow⟩
  · rfl
  · rw [hbelow, List.concat_eq_append, leaveFrame?_eq]
    simp [Workspace.resumed]

theorem runReturn_does : Does runReturn slots .leave := by
  intro below f m stats
  have hleave : Handling.leave (holding below f m stats) =
      some (.ok (), { holding below f m stats with
        frames := Workspace.resumed below f, left := some f }) := by
    refine change_eq ?_
    simp [holding, leaveFrame?_resumed]
  exact (bind_ok hleave).trans (bind_ok (change_eq rfl))

/-- Changing a word in place is the change that was worked out, written: the same read, the same
check, and then the write that cannot fail. -/
theorem changeWord_holding (below : List Frame) (f : Frame) (m : Memory) (stats : Stats)
    (address : UInt32) (g : UInt32 → UInt32) :
    changeWord address g (holding below f m stats) =
      match updateWord m address g with
      | .error refusal => some (.error refusal, holding below f m stats)
      | .ok (v, target, bytes) => some (.ok v, holding below f (m.poke target bytes) stats) := by
  rw [changeWord, updateWord]
  cases hread : m.readNat address 4 with
  | error e =>
      refine bind_error ?_
      rw [Handling.load_holding, hread]
      rfl
  | ok n =>
      have hload : Handling.load address 4 (holding below f m stats) =
          some (.ok n, holding below f m stats) := by
        rw [Handling.load_holding, hread]
        rfl
      rw [bind_ok hload]
      have hstore := Handling.store_holding below f m stats address
        (toBigEndian 4 (g (UInt32.ofNat n)).toNat)
      rw [length_toBigEndian] at hstore
      cases hcheck : m.check .write address 4 with
      | error e =>
          rw [hcheck] at hstore
          exact bind_error hstore
      | ok =>
          rw [hcheck] at hstore
          exact bind_ok hstore

theorem runIncrement_does {base : Register} {offset : Int32} (hbase : slots.Names 0 base)
    (hoffset : slots.args[1]? = some offset) :
    Does runIncrement slots (.increment base offset) := by
  intro below f m stats
  have hchange := changeWord_holding below f m stats (f.address base (.constant offset)) (· + 1)
  rw [runIncrement, bind_ok hbase.register, bind_ok (Slots.argument_eq hoffset _), Operation.effect]
  cases hupdate : updateWord m (f.address base (.constant offset)) (· + 1) with
  | error refusal =>
      rw [hupdate] at hchange
      exact bind_error hchange
  | ok changed =>
      rw [hupdate] at hchange
      exact (bind_ok hchange).trans (bind_ok (change_eq rfl))

theorem runDecrement_does {dest base : Register} {offset : Int32} (hdest : slots.Names 0 dest)
    (hbase : slots.Names 1 base) (hoffset : slots.args[2]? = some offset) :
    Does runDecrement slots (.decrement dest base offset) := by
  intro below f m stats
  have hchange := changeWord_holding below f m stats (f.address base (.constant offset)) (· - 1)
  rw [runDecrement, bind_ok hbase.register, bind_ok (Slots.argument_eq hoffset _), Operation.effect]
  cases hupdate : updateWord m (f.address base (.constant offset)) (· - 1) with
  | error refusal =>
      rw [hupdate] at hchange
      exact bind_error hchange
  | ok changed =>
      rw [hupdate] at hchange
      refine (bind_ok hchange).trans
        ((bind_ok (hdest.setRegister _)).trans (bind_ok (change_eq rfl)))

section

variable {type : DataType} {v : Int32} {value : Register} (base : Register) (offset : Source)
  (below : List Frame) (f : Frame) (m : Memory) (stats : Stats)

theorem loadInto_holding (hv : namedRegister v = .ok value)
    (hpair : type.isWide = true → (v + 1).toInt < registerCount) :
    loadInto type v (f.address base offset) (holding below f m stats) =
      match loadEffect f m type value base offset with
      | .error refusal => some (.error refusal, holding below f m stats)
      | .ok words =>
          some (.ok (), holding below (words.foldl (fun f (r, v) => f.set r v) f) m stats) := by
  have hload := Handling.load_holding below f m stats (f.address base offset) type.width
  rw [loadInto, loadEffect]
  by_cases hwide : type.isWide = true
  · obtain ⟨second, hsecond, hnext⟩ := namedRegister_succ hv (hpair hwide)
    have hwidth : type.width = 8 := by cases type <;> simp_all [DataType.isWide, DataType.width]
    rw [hwidth] at hload ⊢
    simp only [hwide, hsecond, if_true]
    cases hread : m.readNat (f.address base offset) 8 with
    | error e =>
        rw [hread] at hload
        exact bind_error hload
    | ok n =>
        rw [hread] at hload
        refine (bind_ok hload).trans ((bind_ok (Handling.setRegister_holding hv _)).trans ?_)
        exact Handling.setRegister_holding hnext _
  · simp only [hwide, Bool.false_eq_true, if_false]
    cases hread : m.readNat (f.address base offset) type.width with
    | error e =>
        rw [hread] at hload
        exact bind_error hload
    | ok n =>
        rw [hread] at hload
        exact (bind_ok hload).trans (Handling.setRegister_holding hv _)

theorem storeFrom_holding (hv : namedRegister v = .ok value)
    (hpair : type.isWide = true → (v + 1).toInt < registerCount) :
    storeFrom type v (f.address base offset) (holding below f m stats) =
      match storeEffect f m type value base offset with
      | .error refusal => some (.error refusal, holding below f m stats)
      | .ok (target, bytes) => some (.ok (), holding below f (m.poke target bytes) stats) := by
  -- both widths end alike, in a check of the bytes they have put together
  have hlast (bytes : List UInt8) : Handling.store (f.address base offset) bytes
      (holding below f m stats) =
        match (do
          (m.check .write (f.address base offset) bytes.length).mapError
            (refuse (f.address base offset))
          pure (f.address base offset, bytes) : Except Refusal (UInt32 × List UInt8)) with
        | .error refusal => some (.error refusal, holding below f m stats)
        | .ok (target, bytes) => some (.ok (), holding below f (m.poke target bytes) stats) := by
    rw [Handling.store_holding]
    cases m.check .write (f.address base offset) bytes.length <;> rfl
  rw [storeFrom, storeEffect, bind_ok (Handling.register_holding hv)]
  by_cases hwide : type.isWide = true
  · obtain ⟨second, hsecond, hnext⟩ := namedRegister_succ hv (hpair hwide)
    simp only [hwide, hsecond, if_true]
    exact (bind_ok (Handling.register_holding hnext)).trans (hlast _)
  · simp only [hwide, Bool.false_eq_true, if_false]
    exact hlast _

end

theorem runMemory_does {value base : Register} {offset : Source} (hvalue : slots.Names 0 value)
    (hbase : slots.Names 1 base) (hoffset : slots.Gives 2 offset) :
    Does runMemory slots
      (memoryOperation (.ofBits slots.opcode.toNat) (.ofBits slots.opcode.toNat) value base
        offset) := by
  intro below f m stats
  obtain ⟨v, harg, hv⟩ := hvalue
  rw [runMemory, bind_ok (hoffset below f m stats), bind_ok hbase.register,
    bind_ok (Slots.argument_eq harg _)]
  by_cases hfit : (DataType.ofBits slots.opcode.toNat).isWide = true ∧
      (registerCount : Int) ≤ (v + 1).toInt
  · obtain ⟨hwide, hle⟩ := hfit
    have hpair := pairedRegister_of_le hv hle
    simp only [if_pos (And.intro hwide hle)]
    cases Direction.ofBits slots.opcode.toNat with
    | load =>
        simp only [memoryOperation, Operation.effect, loadEffect, hwide, hpair, if_true]
        rfl
    | store =>
        simp only [memoryOperation, Operation.effect, storeEffect, hwide, hpair, if_true]
        rfl
  · have hpair : (DataType.ofBits slots.opcode.toNat).isWide = true →
        (v + 1).toInt < registerCount := fun hwide => Int.lt_of_not_ge fun hle => hfit ⟨hwide, hle⟩
    simp only [if_neg hfit]
    cases Direction.ofBits slots.opcode.toNat with
    | load =>
        have hload := loadInto_holding base offset below f m stats hv hpair
        simp only [memoryOperation, Operation.effect]
        cases hloaded : loadEffect f m (DataType.ofBits slots.opcode.toNat) value base offset with
        | error refusal =>
            rw [hloaded] at hload
            exact bind_error hload
        | ok words =>
            rw [hloaded] at hload
            exact bind_ok hload
    | store =>
        have hstore := storeFrom_holding base offset below f m stats hv hpair
        simp only [memoryOperation, Operation.effect]
        cases hstored : storeEffect f m (DataType.ofBits slots.opcode.toNat) value base offset with
        | error refusal =>
            rw [hstored] at hstore
            exact bind_error hstore
        | ok change =>
            rw [hstored] at hstore
            exact bind_ok hstore

theorem runConvert_does {source dest : Register} (hsource : slots.Names 0 source)
    (hdest : slots.Names 1 dest) :
    Does runConvert slots
      (.convert (.ofBits (slots.opcode.toNat / 4)) (.ofBits slots.opcode.toNat) source dest) := by
  intro below f m stats
  rw [runConvert, bind_ok hsource.register]
  exact bind_ok (hdest.setRegister _)

end

/-! ### The variant in the opcode byte -/

/-- The byte spells the variant of an operation the way handlers read it, from bits of the opcode
and not from the decoded opcode. -/
def Opcode.SpelledBy (b : Nat) : Opcode → Prop
  | .math _ op => b < 128 ∧ op = .ofBits b
  | .mathConst _ op => 128 ≤ b ∧ op = .ofBits b
  | .branch condition => condition = .ofBits b
  | .memory direction type => b < 128 ∧ direction = .ofBits b ∧ type = .ofBits b
  | .memoryConst direction type => 128 ≤ b ∧ direction = .ofBits b ∧ type = .ofBits b
  | .convert source target => source = .ofBits (b / 4) ∧ target = .ofBits b
  | _ => True

section

variable (b : Nat)

theorem MathOp.ofBits_low : MathOp.ofBits (b % 16) = .ofBits b := by
  rw [ofBits, ofBits, Nat.mod_mod]

theorem Comparison.ofBits_low : Comparison.ofBits (b % 16) = .ofBits b := by
  rw [ofBits, ofBits, Nat.mod_mod_of_dvd b (by decide)]

theorem DataType.ofBits_low : DataType.ofBits (b % 16) = .ofBits b := by
  rw [ofBits, ofBits, Nat.mod_mod_of_dvd b (by decide)]

theorem Direction.ofBits_low : Direction.ofBits (b % 16) = .ofBits b := by
  rw [ofBits, ofBits, show b % 16 / 8 % 2 = b / 8 % 2 by omega]

theorem ValueKind.ofBits_low : ValueKind.ofBits (b % 16) = .ofBits b := by
  rw [ofBits, ofBits, Nat.mod_mod_of_dvd b (by decide)]

theorem ValueKind.ofBits_middle : ValueKind.ofBits (b % 16 / 4) = .ofBits (b / 4) := by
  rw [ofBits, ofBits, show b % 16 / 4 % 4 = b / 4 % 4 by omega]

end

theorem Opcode.spelledBy_of_ofByte? {b : UInt8} {op : Opcode} (h : ofByte? b = some op) :
    op.SpelledBy b.toNat := by
  have hmath : ∀ kind, b.toNat < 128 → (math kind (.ofBits (b.toNat % 16))).SpelledBy b.toNat :=
    fun kind hlt => ⟨hlt, MathOp.ofBits_low _⟩
  have hmathConst : ∀ kind, 128 ≤ b.toNat →
      (mathConst kind (.ofBits (b.toNat % 16))).SpelledBy b.toNat :=
    fun kind hle => ⟨hle, MathOp.ofBits_low _⟩
  unfold ofByte? ofNibbles? at h
  split at h
  case h_1 hhigh => cases h; exact hmath _ (by omega)
  case h_2 hhigh => cases h; exact hmath _ (by omega)
  case h_3 hhigh => cases h; exact hmath _ (by omega)
  case h_4 hhigh => cases h; exact hmath _ (by omega)
  case h_5 hhigh =>
    split at h
    case h_8 => cases h
    case h_9 => cases h; exact Comparison.ofBits_low _
    all_goals
      cases h
      trivial
  case h_6 hhigh => cases h; exact ⟨by omega, Direction.ofBits_low _, DataType.ofBits_low _⟩
  case h_7 hhigh => cases h; exact hmathConst _ (by omega)
  case h_8 hhigh => cases h; exact hmathConst _ (by omega)
  case h_9 hhigh => cases h; exact hmathConst _ (by omega)
  case h_10 hhigh => cases h; exact hmathConst _ (by omega)
  case h_11 hhigh => cases h; exact ⟨by omega, Direction.ofBits_low _, DataType.ofBits_low _⟩
  case h_12 hhigh => cases h; exact ⟨ValueKind.ofBits_middle _, ValueKind.ofBits_low _⟩
  case h_13 => cases h

/-! ### The check of the registers -/

/-- What is to become of an instruction once its registers have been named. Naming comes first, so a
register that does not exist is reported before anything else. -/
def planned (f : Frame) (m : Memory) (next : UInt32) (op : Except FaultCause Operation) :
    Except Refusal Effect := do
  let op ← op.mapError (·, 0)
  op.effect f m next

/-- With the operands from `i` on still to be checked, a handler ends as planned for `op`. The mask
is used up bit by bit, and `op` names its registers in the same order; the rules below take one
operand each. -/
def EndsAs (slots : Slots) (run : Handler) (mask i : Nat)
    (op : Except FaultCause Operation) : Prop :=
  ∀ below f m stats, runChecked run mask i f.pc slots (holding below f m stats) =
    some (outcome below f m stats (planned f m (slots.next f.pc) op))

section

variable {slots : Slots} {run : Handler} {mask i : Nat}

/-- An operand in the mask names a register, or the instruction is refused. -/
theorem EndsAs.named {v : Int32} {op : Register → Except FaultCause Operation}
    (hmask : mask % 2 = 1) (hv : slots.args[i]? = some v)
    (h : ∀ r, slots.Names i r → EndsAs slots run (mask / 2) (i + 1) (op r)) :
    EndsAs slots run mask i (namedRegister v >>= op) := by
  intro below f m stats
  have hcheck : slots.checkFrom mask i =
      if namesRegister v then slots.checkFrom (mask / 2) (i + 1) else some false := by
    rw [Slots.checkFrom, if_neg (by omega), if_pos hmask, hv]
    rfl
  rw [runChecked, hcheck]
  cases hnames : namesRegister v with
  | true =>
      obtain ⟨r, hr⟩ := namesRegister_iff.mp hnames
      rw [hr]
      exact h r ⟨v, hv, hr⟩ below f m stats
  | false =>
      rw [namedRegister_of_not hnames]
      rfl

theorem EndsAs.skip {op : Except FaultCause Operation} (hmask : mask % 2 = 0) (hpos : 0 < mask)
    (h : EndsAs slots run (mask / 2) (i + 1) op) : EndsAs slots run mask i op := by
  intro below f m stats
  rw [runChecked, Slots.checkFrom, if_neg (by omega), if_neg (by omega)]
  exact h below f m stats

theorem mapM_namedRegister_of_all {vs : List Int32} (h : vs.all namesRegister = true) :
    ∃ rs, vs.mapM namedRegister = .ok rs := by
  induction vs with
  | nil => exact ⟨[], rfl⟩
  | cons v vs ih =>
      rw [List.all_cons, Bool.and_eq_true] at h
      obtain ⟨r, hr⟩ := namesRegister_iff.mp h.1
      obtain ⟨rs, hrs⟩ := ih h.2
      exact ⟨r :: rs, by rw [List.mapM_cons, hr, hrs]; rfl⟩

theorem mapM_namedRegister_of_not_all {vs : List Int32} (h : vs.all namesRegister = false) :
    vs.mapM namedRegister = .error .invalidRegister := by
  induction vs with
  | nil => simp at h
  | cons v vs ih =>
      rw [List.mapM_cons]
      cases hnames : namesRegister v with
      | true =>
          obtain ⟨r, hr⟩ := namesRegister_iff.mp hnames
          rw [List.all_cons, hnames, Bool.true_and] at h
          rw [hr, ih h]
          rfl
      | false =>
          rw [namedRegister_of_not hnames]
          rfl

/-- When all operands have been checked, the register list is, entry by entry and before the handler
starts. -/
theorem EndsAs.list {op : List Register → Operation}
    (h : ∀ rs, slots.list.mapM namedRegister = .ok rs → Does run slots (op rs)) :
    EndsAs slots run 0 i (slots.list.mapM namedRegister >>= fun rs => pure (op rs)) := by
  intro below f m stats
  rw [runChecked, Slots.checkFrom, if_pos rfl]
  cases hall : slots.list.all namesRegister with
  | true =>
      obtain ⟨rs, hrs⟩ := mapM_namedRegister_of_all hall
      rw [hrs]
      exact h rs hrs below f m stats
  | false =>
      rw [mapM_namedRegister_of_not_all hall]
      rfl

theorem EndsAs.done {op : Operation} (hlist : slots.list = []) (h : Does run slots op) :
    EndsAs slots run 0 i (.ok op) := by
  intro below f m stats
  rw [runChecked, Slots.checkFrom, if_pos rfl, hlist]
  exact h below f m stats

end

/-! ### Instructions -/

/-- The record is executed without leaving a range, and as the operation that the instruction stands
for. -/
def Slots.Performs (slots : Slots) (operands : List Operand) : Prop :=
  ∀ below f m stats, perform f.pc slots (holding below f m stats) =
    some (outcome below f m stats
      (planned f m (slots.next f.pc) (Operation.ofInstruction ⟨slots.opcode, operands⟩)))

section

variable {slots : Slots} {operands : List Operand} (h : slots.Holds ⟨slots.opcode, operands⟩)

include h

theorem family_eq {op : Opcode} (hop : Opcode.ofByte? slots.opcode = some op) :
    slots.family = op.family := by
  rw [h.family, Opcode.familyOf, hop]
  rfl

theorem performs_of_unsupported {op : Opcode} (hop : Opcode.ofByte? slots.opcode = some op)
    (hrun : handlerTable[op.family]? = some none)
    (hcause : Operation.ofInstruction ⟨slots.opcode, operands⟩ = .error .unsupported) :
    slots.Performs operands := by
  intro below f m stats
  rw [perform, family_eq h hop, hrun, hcause]
  rfl

/-- An instruction with a handler is performed if its handler, behind the check with the mask of its
family, ends as planned. -/
theorem performs_of_handler {op : Opcode} {run : Handler} (mask : Nat)
    (hop : Opcode.ofByte? slots.opcode = some op)
    (hrun : handlerTable[op.family]? = some (some run))
    (hmask : registerMasks[op.family]? = some mask)
    (hends : EndsAs slots run mask 0 (Operation.ofInstruction ⟨slots.opcode, operands⟩)) :
    slots.Performs operands := by
  intro below f m stats
  rw [perform, family_eq h hop, hrun, hmask]
  exact hends below f m stats

theorem performs_math {kind : ValueKind} {op : MathOp}
    (hop : Opcode.ofByte? slots.opcode = some (.math kind op))
    (hfit : Operand.FitAll [.uint, .uint, .uint] operands) : slots.Performs operands := by
  obtain _ | ⟨⟨⟩, _ | ⟨⟨⟩, _ | ⟨⟨⟩, ⟨⟩⟩⟩⟩ := hfit
  obtain ⟨hlow, rfl⟩ := Opcode.spelledBy_of_ofByte? hop
  cases kind with
  | integer =>
      refine performs_of_handler h 7 hop rfl rfl ?_
      simp only [Operation.ofInstruction, hop]
      -- the mask is used up from its low end, in the order in which the operation names registers
      refine .named rfl (h.args 0 (by decide)) fun left hleft => ?_
      refine .named rfl (h.args 1 (by decide)) fun right hright => ?_
      refine .named rfl (h.args 2 (by decide)) fun dest hdest => ?_
      exact .done h.list (runMath_does hleft (hright.gives hlow) hdest)
  | long => exact performs_of_unsupported h hop rfl (by simp only [Operation.ofInstruction, hop])
  | float => exact performs_of_unsupported h hop rfl (by simp only [Operation.ofInstruction, hop])
  | double => exact performs_of_unsupported h hop rfl (by simp only [Operation.ofInstruction, hop])

theorem performs_mathConst {kind : ValueKind} {op : MathOp}
    (hop : Opcode.ofByte? slots.opcode = some (.mathConst kind op))
    (hfit : Operand.FitAll (Opcode.mathConst kind op).formats operands) :
    slots.Performs operands := by
  obtain ⟨hhigh, rfl⟩ := Opcode.spelledBy_of_ofByte? hop
  cases kind with
  | integer =>
      obtain _ | ⟨⟨⟩, _ | ⟨⟨⟩, _ | ⟨⟨⟩, ⟨⟩⟩⟩⟩ := hfit
      refine performs_of_handler h 5 hop rfl rfl ?_
      simp only [Operation.ofInstruction, hop]
      refine .named rfl (h.args 0 (by decide)) fun left hleft => ?_
      -- the constant is not in the mask
      refine .skip rfl (by decide) ?_
      refine .named rfl (h.args 2 (by decide)) fun dest hdest => ?_
      exact .done h.list
        (runMath_does hleft (Slots.gives_constant (h.args 1 (by decide)) hhigh) hdest)
  | long => exact performs_of_unsupported h hop rfl (by simp only [Operation.ofInstruction, hop])
  | float => exact performs_of_unsupported h hop rfl (by simp only [Operation.ofInstruction, hop])
  | double => exact performs_of_unsupported h hop rfl (by simp only [Operation.ofInstruction, hop])

theorem performs_branch {condition : Comparison}
    (hop : Opcode.ofByte? slots.opcode = some (.branch condition))
    (hfit : Operand.FitAll [.uint, .uint, .jump] operands) : slots.Performs operands := by
  obtain _ | ⟨⟨⟩, _ | ⟨⟨⟩, _ | ⟨⟨⟩, ⟨⟩⟩⟩⟩ := hfit
  obtain rfl := Opcode.spelledBy_of_ofByte? hop
  refine performs_of_handler h 3 hop rfl rfl ?_
  simp only [Operation.ofInstruction, hop]
  refine .named rfl (h.args 0 (by decide)) fun left hleft => ?_
  refine .named rfl (h.args 1 (by decide)) fun right hright => ?_
  exact .done h.list (runBranch_does hleft hright (h.args 2 (by decide)))

theorem performs_branchConst (hop : Opcode.ofByte? slots.opcode = some .branchConst)
    (hfit : Operand.FitAll [.uint, .int32, .jump] operands) : slots.Performs operands := by
  obtain _ | ⟨⟨⟩, _ | ⟨⟨⟩, _ | ⟨⟨⟩, ⟨⟩⟩⟩⟩ := hfit
  refine performs_of_handler h 1 hop rfl rfl ?_
  simp only [Operation.ofInstruction, hop]
  refine .named rfl (h.args 0 (by decide)) fun left hleft => ?_
  exact .done h.list (runBranchConst_does hleft (h.args 1 (by decide)) (h.args 2 (by decide)))

theorem performs_invoke (hop : Opcode.ofByte? slots.opcode = some .invoke)
    (hfit : Operand.FitAll [.uint, .registers] operands) : slots.Performs operands := by
  obtain _ | ⟨⟨⟩, _ | ⟨_ | _ | _ | ⟨list⟩, ⟨⟩⟩⟩ := hfit
  have hlist : slots.list = list := h.list.trans (List.append_nil list)
  refine performs_of_handler h 1 hop rfl rfl ?_
  simp only [Operation.ofInstruction, hop]
  refine .named rfl (h.args 0 (by decide)) fun target htarget => ?_
  rw [← hlist]
  exact .list fun arguments harguments => runInvoke_does htarget harguments

theorem performs_return (hop : Opcode.ofByte? slots.opcode = some .return)
    (hfit : Operand.FitAll [] operands) : slots.Performs operands := by
  obtain ⟨⟩ := hfit
  refine performs_of_handler h 0 hop rfl rfl ?_
  simp only [Operation.ofInstruction, hop]
  exact .done h.list runReturn_does

theorem performs_entryMarker (hop : Opcode.ofByte? slots.opcode = some .entryMarker)
    (hfit : Operand.FitAll [] operands) : slots.Performs operands := by
  obtain ⟨⟩ := hfit
  refine performs_of_handler h 0 hop rfl rfl ?_
  simp only [Operation.ofInstruction, hop]
  exact .done h.list fun _ _ _ _ => rfl

theorem performs_increment (hop : Opcode.ofByte? slots.opcode = some .increment)
    (hfit : Operand.FitAll [.uint, .uint] operands) : slots.Performs operands := by
  obtain _ | ⟨⟨⟩, _ | ⟨⟨⟩, ⟨⟩⟩⟩ := hfit
  refine performs_of_handler h 1 hop rfl rfl ?_
  simp only [Operation.ofInstruction, hop]
  refine .named rfl (h.args 0 (by decide)) fun base hbase => ?_
  exact .done h.list (runIncrement_does hbase (h.args 1 (by decide)))

theorem performs_decrement (hop : Opcode.ofByte? slots.opcode = some .decrement)
    (hfit : Operand.FitAll [.uint, .uint, .uint] operands) : slots.Performs operands := by
  obtain _ | ⟨⟨⟩, _ | ⟨⟨⟩, _ | ⟨⟨⟩, ⟨⟩⟩⟩⟩ := hfit
  refine performs_of_handler h 3 hop rfl rfl ?_
  simp only [Operation.ofInstruction, hop]
  refine .named rfl (h.args 0 (by decide)) fun dest hdest => ?_
  refine .named rfl (h.args 1 (by decide)) fun base hbase => ?_
  exact .done h.list (runDecrement_does hdest hbase (h.args 2 (by decide)))

theorem performs_memory {direction : Direction} {type : DataType}
    (hop : Opcode.ofByte? slots.opcode = some (.memory direction type))
    (hfit : Operand.FitAll [.uint, .uint, .uint] operands) : slots.Performs operands := by
  obtain _ | ⟨⟨⟩, _ | ⟨⟨⟩, _ | ⟨⟨⟩, ⟨⟩⟩⟩⟩ := hfit
  obtain ⟨hlow, rfl, rfl⟩ := Opcode.spelledBy_of_ofByte? hop
  refine performs_of_handler h 7 hop rfl rfl ?_
  simp only [Operation.ofInstruction, hop]
  refine .named rfl (h.args 0 (by decide)) fun value hvalue => ?_
  refine .named rfl (h.args 1 (by decide)) fun base hbase => ?_
  refine .named rfl (h.args 2 (by decide)) fun offset hoffset => ?_
  exact .done h.list (runMemory_does hvalue hbase (hoffset.gives hlow))

theorem performs_memoryConst {direction : Direction} {type : DataType}
    (hop : Opcode.ofByte? slots.opcode = some (.memoryConst direction type))
    (hfit : Operand.FitAll [.uint, .uint, .int32] operands) : slots.Performs operands := by
  obtain _ | ⟨⟨⟩, _ | ⟨⟨⟩, _ | ⟨⟨⟩, ⟨⟩⟩⟩⟩ := hfit
  obtain ⟨hhigh, rfl, rfl⟩ := Opcode.spelledBy_of_ofByte? hop
  refine performs_of_handler h 3 hop rfl rfl ?_
  simp only [Operation.ofInstruction, hop]
  refine .named rfl (h.args 0 (by decide)) fun value hvalue => ?_
  refine .named rfl (h.args 1 (by decide)) fun base hbase => ?_
  exact .done h.list
    (runMemory_does hvalue hbase (Slots.gives_constant (h.args 2 (by decide)) hhigh))

theorem performs_convert {source target : ValueKind}
    (hop : Opcode.ofByte? slots.opcode = some (.convert source target))
    (hfit : Operand.FitAll [.uint, .uint] operands) : slots.Performs operands := by
  obtain _ | ⟨⟨⟩, _ | ⟨⟨⟩, ⟨⟩⟩⟩ := hfit
  obtain ⟨rfl, rfl⟩ := Opcode.spelledBy_of_ofByte? hop
  refine performs_of_handler h 3 hop rfl rfl ?_
  simp only [Operation.ofInstruction, hop]
  refine .named rfl (h.args 0 (by decide)) fun value hvalue => ?_
  refine .named rfl (h.args 1 (by decide)) fun dest hdest => ?_
  exact .done h.list (runConvert_does hvalue hdest)

end

/-- A decoded record is performed without leaving a range, and as the operation that its instruction
stands for: refused where that is, and with its effect otherwise. There is one case for each family;
each follows the bits of its mask along the operands, and then uses what its handler does. -/
theorem perform_eq {slots : Slots} {inst : Instruction} (h : slots.Decoded inst)
    (below : List Frame) (f : Frame) (m : Memory) (stats : Stats) :
    perform f.pc slots (holding below f m stats) =
      some (outcome below f m stats
        (planned f m (f.pc + UInt32.ofNat inst.size) (Operation.ofInstruction inst))) := by
  obtain ⟨hholds, hsize, op, hop, hfit⟩ := h
  obtain ⟨opcode, operands⟩ := inst
  obtain rfl : slots.opcode = opcode := hholds.opcode
  have hperforms : slots.Performs operands := by
    cases op with
    | math => exact performs_math hholds hop hfit
    | mathConst => exact performs_mathConst hholds hop hfit
    | branch => exact performs_branch hholds hop hfit
    | invoke => exact performs_invoke hholds hop hfit
    | «return» => exact performs_return hholds hop hfit
    | entryMarker => exact performs_entryMarker hholds hop hfit
    | branchConst => exact performs_branchConst hholds hop hfit
    | increment => exact performs_increment hholds hop hfit
    | decrement => exact performs_decrement hholds hop hfit
    | loadPool =>
        exact performs_of_unsupported hholds hop rfl (by simp only [Operation.ofInstruction, hop])
    | memory => exact performs_memory hholds hop hfit
    | memoryConst => exact performs_memoryConst hholds hop hfit
    | convert => exact performs_convert hholds hop hfit
  rw [← hsize]
  exact hperforms below f m stats

end RegisterVM
