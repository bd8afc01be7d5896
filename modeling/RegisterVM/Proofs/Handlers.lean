import RegisterVM.Proofs.CheckedFrames

/-!
# Handlers that write as they go

Instructions executed from a reused record by handlers that stand in a table. A handler works in
place: it changes registers, frames, counts and memory one after the other, and where it refuses, in
the middle of its work, it leaves behind what has become of them by then. It takes operands out of
the record and words out of the register file by index, and gives nothing when an index is out of
range.

`carryOut_atomic` says that a refusal leaves nothing behind: whatever the record holds, each point
at which a handler can refuse comes before all its writes. The argument follows the text of the
handlers. What only reads may refuse at any time, what cannot refuse may write at any time, and a
handler is the first followed by the second.
-/

namespace RegisterVM

/-! ### Registers by index -/

/-- The word at an index of a register file. An index is a signed word, and a negative one finds
nothing. -/
def registerAt? (registers : RegisterFile) (v : Int32) : Option Int32 :=
  if 0 ≤ v.toInt then registers[v.toInt.toNat]? else none

/-- The register file with the word at an index replaced. -/
def setRegisterAt? (registers : RegisterFile) (v word : Int32) : Option RegisterFile :=
  if 0 ≤ v.toInt then set? registers v.toInt.toNat word else none

/-- Whether an operand names a register. It is asked of the unsigned value, so that a negative
operand is too large. -/
def namesRegister (v : Int32) : Bool := v.toUInt32.toNat < registerCount

/-! ### Working in place -/

/-- What a handler works on: all that an instruction can change. It is passed on and given back even
where the instruction is refused. -/
structure Workspace where
  /-- The active frames, outermost first. -/
  frames : List Frame
  /-- Where among them the frame stands that the instruction is executed in. -/
  hand : Nat
  /-- That frame, once it has been left: it is then no longer among the active ones. -/
  left : Option Frame := none
  memory : Memory
  stats : Stats

namespace Workspace

/-- The frame that the instruction is executed in. -/
def frame? (w : Workspace) : Option Frame := w.left.or w.frames[w.hand]?

/-- Changes the frame that the instruction is executed in. A frame that has been left is changed as
well, for the host may hold it. -/
def put (w : Workspace) (f : Frame) : Workspace :=
  if w.left.isSome then { w with left := some f } else { w with frames := w.frames.set w.hand f }

end Workspace

/-- A piece of work. It ends with a value or with a refusal, and either way with what has become of
the workspace; it does not end where an index is out of range. The workspace stands outside the
refusal, so a piece of work that wrote before it refused would show it. -/
def Handling (α : Type) : Type := Workspace → Option (Except Refusal α × Workspace)

namespace Handling

/-- One piece of work after the other. A refusal ends all, and undoes nothing. -/
instance : Monad Handling where
  pure a := fun w => some (.ok a, w)
  bind x f := fun w =>
    match x w with
    | none => none
    | some (.error refusal, w) => some (.error refusal, w)
    | some (.ok a, w) => f a w

variable {α β : Type}

/-- Looks something up that may be out of range. -/
def index (find : Workspace → Option α) : Handling α := fun w => (find w).map fun a => (.ok a, w)

/-- Asks for something that may be refused. -/
def ask (question : Workspace → Except Refusal α) : Handling α := fun w => some (question w, w)

/-- Changes the workspace. -/
def change (next : Workspace → Option Workspace) : Handling Unit :=
  fun w => (next w).map fun w => (.ok (), w)

/-- Refuses. -/
def refusing (refusal : Refusal) : Handling α := ask fun _ => .error refusal

/-- The word in register `v`. -/
def register (v : Int32) : Handling Int32 := index fun w => do registerAt? (← w.frame?).registers v

/-- Writes a word to register `v`. -/
def setRegister (v word : Int32) : Handling Unit := change fun w => do
  let f ← w.frame?
  return w.put { f with registers := ← setRegisterAt? f.registers v word }

/-- Lets the frame go on at an address. -/
def setPc (pc : UInt32) : Handling Unit := change fun w => do return w.put { ← w.frame? with pc }

/-- Counts an event. -/
def count (event : Stats → Stats) : Handling Unit :=
  change fun w => some { w with stats := event w.stats }

/-- Enters a frame on top of the active ones. -/
def enter (target : UInt32) (arguments : List Int32) : Handling Unit := change fun w => do
  return { w with frames := ← enterFrame? w.frames target arguments none }

/-- Leaves the innermost frame. It is the frame in hand unless a frame was entered on top of it,
which no instruction does before it leaves. -/
def leave : Handling Unit := change fun w => do
  let (was, frames) ← leaveFrame? w.frames
  return { w with frames, left := if w.hand + 1 = w.frames.length then some was else w.left }

/-- The number in the `width` bytes from an address on. -/
def load (address : UInt32) (width : Nat) : Handling Nat :=
  ask fun w => (w.memory.readNat address width).mapError (refuse address)

/-- Writes bytes from an address on: first the check, then the bytes. -/
def store (address : UInt32) (bytes : List UInt8) : Handling Unit := do
  ask fun w => (w.memory.check .write address bytes.length).mapError (refuse address)
  change fun w => some { w with memory := w.memory.poke address bytes }

end Handling

namespace Slots

/-- Operand `i`. -/
def argument (slots : Slots) (i : Nat) : Handling Int32 := .index fun _ => slots.args[i]?

/-- The word in the register that operand `i` names. -/
def register (slots : Slots) (i : Nat) : Handling Int32 := do .register (← slots.argument i)

/-- Writes a word to the register that operand `i` names. -/
def setRegister (slots : Slots) (i : Nat) (word : Int32) : Handling Unit := do
  .setRegister (← slots.argument i) word

/-- Whether the opcode is one of those that take a constant in place of a register. -/
def hasConstant (slots : Slots) : Bool := 128 ≤ slots.opcode.toNat

/-- The value of operand `i`, which is a constant or names a register. -/
def source (slots : Slots) (i : Nat) : Handling Int32 :=
  if slots.hasConstant then slots.argument i else slots.register i

/-- Where the instruction after one at `pc` stands. -/
def next (slots : Slots) (pc : UInt32) : UInt32 := pc + UInt32.ofNat slots.size

end Slots

/-! ### Handlers -/

/-- A handler: executes the instruction at an address, and tells where its frame goes on. -/
abbrev Handler := UInt32 → Slots → Handling UInt32

/-- Arithmetic. -/
def runMath : Handler := fun pc slots => do
  let left ← slots.register 0
  let right ← slots.source 1
  match (MathOp.ofBits slots.opcode.toNat).apply left right with
  | none => .refusing (.divisionByZero, 0)
  | some v => do
      slots.setRegister 2 v
      return slots.next pc

/-- Branches on two registers. -/
def runBranch : Handler := fun pc slots => do
  let left ← slots.register 0
  let right ← slots.register 1
  if (Comparison.ofBits slots.opcode.toNat).holds left right then do
    let distance ← slots.argument 2
    return pc + distance.toUInt32
  else return slots.next pc

/-- Branches on equality with a constant. -/
def runBranchConst : Handler := fun pc slots => do
  let left ← slots.register 0
  let right ← slots.argument 1
  if left = right then do
    let distance ← slots.argument 2
    return pc + distance.toUInt32
  else return slots.next pc

/-- The words in the registers of a list, in order. -/
def registerWords : List Int32 → Handling (List Int32)
  | [] => return []
  | v :: vs => do
      let word ← .register v
      let words ← registerWords vs
      return word :: words

/-- Calls. The caller is made to go on after the call before the frame is entered, and all arguments
are read before that. The target is read after the program counter was changed, which reading does
not notice. -/
def runInvoke : Handler := fun pc slots => do
  let arguments ← registerWords slots.list
  Handling.setPc (slots.next pc)
  let target ← slots.register 0
  Handling.enter target.toUInt32 arguments
  Handling.count fun stats => { stats with invokes := stats.invokes + 1 }
  return slots.next pc

/-- Returns. -/
def runReturn : Handler := fun pc slots => do
  Handling.leave
  Handling.count fun stats => { stats with returns := stats.returns + 1 }
  return slots.next pc

/-- Entry markers. -/
def runMarker : Handler := fun pc slots => return slots.next pc

/-- Reads a word, changes it and writes it back; tells the new word. The write has its own check, so
a word that may only be read is refused here and not before. -/
def changeWord (address : UInt32) (f : UInt32 → UInt32) : Handling UInt32 := do
  let n ← Handling.load address 4
  Handling.store address (toBigEndian 4 (f (UInt32.ofNat n)).toNat)
  return f (UInt32.ofNat n)

/-- Counts an atomic operation. -/
def countAtomic : Handling Unit := .count fun stats => { stats with atomics := stats.atomics + 1 }

/-- Atomic increments. -/
def runIncrement : Handler := fun pc slots => do
  let base ← slots.register 0
  let offset ← slots.argument 1
  let _ ← changeWord (base + offset).toUInt32 (· + 1)
  countAtomic
  return slots.next pc

/-- Atomic decrements. -/
def runDecrement : Handler := fun pc slots => do
  let base ← slots.register 1
  let offset ← slots.argument 2
  let v ← changeWord (base + offset).toUInt32 (· - 1)
  slots.setRegister 0 v.toInt32
  countAtomic
  return slots.next pc

/-- Puts a value from memory into register `v`, or into the pair that starts there. -/
def loadInto (type : DataType) (v : Int32) (address : UInt32) : Handling Unit := do
  let n ← Handling.load address type.width
  if type.isWide then do
    Handling.setRegister v (Int32.ofNat (n >>> 32))
    Handling.setRegister (v + 1) (Int32.ofNat n)
  else Handling.setRegister v (type.extend n)

/-- Writes register `v`, or the pair that starts there, to memory. -/
def storeFrom (type : DataType) (v : Int32) (address : UInt32) : Handling Unit := do
  let first ← Handling.register v
  if type.isWide then do
    let second ← Handling.register (v + 1)
    Handling.store address
      (toBigEndian 4 first.toUInt32.toNat ++ toBigEndian 4 second.toUInt32.toNat)
  else Handling.store address (toBigEndian type.width first.toUInt32.toNat)

/-- Loads and stores. A wide value takes the register after the one named too; that this exists is
checked before memory is touched. -/
def runMemory : Handler := fun pc slots => do
  let offset ← slots.source 2
  let base ← slots.register 1
  let v ← slots.argument 0
  let type := DataType.ofBits slots.opcode.toNat
  if type.isWide ∧ (registerCount : Int) ≤ (v + 1).toInt then .refusing (.invalidRegister, 0)
  else do
    match Direction.ofBits slots.opcode.toNat with
    | .load => loadInto type v (base + offset).toUInt32
    | .store => storeFrom type v (base + offset).toUInt32
    return slots.next pc

/-- Conversions. -/
def runConvert : Handler := fun pc slots => do
  let v ← slots.register 0
  slots.setRegister 1
    (convertValue (.ofBits (slots.opcode.toNat / 4)) (.ofBits slots.opcode.toNat) v)
  return slots.next pc

/-- The handlers by family; none for operations that a processor does not have. Families that differ
in the source of an operand share a handler. -/
def handlerTable : Vector (Option Handler) 20 :=
  #v[none, some runMath, none, none, none, some runBranch, some runInvoke, some runReturn,
    some runMarker, some runBranchConst, some runIncrement, some runDecrement, none, some runMemory,
    some runMath, none, none, none, some runMemory, some runConvert]

/-- Which operands name registers, by family: bit `i` stands for operand `i`. A bit too few would
let an index out of range through, and a bit too many would refuse a constant. -/
def registerMasks : Vector Nat 20 :=
  #v[0, 7, 7, 7, 7, 3, 1, 0, 0, 1, 1, 3, 2, 7, 5, 5, 5, 5, 3, 3]

/-- Checks the operands that `mask` names, from operand `i` on, and then the register list. It stops
at the first operand that names no register. -/
def Slots.checkFrom (slots : Slots) (mask i : Nat) : Option Bool :=
  if mask = 0 then some (slots.list.all namesRegister)
  else if mask % 2 = 1 then do
    let v ← slots.args[i]?
    if namesRegister v then slots.checkFrom (mask / 2) (i + 1) else return false
  else slots.checkFrom (mask / 2) (i + 1)
termination_by mask

/-- Runs a handler once the operands that `mask` names, from operand `i` on, have been checked. -/
def runChecked (run : Handler) (mask i : Nat) : Handler := fun pc slots => do
  if ← .index fun _ => slots.checkFrom mask i then run pc slots else .refusing (.invalidRegister, 0)

/-- Executes the instruction in the record: looks its handler up, checks its registers and runs
it. -/
def perform : Handler := fun pc slots => do
  match ← Handling.index fun _ => handlerTable[slots.family]? with
  | none => .refusing (.unsupported, 0)
  | some run => do
      let mask ← Handling.index fun _ => registerMasks[slots.family]?
      runChecked run mask 0 pc slots

/-- Executes the instruction in the record and lets its frame go on. -/
def carryOut (pc : UInt32) (slots : Slots) : Handling Unit := do
  let next ← perform pc slots
  Handling.setPc next
  Handling.count fun stats => { stats with steps := stats.steps + 1 }

/-! ### Refusals come before writes -/

namespace Handling

variable {α β : Type}

/-- Work that leaves the workspace alone, however it ends. It may refuse at any time. -/
def Reads (x : Handling α) : Prop := ∀ ⦃w result w'⦄, x w = some (result, w') → w' = w

/-- Work that does not refuse. It may write at any time, and an index out of range is not a
refusal. -/
def Accepts (x : Handling α) : Prop := ∀ ⦃w refusal w'⦄, x w ≠ some (.error refusal, w')

/-- Work that leaves the workspace alone where it refuses. Work that reads and work that accepts are
both of this kind, and so is the first followed by the second; the reverse order is not. -/
def Atomic (x : Handling α) : Prop := ∀ ⦃w refusal w'⦄, x w = some (.error refusal, w') → w' = w

theorem Reads.atomic {x : Handling α} (h : x.Reads) : x.Atomic := fun _ _ _ hx => h hx

theorem Accepts.atomic {x : Handling α} (h : x.Accepts) : x.Atomic := fun _ _ _ hx => (h hx).elim

theorem bind_apply (x : Handling α) (f : α → Handling β) (w : Workspace) :
    (x >>= f) w =
      match x w with
      | none => none
      | some (.error refusal, w) => some (.error refusal, w)
      | some (.ok a, w) => f a w := rfl

/-- All that work in two parts can come to. The rules for `Reads`, `Accepts` and `Atomic` are read
off it. -/
theorem bind_eq_some {x : Handling α} {f : α → Handling β} {w : Workspace}
    {out : Except Refusal β × Workspace} (h : (x >>= f) w = some out) :
    (∃ refusal w', x w = some (.error refusal, w') ∧ out = (.error refusal, w')) ∨
      ∃ a w', x w = some (.ok a, w') ∧ f a w' = some out := by
  rw [bind_apply] at h
  split at h
  · cases h
  · rename_i refusal w' hx
    cases h
    exact .inl ⟨refusal, w', hx, rfl⟩
  · rename_i a w' hx
    exact .inr ⟨a, w', hx, h⟩

section

variable {x : Handling α} {f : α → Handling β}

theorem Reads.bind (hx : x.Reads) (hf : ∀ a, (f a).Reads) : (x >>= f).Reads := by
  intro w result w' h
  obtain ⟨refusal, w₁, hfirst, hout⟩ | ⟨a, w₁, hfirst, hrest⟩ := bind_eq_some h
  · cases hout
    exact hx hfirst
  · rw [hf a hrest, hx hfirst]

theorem Accepts.bind (hx : x.Accepts) (hf : ∀ a, (f a).Accepts) : (x >>= f).Accepts := by
  intro w refusal w' h
  obtain ⟨refusal, w₁, hfirst, -⟩ | ⟨a, w₁, -, hrest⟩ := bind_eq_some h
  · exact hx hfirst
  · exact hf a hrest

/-- What comes after reading may still refuse before it writes. This is the rule that walks through
the front of a handler. -/
theorem Reads.then (hx : x.Reads) (hf : ∀ a, (f a).Atomic) : (x >>= f).Atomic := by
  intro w refusal w' h
  obtain ⟨refusal, w₁, hfirst, hout⟩ | ⟨a, w₁, hfirst, hrest⟩ := bind_eq_some h
  · cases hout
    exact hx hfirst
  · rw [hf a hrest, hx hfirst]

/-- What comes after a write may not refuse. This is the rule for the end of a handler. -/
theorem Atomic.then (hx : x.Atomic) (hf : ∀ a, (f a).Accepts) : (x >>= f).Atomic := by
  intro w refusal w' h
  obtain ⟨refusal, w₁, hfirst, hout⟩ | ⟨a, w₁, -, hrest⟩ := bind_eq_some h
  · cases hout
    exact hx hfirst
  · exact (hf a hrest).elim

end

/-! What the pieces of work do. -/

theorem reads_pure (a : α) : (pure a : Handling α).Reads := by
  rintro w result w' ⟨⟩
  rfl

theorem accepts_pure (a : α) : (pure a : Handling α).Accepts := by
  rintro w refusal w' ⟨⟩

theorem reads_index (find : Workspace → Option α) : (index find).Reads := by
  intro w result w' h
  obtain ⟨a, -, hout⟩ := Option.map_eq_some_iff.mp h
  cases hout
  rfl

theorem accepts_index (find : Workspace → Option α) : (index find).Accepts := by
  intro w refusal w' h
  obtain ⟨a, -, hout⟩ := Option.map_eq_some_iff.mp h
  cases hout

theorem reads_ask (question : Workspace → Except Refusal α) : (ask question).Reads := by
  rintro w result w' ⟨⟩
  rfl

theorem accepts_change (next : Workspace → Option Workspace) : (change next).Accepts := by
  intro w refusal w' h
  obtain ⟨a, -, hout⟩ := Option.map_eq_some_iff.mp h
  cases hout

/-- What is looked up in a table is one of its entries. -/
theorem atomic_lookup {found : Option α} {f : α → Handling β}
    (h : ∀ a, found = some a → (f a).Atomic) : ((index fun _ => found) >>= f).Atomic := by
  intro w refusal w' hbind
  obtain ⟨refusal, w₁, hfirst, -⟩ | ⟨a, w₁, hfirst, hrest⟩ := bind_eq_some hbind
  · exact (accepts_index _ hfirst).elim
  · obtain ⟨a, hfound, hout⟩ := Option.map_eq_some_iff.mp hfirst
    cases hout
    exact h a hfound hrest

/-- A write that is refused is refused by the check before it, so it is atomic although it both asks
and writes. -/
theorem atomic_store (address : UInt32) (bytes : List UInt8) : (store address bytes).Atomic :=
  (reads_ask _).then fun _ => (accepts_change _).atomic

end Handling

open Handling

section

variable (pc : UInt32) (slots : Slots)

theorem Slots.reads_register (i : Nat) : (slots.register i).Reads :=
  (reads_index _).bind fun _ => reads_index _

theorem Slots.accepts_register (i : Nat) : (slots.register i).Accepts :=
  (accepts_index _).bind fun _ => accepts_index _

theorem Slots.accepts_setRegister (i : Nat) (word : Int32) : (slots.setRegister i word).Accepts :=
  (accepts_index _).bind fun _ => accepts_change _

theorem Slots.reads_source (i : Nat) : (slots.source i).Reads := by
  unfold Slots.source
  split
  · exact reads_index _
  · exact slots.reads_register i

theorem reads_registerWords (list : List Int32) : (registerWords list).Reads := by
  induction list with
  | nil => exact reads_pure _
  | cons v vs ih => exact (reads_index _).bind fun _ => ih.bind fun _ => reads_pure _

theorem runMath_atomic : (runMath pc slots).Atomic := by
  refine (slots.reads_register 0).then fun left => (slots.reads_source 1).then fun right => ?_
  cases (MathOp.ofBits slots.opcode.toNat).apply left right with
  | none => exact (reads_ask _).atomic
  | some v => exact ((slots.accepts_setRegister 2 v).bind fun _ => accepts_pure _).atomic

theorem runBranch_atomic : (runBranch pc slots).Atomic := by
  refine (slots.reads_register 0).then fun left => (slots.reads_register 1).then fun right => ?_
  split
  · exact ((reads_index _).bind fun _ => reads_pure _).atomic
  · exact (reads_pure _).atomic

theorem runBranchConst_atomic : (runBranchConst pc slots).Atomic := by
  refine (slots.reads_register 0).then fun left => (reads_index _).then fun right => ?_
  split
  · exact ((reads_index _).bind fun _ => reads_pure _).atomic
  · exact (reads_pure _).atomic

/-- A call refuses only while it reads its arguments. The target register is read after the first
write, but an index cannot refuse. -/
theorem runInvoke_atomic : (runInvoke pc slots).Atomic := by
  refine (reads_registerWords _).then fun arguments => Accepts.atomic ?_
  -- from the first write on nothing refuses, also not the register that is read after it
  refine (accepts_change _).bind fun _ => (slots.accepts_register 0).bind fun target => ?_
  exact (accepts_change _).bind fun _ => (accepts_change _).bind fun _ => accepts_pure _

theorem runReturn_atomic : (runReturn pc slots).Atomic :=
  ((accepts_change _).bind fun _ => (accepts_change _).bind fun _ => accepts_pure _).atomic

/-- The word is written after it was read and after the check of the write: a word that may be read
but not written stays. -/
theorem changeWord_atomic (address : UInt32) (f : UInt32 → UInt32) :
    (changeWord address f).Atomic :=
  (reads_ask _).then fun _ => (atomic_store address _).then fun _ => accepts_pure _

theorem accepts_countAtomic : countAtomic.Accepts := by
  unfold countAtomic
  exact accepts_change _

theorem runIncrement_atomic : (runIncrement pc slots).Atomic := by
  refine (slots.reads_register 0).then fun base => (reads_index _).then fun offset => ?_
  refine (changeWord_atomic _ _).then fun _ => ?_
  exact accepts_countAtomic.bind fun _ => accepts_pure _

theorem runDecrement_atomic : (runDecrement pc slots).Atomic := by
  refine (slots.reads_register 1).then fun base => (reads_index _).then fun offset => ?_
  refine (changeWord_atomic _ _).then fun v =>
    (slots.accepts_setRegister 0 v.toInt32).bind fun _ => ?_
  exact accepts_countAtomic.bind fun _ => accepts_pure _

/-- A load writes registers, and only once it has read. So it does not matter which register is its
base. -/
theorem loadInto_atomic (type : DataType) (v : Int32) (address : UInt32) :
    (loadInto type v address).Atomic := by
  refine (reads_ask _).then fun n => Accepts.atomic ?_
  split
  · exact (accepts_change _).bind fun _ => accepts_change _
  · exact accepts_change _

theorem storeFrom_atomic (type : DataType) (v : Int32) (address : UInt32) :
    (storeFrom type v address).Atomic := by
  refine (reads_index _).then fun first => ?_
  split
  · exact (reads_index _).then fun second => atomic_store address _
  · exact atomic_store address _

theorem runMemory_atomic : (runMemory pc slots).Atomic := by
  refine (slots.reads_source 2).then fun offset => (slots.reads_register 1).then fun base => ?_
  refine (reads_index _).then fun v => ?_
  dsimp only
  -- the pair is checked before anything is read or written
  split
  · exact (reads_ask _).atomic
  · split
    · exact (loadInto_atomic _ v _).then fun _ => accepts_pure _
    · exact (storeFrom_atomic _ v _).then fun _ => accepts_pure _

theorem runConvert_atomic : (runConvert pc slots).Atomic := by
  refine (slots.reads_register 0).then fun v => Accepts.atomic ?_
  exact (slots.accepts_setRegister 1 _).bind fun _ => accepts_pure _

/-- Every handler in the table refuses before it writes. The table is gone through entry by entry,
so a handler that is put into it has to be shown atomic too. -/
theorem handler_atomic {run : Handler} (h : some run ∈ handlerTable.toList) :
    (run pc slots).Atomic := by
  simp only [handlerTable, Vector.toList_mk, List.mem_cons, List.not_mem_nil, Option.some.injEq,
    reduceCtorEq, false_or, or_false] at h
  rcases h with rfl | rfl | rfl | rfl | rfl | rfl | rfl | rfl | rfl | rfl | rfl | rfl
  · exact runMath_atomic pc slots
  · exact runBranch_atomic pc slots
  · exact runInvoke_atomic pc slots
  · exact runReturn_atomic pc slots
  · exact (reads_pure _).atomic
  · exact runBranchConst_atomic pc slots
  · exact runIncrement_atomic pc slots
  · exact runDecrement_atomic pc slots
  · exact runMemory_atomic pc slots
  · exact runMath_atomic pc slots
  · exact runMemory_atomic pc slots
  · exact runConvert_atomic pc slots

theorem runChecked_atomic {run : Handler} (h : (run pc slots).Atomic) (mask i : Nat) :
    (runChecked run mask i pc slots).Atomic := by
  refine (reads_index _).then fun named => ?_
  split
  · exact h
  · exact (reads_ask _).atomic

theorem perform_atomic : (perform pc slots).Atomic := by
  refine atomic_lookup fun entry hentry => ?_
  cases entry with
  | none => exact (reads_ask _).atomic
  | some run =>
      have hmem : some run ∈ handlerTable.toList := by
        rw [← Vector.getElem?_toList] at hentry
        exact List.mem_of_getElem? hentry
      exact (reads_index _).then fun mask =>
        runChecked_atomic pc slots (handler_atomic pc slots hmem) mask 0

/-- Whatever the record holds, an instruction that is refused leaves nothing behind. Nothing is
assumed of the record or of the workspace: it may never have been decoded, and its registers need
not exist. -/
theorem carryOut_atomic : (carryOut pc slots).Atomic :=
  (perform_atomic pc slots).then fun _ => (accepts_change _).bind fun _ => accepts_change _

end

end RegisterVM
