import RegisterVM.Proofs.CheckedFetch
import RegisterVM.Proofs.Step

/-!
# Entering and leaving with every access checked

Frames kept outermost first in an array. Entering one and leaving one copies parts of register files
by index and looks at the ends of the array, and gives nothing when an index is out of range. None
is (`enterFrame?_eq`, `leaveFrame?_eq`), and what is copied is what a processor passes on and back.
-/

namespace RegisterVM

/-! ### Frames by index -/

/-- Copies as much of `source` as fits over the part of an array from `start` up to `stop`. What
`source` does not reach keeps its value, as with a copy into a longer array. -/
def copyOver? {n : Nat} (xs : Vector Int32 n) (start stop : Nat) (source : List Int32) :
    Option (Vector Int32 n) :=
  if start ≤ stop ∧ stop ≤ n then
    some (.ofFn fun i =>
      if start ≤ i.val ∧ i.val < stop then source.getD (i.val - start) xs[i] else xs[i])
  else none

/-- The first registers of a frame that is entered on top of others: zeros, or the globals of the
caller with the pool that the caller asked for. -/
def inheritFrom? (frames : List Frame) : Option RegisterFile :=
  if frames.length = 0 then return .replicate _ 0
  else do
    let caller ← frames[frames.length - 1]?
    let globals ← slice? caller.registers.toList 0 Register.localBase
    let registers ← copyOver? (.replicate _ 0) 0 Register.localBase globals
    set? registers Register.pool.val (← caller.registers[Register.nextPool.val]?)

/-- The arguments that registers can take. The others are only counted, and nobody passes them
on. -/
def fitting? (arguments : List Int32) : Option (List Int32) :=
  if Frame.argumentRoom < arguments.length then slice? arguments 0 Frame.argumentRoom
  else some arguments

/-- Enters a frame on top of others. -/
def enterFrame? (frames : List Frame) (pc : UInt32) (arguments : List Int32) (ticket : Option Nat) :
    Option (List Frame) := do
  let inherited ← inheritFrom? frames
  let filled ← copyOver? inherited Register.argumentBase registerCount (← fitting? arguments)
  let registers ← set? filled Register.zero.val 0
  let spilled := arguments.length - Frame.argumentRoom
  return frames ++ [{ registers, pc, entry := pc, last := pc, spilled, ticket }]

/-- Passes the globals of a frame that was left back to the registers of its caller. The pool of the
caller is put aside first, since copying overwrites it. -/
def passBack? (caller callee : RegisterFile) : Option RegisterFile := do
  let pool ← caller[Register.pool.val]?
  let globals ← slice? callee.toList 0 Register.localBase
  let copied ← copyOver? caller 0 Register.localBase globals
  set? (← set? copied Register.pool.val pool) Register.nextPool.val 0

/-- Leaves the last frame: that frame, and the others with its globals passed back. The outermost
frame has nobody below it, and is told apart by the number of frames. -/
def leaveFrame? (frames : List Frame) : Option (Frame × List Frame) := do
  let was ← frames[frames.length - 1]?
  let below ← slice? frames 0 (frames.length - 1)
  if frames.length = 1 then return (was, below)
  else
    let now ← below[frames.length - 2]?
    let registers ← passBack? now.registers was.registers
    return (was, below.dropLast ++ [{ now with registers }])

/-! ### What the indices find -/

theorem set?_eq {α : Type} {n i : Nat} (h : i < n) (xs : Vector α n) (a : α) :
    set? xs i a = some (xs.set i a h) := dif_pos h

theorem copyOver?_eq {n start stop : Nat} (hstart : start ≤ stop) (hstop : stop ≤ n)
    (xs : Vector Int32 n) (source : List Int32) :
    copyOver? xs start stop source = some (.ofFn fun i =>
      if start ≤ i.val ∧ i.val < stop then source.getD (i.val - start) xs[i] else xs[i]) :=
  if_pos ⟨hstart, hstop⟩

/-- The globals of a register file, taken as a slice. -/
theorem slice?_globals (registers : RegisterFile) :
    slice? registers.toList 0 Register.localBase =
      some (registers.toList.take Register.localBase) := by
  rw [slice?_eq (by decide) (by rw [Vector.length_toList]; decide), List.drop_zero]

/-- Copying the globals of one register file over those of another. -/
theorem copyGlobals_eq (into source : RegisterFile) :
    copyOver? into 0 Register.localBase (source.toList.take Register.localBase) =
      some (.ofFn fun i => if i.val < Register.localBase then source.get i else into.get i) := by
  rw [copyOver?_eq (Nat.zero_le _) (by decide)]
  refine congrArg some (congrArg Vector.ofFn (funext fun i => ?_))
  by_cases hi : i.val < Register.localBase
  · rw [if_pos ⟨Nat.zero_le _, hi⟩, if_pos hi, Nat.sub_zero, List.getD_eq_getElem?_getD,
      List.getElem?_take_of_lt hi, Vector.getElem?_toList, Vector.getElem?_eq_getElem i.isLt]
    rfl
  · rw [if_neg fun h => hi h.2, if_neg hi]
    rfl

/-- What a register inherits: nothing from nobody, and from a caller if it is global, with the pool
taken from the next pool. It is the value at one index, which is how the two sides are compared. -/
def inherited (caller : Option RegisterFile) (i : Register) : Int32 :=
  caller.elim 0 fun registers =>
    if i = Register.pool then registers.get Register.nextPool
    else if i.val < Register.localBase then registers.get i
    else 0

theorem inheritFrom?_eq (frames : List Frame) :
    inheritFrom? frames = some (.ofFn (inherited (frames.getLast?.map Frame.registers))) := by
  unfold inheritFrom?
  rw [← List.getLast?_eq_getElem?]
  cases hlast : frames.getLast? with
  | none =>
      rw [List.getLast?_eq_none_iff.mp hlast, if_pos List.length_nil]
      refine congrArg some ?_
      ext i hi
      simp [inherited]
  | some caller =>
      have hne : frames.length ≠ 0 := by
        intro hlength
        rw [List.length_eq_zero_iff.mp hlength] at hlast
        cases hlast
      have hpool : caller.registers[Register.nextPool.val]? =
          some caller.registers[Register.nextPool] :=
        Vector.getElem?_eq_getElem Register.nextPool.isLt
      rw [if_neg hne]
      simp only [Option.bind_eq_bind, Option.bind_some, slice?_globals, hpool, copyGlobals_eq,
        set?_eq Register.pool.isLt, Option.map_some, Option.some.injEq]
      ext i hi
      rw [Vector.getElem_set, Vector.getElem_ofFn, Vector.getElem_ofFn, inherited, Option.elim_some]
      by_cases hi' : (⟨i, hi⟩ : Register) = Register.pool
      · rw [if_pos hi', if_pos (congrArg Fin.val hi').symm]
        rfl
      · rw [if_neg hi', if_neg fun h => hi' (Fin.ext h.symm)]
        simp

theorem fitting?_eq (arguments : List Int32) :
    fitting? arguments = some (arguments.take Frame.argumentRoom) := by
  unfold fitting?
  by_cases hroom : Frame.argumentRoom < arguments.length
  · rw [if_pos hroom, slice?_eq (Nat.zero_le _) (Nat.le_of_lt hroom), List.drop_zero]
  · rw [if_neg hroom, List.take_of_length_le (Nat.le_of_not_lt hroom)]

theorem enteredRegisters_get (caller : Option RegisterFile) (arguments : List Int32)
    (i : Register) :
    (Frame.enteredRegisters caller arguments).get i =
      if i = Register.zero then 0
      else if Register.argumentBase ≤ i.val then
        arguments.toArray.getD (i.val - Register.argumentBase) (inherited caller i)
      else inherited caller i := by
  cases caller with
  | none => exact Vector.getElem_ofFn i.isLt
  | some registers => exact Vector.getElem_ofFn i.isLt

/-- Entering by index puts a frame on top as entering does. The copies overlap, arguments over
globals and zero over both, and in that order each register ends with what `Frame.enter` gives
it. -/
theorem enterFrame?_eq (frames : List Frame) (pc : UInt32) (arguments : List Int32)
    (ticket : Option Nat) :
    enterFrame? frames pc arguments ticket =
      some (frames ++ [Frame.enter (frames.getLast?.map Frame.registers) pc arguments ticket]) := by
  unfold enterFrame?
  simp only [inheritFrom?_eq, fitting?_eq, Option.bind_eq_bind, Option.bind_some,
    copyOver?_eq (show Register.argumentBase ≤ registerCount by decide) (Nat.le_refl _),
    set?_eq Register.zero.isLt, Option.pure_def, Frame.enter]
  refine congrArg (fun registers => some (frames ++ [Frame.mk registers pc pc pc 0 _ ticket])) ?_
  ext i hi
  refine Eq.trans ?_ (enteredRegisters_get _ arguments ⟨i, hi⟩).symm
  rw [Vector.getElem_set, Vector.getElem_ofFn]
  have hinherited : ∀ caller, (Vector.ofFn (inherited caller))[(⟨i, hi⟩ : Register)] =
      inherited caller ⟨i, hi⟩ := fun caller => Vector.getElem_ofFn hi
  by_cases hzero : (⟨i, hi⟩ : Register) = Register.zero
  · rw [if_pos hzero, if_pos (congrArg Fin.val hzero).symm]
  · rw [if_neg hzero, if_neg fun h => hzero (Fin.ext h.symm), hinherited]
    by_cases hargument : Register.argumentBase ≤ i
    · have hroom : i - Register.argumentBase < Frame.argumentRoom :=
        Nat.sub_lt_sub_right hargument hi
      rw [if_pos ⟨hargument, hi⟩, if_pos hargument, List.getD_eq_getElem?_getD,
        List.getElem?_take_of_lt hroom, Array.getD_eq_getD_getElem?, List.getElem?_toArray]
    · rw [if_neg fun h => hargument h.1, if_neg hargument]

theorem passBack?_eq (caller callee : RegisterFile) :
    passBack? caller callee = some (Frame.returnedRegisters caller callee) := by
  have hpool : caller[Register.pool.val]? = some caller[Register.pool] :=
    Vector.getElem?_eq_getElem Register.pool.isLt
  unfold passBack?
  simp only [hpool, slice?_globals, copyGlobals_eq, set?_eq Register.pool.isLt,
    set?_eq Register.nextPool.isLt, Option.bind_eq_bind, Option.bind_some, Option.some.injEq]
  ext i hi
  rw [Vector.getElem_set, Vector.getElem_set, Vector.getElem_ofFn, Frame.returnedRegisters,
    Vector.getElem_ofFn]
  by_cases hnext : (⟨i, hi⟩ : Register) = Register.nextPool
  · rw [if_pos hnext, if_pos (congrArg Fin.val hnext).symm]
  · rw [if_neg hnext, if_neg fun h => hnext (Fin.ext h.symm)]
    by_cases hi' : (⟨i, hi⟩ : Register) = Register.pool
    · rw [if_pos hi', if_pos (congrArg Fin.val hi').symm, hi']
    · rw [if_neg hi', if_neg fun h => hi' (Fin.ext h.symm)]
      rfl

section

variable (below : List Frame) (f : Frame)

theorem getElem?_last : (below ++ [f])[(below ++ [f]).length - 1]? = some f := by
  rw [← List.getLast?_eq_getElem?, List.getLast?_concat]

theorem slice?_below : slice? (below ++ [f]) 0 ((below ++ [f]).length - 1) = some below := by
  rw [slice?_eq (Nat.zero_le _) (Nat.sub_le _ _), List.length_append, List.length_singleton,
    Nat.add_sub_cancel, List.take_left, List.drop_zero]

/-- Leaving by index resumes the frame below as leaving does. -/
theorem leaveFrame?_eq (caller : Frame) :
    leaveFrame? (below ++ [caller] ++ [f]) = some (f, below ++ [caller.resume f]) := by
  have hone : (below ++ [caller] ++ [f]).length ≠ 1 := by simp
  have htwo : (below ++ [caller])[(below ++ [caller] ++ [f]).length - 2]? = some caller := by
    rw [show (below ++ [caller] ++ [f]).length - 2 = (below ++ [caller]).length - 1 by simp]
    exact getElem?_last below caller
  unfold leaveFrame?
  rw [getElem?_last, slice?_below]
  simp only [Option.bind_eq_bind, Option.bind_some, if_neg hone, htwo, passBack?_eq,
    List.dropLast_concat]
  rfl

end

end RegisterVM
