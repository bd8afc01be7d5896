import RegisterVM.Instruction.Assembler
import RegisterVM.Proofs.CompletedStep
import RegisterVM.Proofs.Encoding
import RegisterVM.Proofs.Lookup

/-!
# Assembled code

An assembler is used by a sequence of calls. Each call adds a run of bytes, and how many never
depends on the labels: a branch keeps two bytes for its distance. So where every call lands is known
before any label is resolved, and `places` says where. Resolving the branches replaces, place by
place, the bytes of a branch by those of the same branch with its distance; everything said about
the assembled code is read off that description.
-/

namespace RegisterVM

namespace Assembler

/-- A call to an assembler. Operands that name registers or hold offsets are given in 64 bits, of
which the low 32 are used. -/
inductive Call where
  | label (name : String)
  | raw (bytes : List UInt8)
  | emit (opcode : UInt8) (args : Nat → Int32) (longs : Nat → Int64) (list : List Int32)
      (wide : Nat → Bool)
  | math (op : Fin 16) (left right dest : Int64)
  | mathConst (op : Fin 16) (left : Int64) (constant : Int32) (dest : Int64)
  | branch (condition : Fin 8) (left right : Int64) (goal : String)
  | jump (goal : String)
  | branchConst (left : Int64) (constant : Int32) (goal : String)
  | invoke (target : Int64) (arguments : List Int64)
  | ret
  | entryMarker
  | increment (base offset : Int64)
  | decrement (dest base offset : Int64)
  | load (type : Fin 8) (dest base : Int64) (offset : Int32)
  | store (type : Fin 8) (source base : Int64) (offset : Int32)
  | loadIndexed (type : Fin 8) (dest base offset : Int64)
  | storeIndexed (type : Fin 8) (source base offset : Int64)
  | convert (sourceKind targetKind : UInt8) (source dest : Int64)

namespace Call

/-- The assembler after a call. What a call gives in 64 bits is cut to 32 here. -/
def apply (a : Assembler) : Call → Assembler
  | .label name => a.label name
  | .raw bytes => a.raw bytes
  | .emit opcode args longs list wide => a.emit (.ofPositions opcode args longs list wide)
  | .math op left right dest => a.math (UInt8.ofNat op) left.toInt32 right.toInt32 dest.toInt32
  | .mathConst op left constant dest =>
      a.mathConst (UInt8.ofNat op) left.toInt32 constant dest.toInt32
  | .branch condition left right goal =>
      a.branch (UInt8.ofNat condition) left.toInt32 right.toInt32 goal
  | .jump goal => a.jump goal
  | .branchConst left constant goal => a.branchConst left.toInt32 constant goal
  | .invoke target arguments => a.invoke target.toInt32 (arguments.map Int64.toInt32)
  | .ret => a.ret
  | .entryMarker => a.entryMarker
  | .increment base offset => a.increment base.toInt32 offset.toInt32
  | .decrement dest base offset => a.decrement dest.toInt32 base.toInt32 offset.toInt32
  | .load type dest base offset => a.load (UInt8.ofNat type) dest.toInt32 base.toInt32 offset
  | .store type source base offset => a.store (UInt8.ofNat type) source.toInt32 base.toInt32 offset
  | .loadIndexed type dest base offset =>
      a.loadIndexed (UInt8.ofNat type) dest.toInt32 base.toInt32 offset.toInt32
  | .storeIndexed type source base offset =>
      a.storeIndexed (UInt8.ofNat type) source.toInt32 base.toInt32 offset.toInt32
  | .convert sourceKind targetKind source dest =>
      a.convert sourceKind targetKind source.toInt32 dest.toInt32

/-- The label that a call binds. -/
def binds? : Call → Option String
  | .label name => some name
  | _ => none

/-- The label that a call branches to. -/
def target? : Call → Option String
  | .branch _ _ _ goal | .jump goal | .branchConst _ _ goal => some goal
  | _ => none

/-- An operand that stands in one byte if it can. -/
def number (v : Int64) : Operand := .number v.toInt32 false

/-- The instruction that a call asks for; one that branches to a label jumps by `distance`. Labels
and raw bytes ask for none. -/
def instruction? (distance : Int32) : Call → Option Instruction
  | .label _ | .raw _ => none
  | .emit opcode args longs list wide => some (.ofPositions opcode args longs list wide)
  | .math op left right dest =>
      some ⟨UInt8.ofNat (0x00 + op), [number left, number right, number dest]⟩
  | .mathConst op left constant dest =>
      some ⟨UInt8.ofNat (0x80 + op), [number left, .word constant, number dest]⟩
  | .branch condition left right _ =>
      some ⟨UInt8.ofNat (0x40 + condition), [number left, number right, .number distance true]⟩
  | .jump _ => some ⟨0x46, [number 0, number 0, .number distance true]⟩
  | .branchConst left constant _ =>
      some ⟨0x4B, [number left, .word constant, .number distance true]⟩
  | .invoke target arguments =>
      some ⟨0x48, [number target, .registers (arguments.map Int64.toInt32) false]⟩
  | .ret => some ⟨0x49, []⟩
  | .entryMarker => some ⟨0x4A, []⟩
  | .increment base offset => some ⟨0x4C, [number base, number offset]⟩
  | .decrement dest base offset => some ⟨0x4D, [number dest, number base, number offset]⟩
  | .load type dest base offset =>
      some ⟨UInt8.ofNat (0xD8 + type), [number dest, number base, .word offset]⟩
  | .store type source base offset =>
      some ⟨UInt8.ofNat (0xD0 + type), [number source, number base, .word offset]⟩
  | .loadIndexed type dest base offset =>
      some ⟨UInt8.ofNat (0x58 + type), [number dest, number base, number offset]⟩
  | .storeIndexed type source base offset =>
      some ⟨UInt8.ofNat (0x50 + type), [number source, number base, number offset]⟩
  | .convert sourceKind targetKind source dest =>
      some ⟨UInt8.ofNat (0xF0 + 4 * (sourceKind.toNat % 4) + targetKind.toNat % 4),
        [number source, number dest]⟩

/-- The branch of a call is taken in a frame: its registers exist and compare as asked. A call that
does not branch to a label is never taken. -/
def Taken (f : Frame) : Call → Prop
  | .branch condition left right _ =>
      ∃ l r : Register, left.toInt32 = Int32.ofNat l ∧ right.toInt32 = Int32.ofNat r ∧
        (Comparison.ofBits condition).holds (f.get l) (f.get r) = true
  | .jump _ => True
  | .branchConst left constant _ =>
      ∃ l : Register, left.toInt32 = Int32.ofNat l ∧ f.get l = constant
  | _ => False

end Call

/-- The assembler after some calls. -/
def assemble (calls : List Call) : Assembler := calls.foldl Call.apply {}

/-- The offset at which the `i`-th of some calls is made. Past the end it is where the code ends. -/
def offset (calls : List Call) (i : Nat) : Nat := (assemble (calls.take i)).position

/-! ### Opcode bytes

Setting the bits of a variant in the first byte of its family is adding its number, and the byte
names the operation that the helper is for. -/

section

open Opcode (ofByte?)

theorem byte_math : ∀ op : Fin 16, (0x00 : UInt8) ||| UInt8.ofNat op = UInt8.ofNat (0x00 + op) ∧
    ofByte? (UInt8.ofNat (0x00 + op)) = some (.math .integer (.ofBits op)) := by decide

theorem byte_mathConst : ∀ op : Fin 16,
    (0x80 : UInt8) ||| UInt8.ofNat op = UInt8.ofNat (0x80 + op) ∧
    ofByte? (UInt8.ofNat (0x80 + op)) = some (.mathConst .integer (.ofBits op)) := by decide

theorem byte_branch : ∀ c : Fin 8, (0x40 : UInt8) ||| UInt8.ofNat c = UInt8.ofNat (0x40 + c) ∧
    ofByte? (UInt8.ofNat (0x40 + c)) = some (.branch (.ofBits c)) := by decide

theorem byte_load : ∀ t : Fin 8, (0xD8 : UInt8) ||| UInt8.ofNat t = UInt8.ofNat (0xD8 + t) ∧
    ofByte? (UInt8.ofNat (0xD8 + t)) = some (.memoryConst .load (.ofBits t)) := by decide

theorem byte_store : ∀ t : Fin 8, (0xD0 : UInt8) ||| UInt8.ofNat t = UInt8.ofNat (0xD0 + t) ∧
    ofByte? (UInt8.ofNat (0xD0 + t)) = some (.memoryConst .store (.ofBits t)) := by decide

theorem byte_loadIndexed : ∀ t : Fin 8, (0x58 : UInt8) ||| UInt8.ofNat t = UInt8.ofNat (0x58 + t) ∧
    ofByte? (UInt8.ofNat (0x58 + t)) = some (.memory .load (.ofBits t)) := by decide

theorem byte_storeIndexed : ∀ t : Fin 8, (0x50 : UInt8) ||| UInt8.ofNat t = UInt8.ofNat (0x50 + t) ∧
    ofByte? (UInt8.ofNat (0x50 + t)) = some (.memory .store (.ofBits t)) := by decide

theorem byte_convert_low : ∀ s t : Fin 4,
    (0xF0 : UInt8) ||| (UInt8.ofNat s <<< 2) ||| UInt8.ofNat t = UInt8.ofNat (0xF0 + 4 * s + t) ∧
      ofByte? (UInt8.ofNat (0xF0 + 4 * s + t)) = some (.convert (.ofBits s) (.ofBits t)) := by
  decide

theorem byte_convert (s t : UInt8) :
    (0xF0 : UInt8) ||| ((s &&& 3) <<< 2) ||| (t &&& 3) =
        UInt8.ofNat (0xF0 + 4 * (s.toNat % 4) + t.toNat % 4) ∧
      ofByte? (UInt8.ofNat (0xF0 + 4 * (s.toNat % 4) + t.toNat % 4)) =
        some (.convert (.ofBits (s.toNat % 4)) (.ofBits (t.toNat % 4))) := by
  -- a kind is cut to its two low bits, so that four of each are left to look at
  have hlow (b : UInt8) : b &&& 3 = UInt8.ofNat (b.toNat % 4) := by
    apply UInt8.toNat_inj.mp
    rw [UInt8.toNat_and, UInt8.toNat_ofNat', Nat.mod_eq_of_lt (a := b.toNat % 4) (by omega)]
    exact Nat.and_two_pow_sub_one_eq_mod b.toNat 2
  rw [hlow, hlow]
  exact byte_convert_low ⟨s.toNat % 4, Nat.mod_lt _ (by decide)⟩
    ⟨t.toNat % 4, Nat.mod_lt _ (by decide)⟩

end

/-! ### Single calls -/

namespace Call

open Instruction (ofPositions)

/-- The operands that an assigned opcode takes from positions: one for each of its formats. -/
theorem ofPositions_eq {opcode : UInt8} {op : Opcode} (hop : Opcode.ofByte? opcode = some op)
    (args : Nat → Int32) (longs : Nat → Int64) (list : List Int32) (wide : Nat → Bool) :
    ofPositions opcode args longs list wide =
      ⟨opcode, op.formats.mapIdx fun i f =>
        Instruction.operandOf (args i) (longs i) list (wide i) f⟩ := by
  rw [ofPositions, Opcode.formatsOf_eq hop]

/-- The instruction that a helper emits, with the byte that its bits make up and the operation this
byte names. -/
theorem emitWords_eq {set sum : UInt8} {op : Opcode} (h : set = sum ∧ Opcode.ofByte? sum = some op)
    (a : Assembler) (args : List Int32) :
    a.emitWords set args = a.emit ⟨sum, op.formats.mapIdx fun i f =>
      Instruction.operandOf (args.getD i 0) 0 [] false f⟩ := by
  rw [emitWords, h.1, ofPositions_eq h.2]

/-- The assembler after a call that asks for an instruction. Every helper comes to this: it emits
the instruction, and a branch to a label leaves its site as well. -/
theorem apply_instruction {call : Call} {inst : Instruction} (h : call.instruction? 0 = some inst)
    (a : Assembler) :
    call.apply a = call.target?.elim (a.emit inst) fun goal =>
      { a.emit inst with
        sites := ⟨goal, (a.emit inst).position - 2, a.position⟩ :: (a.emit inst).sites } := by
  cases call with
  | label | raw => cases h
  | math op => cases h; exact emitWords_eq (byte_math op) a _
  | mathConst op => cases h; exact emitWords_eq (byte_mathConst op) a _
  | load type => cases h; exact emitWords_eq (byte_load type) a _
  | store type => cases h; exact emitWords_eq (byte_store type) a _
  | loadIndexed type => cases h; exact emitWords_eq (byte_loadIndexed type) a _
  | storeIndexed type => cases h; exact emitWords_eq (byte_storeIndexed type) a _
  | convert sourceKind targetKind =>
      cases h; exact emitWords_eq (byte_convert sourceKind targetKind) a _
  | branch condition =>
      cases h
      rw [apply, Assembler.branch, emitBranch, (byte_branch condition).1,
        ofPositions_eq (byte_branch condition).2]
      rfl
  | emit | jump | branchConst | invoke | ret | entryMarker | increment | decrement => cases h; rfl

theorem fits_of_ofByte? {opcode : UInt8} {op : Opcode} {operands : List Operand}
    (hop : Opcode.ofByte? opcode = some op) (h : Operand.FitAll op.formats operands) :
    Instruction.Fits ⟨opcode, operands⟩ := by
  rwa [Instruction.Fits, Opcode.formatsOf_eq hop]

/-- The operands of an instruction have the shapes that its opcode calls for. So the only way for
encoding to fail is a value that is out of range. -/
theorem fits_instruction {call : Call} {distance : Int32} {inst : Instruction}
    (h : call.instruction? distance = some inst) : inst.Fits := by
  cases call with
  | label | raw => cases h
  | emit => cases h; exact Instruction.fits_ofPositions ..
  | math op => cases h; exact fits_of_ofByte? (byte_math op).2 (by repeat constructor)
  | mathConst op => cases h; exact fits_of_ofByte? (byte_mathConst op).2 (by repeat constructor)
  | branch condition =>
      cases h; exact fits_of_ofByte? (byte_branch condition).2 (by repeat constructor)
  | load type => cases h; exact fits_of_ofByte? (byte_load type).2 (by repeat constructor)
  | store type => cases h; exact fits_of_ofByte? (byte_store type).2 (by repeat constructor)
  | loadIndexed type =>
      cases h; exact fits_of_ofByte? (byte_loadIndexed type).2 (by repeat constructor)
  | storeIndexed type =>
      cases h; exact fits_of_ofByte? (byte_storeIndexed type).2 (by repeat constructor)
  | convert s t => cases h; exact fits_of_ofByte? (byte_convert s t).2 (by repeat constructor)
  | jump | branchConst | invoke | ret | entryMarker | increment | decrement =>
      cases h; exact fits_of_ofByte? rfl (by repeat constructor)

/-- A branch to a label ends in its jump, which is wide. The width is fixed although the distance is
not known yet, and this is what makes patching possible. -/
theorem instruction?_of_target {call : Call} {goal : String} (h : call.target? = some goal) :
    ∃ opcode op f x g y, Opcode.ofByte? opcode = some op ∧ op.formats = [f, g, .jump] ∧
      ∀ distance, call.instruction? distance = some ⟨opcode, [x, y, .number distance true]⟩ := by
  cases call with
  | branch condition => exact ⟨_, _, _, _, _, _, (byte_branch condition).2, rfl, fun _ => rfl⟩
  | jump => exact ⟨0x46, .branch .always, _, _, _, _, by decide, rfl, fun _ => rfl⟩
  | branchConst => exact ⟨0x4B, .branchConst, _, _, _, _, by decide, rfl, fun _ => rfl⟩
  | _ => cases h

theorem isSome_instruction? {call : Call} {goal : String} (h : call.target? = some goal)
    (distance : Int32) : (call.instruction? distance).isSome = true := by
  obtain ⟨_, _, _, _, _, _, -, -, hshape⟩ := instruction?_of_target h
  rw [hshape distance]
  rfl

/-- Only a branch to a label depends on the distance. -/
theorem instruction?_of_target_none {call : Call} (h : call.target? = none) (distance : Int32) :
    call.instruction? distance = call.instruction? 0 := by
  cases call with
  | branch | jump | branchConst => cases h
  | _ => rfl

/-- Only a label binds a name. -/
theorem eq_label_of_binds {call : Call} {name : String} (h : call.binds? = some name) :
    call = .label name := by
  cases call with
  | label => cases h; rfl
  | _ => cases h

/-- A call that asks for an instruction binds no name. -/
theorem binds?_of_instruction {call : Call} {distance : Int32} {inst : Instruction}
    (h : call.instruction? distance = some inst) : call.binds? = none := by
  cases call with
  | label => cases h
  | _ => rfl

/-! ### The bytes of a call -/

/-- The bytes that a call gives as they are. -/
def verbatim : Call → List UInt8
  | .raw bytes => bytes
  | _ => []

/-- The bytes that a call adds; a branch to a label jumps by `distance`. A call that cannot be
encoded adds none. -/
def bytes (distance : Int32) (call : Call) : List UInt8 :=
  (call.instruction? distance).elim call.verbatim fun inst => inst.encode.toOption.getD []

theorem bytes_eq {call : Call} {distance : Int32} {inst : Instruction} {code : List UInt8}
    (h : call.instruction? distance = some inst) (hcode : inst.encode = .ok code) :
    call.bytes distance = code := by
  simp only [bytes, h, Option.elim_some, hcode, Except.toOption, Option.getD_some]

/-- The instruction of a call, if it asks for one, is encodable. -/
def Encodable (call : Call) : Prop := ∀ inst, call.instruction? 0 = some inst → inst.Encodable

/-- The distance is one that a jump can hold. This is far less than what an operand of 32 bits
could. -/
def Reachable (distance : Int) : Prop :=
  Instruction.minJump ≤ distance ∧ distance ≤ Instruction.maxJump

/-- The bytes of a branch to a label are the same for all distances but for the last two. In
particular the branch is as long for every distance. -/
theorem bytes_of_target {call : Call} {goal : String} (hgoal : call.target? = some goal)
    (h : call.Encodable) :
    ∃ front, ∀ distance : Int32, Reachable distance.toInt →
      (∃ inst, call.instruction? distance = some inst ∧ inst.Encodable) ∧
        call.bytes distance =
          front ++ Instruction.writeVariable (Instruction.jumpField distance) true := by
  obtain ⟨opcode, op, f, x, g, y, hop, hformats, hinst⟩ := instruction?_of_target hgoal
  have hall : Opcode.formatsOf opcode = [f, g, .jump] := (Opcode.formatsOf_eq hop).trans hformats
  obtain ⟨hassigned, hranges⟩ := h _ (hinst 0)
  simp only [hall, List.forall₂_cons] at hranges
  obtain ⟨hx, hy, -⟩ := hranges
  have hfits := fits_instruction (hinst 0)
  rw [Instruction.Fits, hall] at hfits
  obtain _ | ⟨hxfits, _ | ⟨hyfits, -⟩⟩ := hfits
  obtain ⟨xcode, _, hxwrites⟩ := Instruction.writes_of_inRange hxfits hx
  obtain ⟨ycode, _, hywrites⟩ := Instruction.writes_of_inRange hyfits hy
  -- the operands before the jump were written without regard to the distance
  refine ⟨opcode :: (xcode ++ ycode), fun distance hdistance => ⟨⟨_, hinst distance, ?_⟩, ?_⟩⟩
  · refine ⟨hassigned, ?_⟩
    simp only [hall, List.forall₂_cons]
    exact ⟨hx, hy, hdistance, .nil⟩
  · apply bytes_eq (hinst distance)
    have hjump := @Instruction.writeOperand_jump (.number distance true) hdistance
    simp only [Instruction.encode, hop, hformats, Instruction.writeOperands, List.head?_cons,
      Option.getD_some, List.tail_cons, hxwrites.write, hywrites.write, hjump, bind, Except.bind,
      pure,
      Except.pure]
    simp [Operand.isWide, Operand.value]

/-! ### What a call does to an assembler -/

/-- An assembler takes a call without an error: its instruction can be encoded and its name is not
taken. -/
structure Accepted (a : Assembler) (call : Call) : Prop where
  encodable : call.Encodable
  fresh : ∀ name, call.binds? = some name → name ∉ a.labels.map Prod.fst

/-- The binding that a call made at `start` adds. -/
def binding? (start : Nat) (call : Call) : Option (String × Nat) := call.binds?.map (·, start)

/-- The branch that a call made at `start` leaves to be resolved. -/
def site? (start : Nat) (call : Call) : Option BranchSite :=
  call.target?.map (⟨·, start + (call.bytes 0).length - 2, start⟩)

/-- Whatever a call asks for: a name to be bound, bytes to be added or an instruction. The proofs
below split into these three cases and not into all the kinds of calls. -/
theorem cases_instruction (call : Call) :
    (∃ name, call = .label name) ∨ (∃ bytes, call = .raw bytes) ∨
    ∃ inst, call.instruction? 0 = some inst := by
  cases call with
  | label name => exact .inl ⟨name, rfl⟩
  | raw bytes => exact .inr (.inl ⟨bytes, rfl⟩)
  | _ => exact .inr (.inr ⟨_, rfl⟩)

/-- Emitting is adding bytes as long as there is no error. -/
theorem emit_of_encode {a : Assembler} (ha : a.error = none) {inst : Instruction}
    {code : List UInt8} (h : inst.encode = .ok code) : a.emit inst = a.raw code := by
  simp only [Assembler.emit, ha, h]

theorem raw_eq (a : Assembler) (bytes : List UInt8) :
    a.raw bytes = { a with code := (a.code.toList ++ bytes).toArray } := by
  rw [Assembler.raw, ← Array.toList_appendList, Array.toArray_toList]

/-- An accepted call adds its bytes, its binding and its branch. This is the step of `foldl_eq`. -/
theorem Accepted.apply_eq {a : Assembler} {call : Call} (h : call.Accepted a)
    (ha : a.error = none) :
    call.apply a =
      { code := (a.code.toList ++ call.bytes 0).toArray
        labels := (call.binding? a.position).toList ++ a.labels
        sites := (call.site? a.position).toList ++ a.sites } := by
  rcases call.cases_instruction with ⟨name, rfl⟩ | ⟨bytes, rfl⟩ | ⟨inst, hinst⟩
  · have hnew : (a.labels.lookup name).isSome = false :=
      Bool.eq_false_iff.mpr (isSome_lookup.not.mpr (h.fresh name rfl))
    simp [apply, Assembler.label, ha, hnew, bytes, instruction?, verbatim, binding?, binds?, site?,
      target?]
  · rw [apply, raw_eq, ha]
    rfl
  · obtain ⟨code, -, hcode, -⟩ := (h.encodable inst hinst).encode (fits_instruction hinst)
    rw [apply_instruction hinst, emit_of_encode ha hcode, binding?, binds?_of_instruction hinst,
      site?, bytes_eq hinst hcode, raw_eq]
    cases call.target? with
    | none => simp [ha]
    | some goal => simp [ha, position]

theorem Accepted.map_fst_labels {a : Assembler} {call : Call} (h : call.Accepted a)
    (ha : a.error = none) :
    (call.apply a).labels.map Prod.fst = call.binds?.toList ++ a.labels.map Prod.fst := by
  rw [h.apply_eq ha, binding?]
  cases call.binds? <;> rfl

/-- An error stays, and a call that is not accepted makes one. This is the step of `error_foldl`. -/
theorem error_apply {a : Assembler} {call : Call} :
    (call.apply a).error = none ↔ a.error = none ∧ call.Accepted a := by
  refine ⟨fun h => ?_, fun ⟨ha, h⟩ => by rw [h.apply_eq ha]⟩
  rcases call.cases_instruction with ⟨name, rfl⟩ | ⟨bytes, rfl⟩ | ⟨inst, hinst⟩
  · simp only [apply, Assembler.label, Option.or_eq_none_iff] at h
    refine ⟨h.1, nofun, fun _ hname hmem => ?_⟩
    cases hname
    rw [if_pos (isSome_lookup.mpr hmem)] at h
    cases h.2
  · exact ⟨h, nofun, nofun⟩
  · have hemit : (a.emit inst).error = none := by
      rw [apply_instruction hinst] at h
      cases htarget : call.target? <;>
        simpa only [htarget, Option.elim_some, Option.elim_none] using h
    rw [Assembler.emit] at hemit
    cases ha : a.error with
    | some e => simp [ha] at hemit
    | none =>
        cases hcode : inst.encode with
        | error cause => simp [ha, hcode] at hemit
        | ok code =>
            refine ⟨rfl, fun inst' hinst' => ?_, fun name hname => ?_⟩
            · obtain rfl := Option.some.inj (hinst.symm.trans hinst')
              exact Instruction.encodable_of_encode (fits_instruction hinst) hcode
            · rw [binds?_of_instruction hinst] at hname
              cases hname

end Call

/-! ### Sequences of calls -/

/-- The calls with the offsets at which they are made, the first at `start`. A call takes the bytes
it has for distance zero; resolving does not change their number. -/
def places (start : Nat) : List Call → List (Nat × Call)
  | [] => []
  | call :: calls => (start, call) :: places (start + (call.bytes 0).length) calls

/-- What the calls bind, in order. An assembler keeps the same list with the latest first. -/
def bindings (places : List (Nat × Call)) : List (String × Nat) :=
  places.filterMap fun place => place.2.binding? place.1

/-- The branches to labels, in order. -/
def branches (places : List (Nat × Call)) : List BranchSite :=
  places.filterMap fun place => place.2.site? place.1

theorem length_places (calls : List Call) (start : Nat) :
    (places start calls).length = calls.length := by
  induction calls generalizing start with
  | nil => rfl
  | cons call calls ih => rw [places, List.length_cons, ih, List.length_cons]

/-- A call is made where the bytes of the calls before it end. -/
theorem getElem?_places (calls : List Call) (start i : Nat) :
    (places start calls)[i]? =
      calls[i]?.map fun call => (start + ((calls.take i).flatMap (Call.bytes 0)).length, call) := by
  induction calls generalizing start i with
  | nil => rfl
  | cons call calls ih =>
      cases i with
      | zero => simp [places]
      | succ i => simp [places, ih, Nat.add_assoc]

theorem map_fst_bindings (calls : List Call) (start : Nat) :
    (bindings (places start calls)).map Prod.fst = calls.filterMap Call.binds? := by
  induction calls generalizing start with
  | nil => rfl
  | cons call calls ih =>
      simp only [bindings, places, List.filterMap_cons, Call.binding?] at ih ⊢
      cases call.binds? with
      | none => exact ih _
      | some name => simp only [Option.map_some, List.map_cons, ih]

/-- No error comes from a sequence of calls exactly if none was there, every instruction can be
encoded and every name is new, both among the calls and to the assembler that they start from. -/
theorem error_foldl {calls : List Call} {a : Assembler} :
    (calls.foldl Call.apply a).error = none ↔
      a.error = none ∧ (∀ call ∈ calls, call.Encodable) ∧ (calls.filterMap Call.binds?).Nodup ∧
        ∀ name ∈ calls.filterMap Call.binds?, name ∉ a.labels.map Prod.fst := by
  induction calls generalizing a with
  | nil => simp
  | cons call calls ih =>
      rw [List.foldl_cons, ih, Call.error_apply]
      constructor
      -- the names taken before the rest are those taken before and the one that the call binds
      · rintro ⟨⟨ha, hone⟩, hrest, hnodup, hfresh⟩
        rw [hone.map_fst_labels ha] at hfresh
        refine ⟨ha, List.forall_mem_cons.mpr ⟨hone.encodable, hrest⟩, ?_⟩
        have hnew := hone.fresh
        cases hbinds : call.binds? <;> grind
      · rintro ⟨ha, hall, hnodup, hfresh⟩
        obtain ⟨hencodable, hrest⟩ := List.forall_mem_cons.mp hall
        have hone : call.Accepted a := ⟨hencodable, fun name hname => hfresh name (by simp [hname])⟩
        rw [hone.map_fst_labels ha]
        refine ⟨⟨ha, hone⟩, hrest, ?_⟩
        cases hbinds : call.binds? <;> grind

/-- What a sequence of calls without an error adds. All of it is given by the places of the
calls. -/
theorem foldl_eq {calls : List Call} {a : Assembler} (h : (calls.foldl Call.apply a).error = none) :
    calls.foldl Call.apply a =
      { code := (a.code.toList ++ calls.flatMap (Call.bytes 0)).toArray
        labels := (bindings (places a.position calls)).reverse ++ a.labels
        sites := (branches (places a.position calls)).reverse ++ a.sites } := by
  induction calls generalizing a with
  | nil =>
      have ha : a.error = none := h
      obtain ⟨code, labels, sites, error⟩ := a
      cases ha
      simp [places, bindings, branches]
  | cons call calls ih =>
      rw [List.foldl_cons] at h ⊢
      obtain ⟨ha, haccepted⟩ := Call.error_apply.mp (error_foldl.mp h).1
      rw [ih h, haccepted.apply_eq ha]
      have hposition : (a.code.toList ++ call.bytes 0).toArray.size =
          a.position + (call.bytes 0).length := by
        simp [position]
      simp only [position, hposition, places, bindings, branches, List.filterMap_cons,
        List.flatMap_cons, List.append_assoc]
      -- an assembler keeps the latest first, so the parts of the call come after those of the rest
      congr 1
      · cases call.binding? a.code.size <;> simp
      · cases call.site? a.code.size <;> simp

theorem error_assemble {calls : List Call} :
    (assemble calls).error = none ↔
      (∀ call ∈ calls, call.Encodable) ∧ (calls.filterMap Call.binds?).Nodup := by
  rw [assemble, error_foldl]
  simp

/-- What a sequence of calls without an error comes to, from an empty assembler. -/
theorem assemble_eq {calls : List Call} (h : (assemble calls).error = none) :
    assemble calls =
      { code := (calls.flatMap (Call.bytes 0)).toArray
        labels := (bindings (places 0 calls)).reverse
        sites := (branches (places 0 calls)).reverse } := by
  rw [assemble, foldl_eq h]
  simp [position]

/-- As long as there is no error, a call is made where the calls before it end. After an error
nothing is added any more. -/
theorem offset_eq {calls : List Call} (h : (assemble calls).error = none) (i : Nat) :
    offset calls i = ((calls.take i).flatMap (Call.bytes 0)).length := by
  have hbefore : (assemble (calls.take i)).error = none := by
    rw [error_assemble] at h ⊢
    refine ⟨fun call hcall => h.1 call (List.mem_of_mem_take hcall), ?_⟩
    exact h.2.sublist ((List.take_sublist i calls).filterMap Call.binds?)
  rw [offset, assemble_eq hbefore, position, List.size_toArray]

end Assembler

end RegisterVM
