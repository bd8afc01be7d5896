import RegisterVM.Proofs.CompletedStep
import RegisterVM.Proofs.Encoding
import RegisterVM.Proofs.MemoryBytes

/-!
# Typed stores and loads

A store puts as many low-order bytes of a register into memory as its type is wide, and a load of
the same type extends them again. What comes back is therefore what the type keeps of the register:
`DataType.kept` says it over the integers. Wide types take a pair of registers, high word first, and
an access to the pair of the last register is refused before memory is looked at.

A store changes no register, so the address of a load is that of the store before it, and the values
of a load are read before it sets anything. Which registers coincide is irrelevant to both.
-/

namespace RegisterVM

/-! ### What a type keeps -/

/-- The number that is left of a register after it was stored and loaded as a type that takes one
register: the low-order bytes, with their sign for bytes and shorts. Characters have none, and words
are kept whole. -/
def DataType.kept (type : DataType) (v : Int) : Int :=
  match type with
  | .byte => v.bmod (2 ^ 8)
  | .short => v.bmod (2 ^ 16)
  | .character => v % 2 ^ 16
  | _ => v

/-- A part of the unsigned value of a word is the same part of its signed value. -/
theorem toUInt32_toNat_mod (v : Int32) {k : Nat} (hk : 2 ^ k ∣ (2 ^ 32 : Int)) :
    ((v.toUInt32.toNat % 2 ^ k : Nat) : Int) = v.toInt % 2 ^ k := by
  push_cast
  rw [Instruction.toUInt32_toNat, Int.emod_emod_of_dvd _ hk]

/-- Extending the bytes of a register gives what the type keeps of it. The types are gone through
one by one. -/
theorem DataType.toInt_extend {type : DataType} (hsingle : type.isWide = false) (v : Int32) :
    (type.extend (v.toUInt32.toNat % 256 ^ type.width)).toInt = type.kept v.toInt := by
  have hwidth : 256 ^ type.width = 2 ^ (8 * type.width) := by rw [Nat.pow_mul]
  rw [hwidth]
  cases type with
  | byte =>
      simp only [extend, kept, width]
      rw [Int8.toInt_toInt32, Int8.toInt_ofNat', toUInt32_toNat_mod v (by decide)]
      exact Int.emod_bmod v.toInt (2 ^ 8)
  | short =>
      simp only [extend, kept, width]
      rw [Int16.toInt_toInt32, Int16.toInt_ofNat', toUInt32_toNat_mod v (by decide)]
      exact Int.emod_bmod v.toInt (2 ^ 16)
  | character =>
      simp only [extend, kept, width]
      have hlt : v.toUInt32.toNat % 2 ^ (8 * 2) < 2 ^ 31 := by omega
      rw [Int32.toInt_ofNat_of_lt hlt, toUInt32_toNat_mod v (by decide)]
  | integer | float | object =>
      simp only [extend, kept, width]
      rw [Nat.mod_eq_of_lt v.toUInt32.toNat_lt, Instruction.ofNat_toUInt32_toNat]
  | long | double => cases hsingle

/-! ### Bytes written and read back -/

theorem bigEndian_append (front back : List UInt8) :
    bigEndian (front ++ back) = bigEndian front * 256 ^ back.length + bigEndian back := by
  rw [bigEndian, List.foldl_append, ← bigEndian, foldl_bigEndian]

/-- What may be written may be read, if the region lets itself be read at all. -/
theorem Memory.check_read_of_write {m : Memory} {address : UInt32} {count : Nat}
    (hwrite : m.check .write address count = .ok ())
    (hreadable : ∀ r, m.leaf? address = some r → r.permission.readable = true) :
    m.check .read address count = .ok () := by
  obtain ⟨r, hleaf, hcovers, -⟩ := check_eq_ok hwrite
  have hallows : r.permission.allows .read = true := hreadable r hleaf
  rw [check, hleaf]
  show r.check .read address count = .ok ()
  rw [Region.check, hcovers, hallows]
  rfl

/-- What was written is read back as a number. -/
theorem Memory.readNat_poke {m : Memory} (hm : m.Ordered) {address : UInt32} {data : List UInt8}
    (hwrite : m.check .write address data.length = .ok ())
    (hread : m.check .read address data.length = .ok ()) :
    (m.poke address data).readNat address data.length = .ok (bigEndian data) := by
  have hchecked : (m.poke address data).check .read address data.length = .ok () := by
    rw [check_congr (blank_poke m address data), hread]
  have hbytes : ∀ i < data.length, (m.poke address data).byte? (address.toNat + i) = data[i]? := by
    intro i hi
    rw [byte?_poke hm hwrite, if_pos (by omega), Nat.add_sub_cancel_left]
  rw [readNat, read_of_bytes (ordered_poke hm address data) hchecked hbytes]
  rfl

/-! ### The pair of a wide value -/

/-- Only the last register has no register after it. -/
theorem pairedRegister_eq_ok {r : Register} (h : r.val ≠ 63) :
    ∃ s : Register, s.val = r.val + 1 ∧ pairedRegister r = .ok s := by
  have hlast : r.val < 64 := r.isLt
  have hlt : r.val + 1 < 64 := by omega
  exact ⟨⟨r.val + 1, hlt⟩, rfl, dif_pos hlt⟩

theorem pairedRegister_last {r : Register} (h : r.val = 63) :
    pairedRegister r = .error .invalidRegister := by
  apply dif_neg
  rw [h]
  decide

/-! ### Stores and loads by their width -/

section

variable {f : Frame} {m : Memory} {type : DataType} {value base : Register} {offset : Source}

/-- A store of a type that takes one register: a check, and the low-order bytes. -/
theorem storeEffect_single (hsingle : type.isWide = false) :
    storeEffect f m type value base offset =
      ((m.check .write (f.address base offset) type.width).mapError
        (refuse (f.address base offset))).map
        fun _ => (f.address base offset, toBigEndian type.width (f.get value).toUInt32.toNat) := by
  rw [storeEffect, hsingle]
  simp only [Bool.false_eq_true, if_false, pure, Except.pure, ok_bind, length_toBigEndian]
  cases m.check .write (f.address base offset) type.width <;> rfl

/-- A store of a pair: one check for both words, and the bytes of the first word before those of the
second. -/
theorem storeEffect_pair (hwide : type.isWide = true) {second : Register}
    (hsecond : pairedRegister value = .ok second) :
    storeEffect f m type value base offset =
      ((m.check .write (f.address base offset) 8).mapError (refuse (f.address base offset))).map
        fun _ => (f.address base offset,
          toBigEndian 4 (f.get value).toUInt32.toNat ++
            toBigEndian 4 (f.get second).toUInt32.toNat) := by
  rw [storeEffect, hwide, hsecond]
  simp only [if_true, Except.mapError, pure, Except.pure, ok_bind, List.length_append,
    length_toBigEndian]
  cases m.check .write (f.address base offset) 8 <;> rfl

/-- A load of a type that takes one register. -/
theorem loadEffect_single (hsingle : type.isWide = false) :
    loadEffect f m type value base offset =
      ((m.readNat (f.address base offset) type.width).mapError (refuse (f.address base offset))).map
        fun n => [(value, type.extend n)] := by
  rw [loadEffect, hsingle]
  simp only [Bool.false_eq_true, if_false]
  cases m.readNat (f.address base offset) type.width <;> rfl

/-- A load of a pair: both words are read before a register is set. -/
theorem loadEffect_pair (hwide : type.isWide = true) {second : Register}
    (hsecond : pairedRegister value = .ok second) :
    loadEffect f m type value base offset =
      ((m.readNat (f.address base offset) 8).mapError (refuse (f.address base offset))).map
        fun n => [(value, Int32.ofNat (n >>> 32)), (second, Int32.ofNat n)] := by
  rw [loadEffect, hwide, hsecond]
  simp only [if_true, Except.mapError, ok_bind]
  cases m.readNat (f.address base offset) 8 <;> rfl

theorem storeEffect_last (hwide : type.isWide = true) (hlast : value.val = 63) :
    storeEffect f m type value base offset = .error (.invalidRegister, 0) := by
  rw [storeEffect, hwide, pairedRegister_last hlast]
  rfl

theorem loadEffect_last (hwide : type.isWide = true) (hlast : value.val = 63) :
    loadEffect f m type value base offset = .error (.invalidRegister, 0) := by
  rw [loadEffect, hwide, pairedRegister_last hlast]
  rfl

/-! ### Refusals -/

theorem effect_load (next : UInt32) :
    (Operation.load type value base offset).effect f m next =
      (loadEffect f m type value base offset).map fun registers =>
        { registers, flow := .goto next } := by
  rw [Operation.effect]
  cases loadEffect f m type value base offset <;> rfl

theorem effect_store (next : UInt32) :
    (Operation.store type value base offset).effect f m next =
      (storeEffect f m type value base offset).map fun change =>
        { store := some change, flow := .goto next } := by
  rw [Operation.effect]
  cases storeEffect f m type value base offset <;> rfl

/-- An access to the pair of the last register is refused, whatever memory is like. -/
theorem effect_last (hwide : type.isWide = true) (hlast : value.val = 63) (direction : Direction)
    (next : UInt32) :
    (memoryOperation direction type value base offset).effect f m next =
      .error (.invalidRegister, 0) := by
  cases direction with
  | load => rw [memoryOperation, effect_load, loadEffect_last hwide hlast]; rfl
  | store => rw [memoryOperation, effect_store, storeEffect_last hwide hlast]; rfl

theorem eq_error_of_map {ε α β : Type} {x : Except ε α} {g : α → β} {e : ε}
    (h : x.map g = .error e) : x = .error e := by
  cases x with
  | error e' => rw [Except.error.inj h]
  | ok a => cases h

theorem map_mapError_eq_error {α β : Type} {x : Except AccessError α} {address : UInt32} {g : α → β}
    {refusal : Refusal} (h : (x.mapError (refuse address)).map g = .error refusal) :
    ∃ e, refusal = refuse address e := by
  cases x with
  | error e => exact ⟨e, (Except.error.inj h).symm⟩
  | ok a => cases h

/-- Every other access is refused by memory only, and the refusal says at which address. -/
theorem effect_refused (hfits : type.isWide = true → value.val ≠ 63) {direction : Direction}
    {next : UInt32} {refusal : Refusal}
    (h : (memoryOperation direction type value base offset).effect f m next = .error refusal) :
    ∃ e, refusal = refuse (f.address base offset) e := by
  cases direction with
  | load =>
      rw [memoryOperation, effect_load] at h
      have hload := eq_error_of_map h
      cases hwide : type.isWide with
      | false =>
          rw [loadEffect_single hwide] at hload
          exact map_mapError_eq_error hload
      | true =>
          obtain ⟨second, -, hsecond⟩ := pairedRegister_eq_ok (hfits hwide)
          rw [loadEffect_pair hwide hsecond] at hload
          exact map_mapError_eq_error hload
  | store =>
      rw [memoryOperation, effect_store] at h
      have hstore := eq_error_of_map h
      cases hwide : type.isWide with
      | false =>
          rw [storeEffect_single hwide] at hstore
          exact map_mapError_eq_error hstore
      | true =>
          obtain ⟨second, -, hsecond⟩ := pairedRegister_eq_ok (hfits hwide)
          rw [storeEffect_pair hwide hsecond] at hstore
          exact map_mapError_eq_error hstore

/-! ### The bytes of a value -/

/-- The bytes by which a store puts the value of a register, or of a pair, into memory. -/
inductive Frame.Lays (f : Frame) : DataType → Register → List UInt8 → Prop
  | single {type : DataType} {s : Register} (hsingle : type.isWide = false) :
      Lays f type s (toBigEndian type.width (f.get s).toUInt32.toNat)
  | pair {type : DataType} {s second : Register} (hwide : type.isWide = true)
      (hsecond : second.val = s.val + 1) :
      Lays f type s
        (toBigEndian 4 (f.get s).toUInt32.toNat ++ toBigEndian 4 (f.get second).toUInt32.toNat)

/-- `after` has the registers of `f`, but for the value of a type in `s`, of which it has in `d`
what the type keeps. `s` and `d` may be the same or overlap. -/
inductive Frame.Received (f after : Frame) : DataType → Register → Register → Prop
  | single {type : DataType} {s d : Register} (hsingle : type.isWide = false)
      (hvalue : (after.get d).toInt = type.kept (f.get s).toInt)
      (hothers : ∀ r, r ≠ d → after.get r = f.get r) : Received f after type s d
  | pair {type : DataType} {s s' d d' : Register} (hwide : type.isWide = true)
      (hs : s'.val = s.val + 1) (hd : d'.val = d.val + 1) (hhigh : after.get d = f.get s)
      (hlow : after.get d' = f.get s') (hothers : ∀ r, r ≠ d → r ≠ d' → after.get r = f.get r) :
      Received f after type s d

/-- A store that is not refused writes the bytes of the value. -/
theorem storeEffect_lays {address : UInt32} {bytes : List UInt8}
    (h : storeEffect f m type value base offset = .ok (address, bytes)) :
    f.Lays type value bytes := by
  have hmap {x : Except Refusal Unit} {data : List UInt8}
      (hx : x.map (fun _ => (f.address base offset, data)) = .ok (address, bytes)) :
        data = bytes := by
    cases x with
    | error e => cases hx
    | ok _ => exact (Prod.mk.inj (Except.ok.inj hx)).2
  cases hwide : type.isWide with
  | false =>
      rw [storeEffect_single hwide] at h
      obtain rfl := hmap h
      exact .single hwide
  | true =>
      by_cases hlast : value.val = 63
      · rw [storeEffect_last hwide hlast] at h
        cases h
      · obtain ⟨second, hnext, hsecond⟩ := pairedRegister_eq_ok hlast
        rw [storeEffect_pair hwide hsecond] at h
        obtain rfl := hmap h
        exact .pair hwide hnext

end

/-- The words of a pair are found again in the number that their bytes spell. -/
theorem words_of_pair (high low : Int32) {n : Nat}
    (h : n = bigEndian (toBigEndian 4 high.toUInt32.toNat ++ toBigEndian 4 low.toUInt32.toNat)) :
    Int32.ofNat (n >>> 32) = high ∧ Int32.ofNat n = low := by
  have hhigh : high.toUInt32.toNat < 2 ^ 32 := high.toUInt32.toNat_lt
  have hlow : low.toUInt32.toNat < 2 ^ 32 := low.toUInt32.toNat_lt
  have hn : n = high.toUInt32.toNat * 2 ^ 32 + low.toUInt32.toNat := by
    rw [h, bigEndian_append, length_toBigEndian, bigEndian_toBigEndian, bigEndian_toBigEndian,
      Nat.mod_eq_of_lt (by omega), Nat.mod_eq_of_lt (by omega)]
    norm_num
  constructor
  · have hshift : n >>> 32 = high.toUInt32.toNat := by
      rw [Nat.shiftRight_eq_div_pow]
      omega
    rw [hshift, Instruction.ofNat_toUInt32_toNat]
  · have hmod : n % 2 ^ 32 = low.toUInt32.toNat := by omega
    rw [← Instruction.ofNat_toUInt32_toNat (Int32.ofNat n), Int32.toUInt32_ofNat',
      UInt32.toNat_ofNat', hmod, Instruction.ofNat_toUInt32_toNat]

/-- A load where the bytes of a value stand sets registers to what the type keeps of it. `g` has the
registers of the frame that stored the value. -/
theorem loadEffect_received {f g : Frame} (hsame : g.registers = f.registers) {m : Memory}
    {type : DataType} {s d base : Register} {offset : Source} {bytes : List UInt8}
    (hlays : f.Lays type s bytes)
    (hread : m.readNat (g.address base offset) type.width = .ok (bigEndian bytes))
    (hfits : type.isWide = true → d.val ≠ 63) :
    ∃ registers, loadEffect g m type d base offset = .ok registers ∧
      ∀ pc, f.Received { registers.foldl (fun f (r, v) => f.set r v) g with pc } type s d := by
  have hget : ∀ r, g.get r = f.get r := by
    intro r
    rw [Frame.get, Frame.get, hsame]
  cases hlays with
  | single hsingle =>
      rw [bigEndian_toBigEndian] at hread
      refine ⟨_, by rw [loadEffect_single hsingle, hread]; rfl, ?_⟩
      intro pc
      refine .single hsingle ?_ ?_
      · show ((g.set d _).get d).toInt = type.kept (f.get s).toInt
        rw [Frame.get_set_self, DataType.toInt_extend hsingle]
      · intro r hr
        exact (g.get_set_of_ne _ hr).trans (hget r)
  | @pair s' hwide hs =>
      obtain ⟨d', hd, hsecond⟩ := pairedRegister_eq_ok (hfits hwide)
      rw [DataType.width_of_isWide hwide] at hread
      obtain ⟨hhigh, hlow⟩ := words_of_pair (f.get s) (f.get s') rfl
      -- The high word goes first, and setting the low word after it must not undo it.
      have hne : d ≠ d' := by
        rintro rfl
        omega
      refine ⟨_, by rw [loadEffect_pair hwide hsecond, hread]; rfl, ?_⟩
      intro pc
      refine .pair hwide hs hd ?_ ?_ ?_
      · show ((g.set d _).set d' _).get d = f.get s
        rw [Frame.get_set_of_ne _ _ hne, Frame.get_set_self, hhigh]
      · show ((g.set d _).set d' _).get d' = f.get s'
        rw [Frame.get_set_self, hlow]
      · intro r hr hr'
        show ((g.set d _).set d' _).get r = f.get r
        rw [Frame.get_set_of_ne _ _ hr', Frame.get_set_of_ne _ _ hr, hget]

/-! ### Instructions -/

/-- An instruction asks for a memory access with a value in a register, at a base register with an
offset. The offset is in a register too, or it is a constant of the instruction. The forms of the
operands are free. -/
inductive Instruction.Accesses (direction : Direction) (type : DataType) (value base : Register) :
    Source → Instruction → Prop
  | register {opcode : UInt8} {x y z : Int32} {index : Register} (wx wy wz : Bool)
      (hop : Opcode.ofByte? opcode = some (.memory direction type))
      (hx : namedRegister x = .ok value) (hy : namedRegister y = .ok base)
      (hz : namedRegister z = .ok index) :
      Accesses direction type value base (.register index)
        ⟨opcode, [.number x wx, .number y wy, .number z wz]⟩
  | constant {opcode : UInt8} {x y c : Int32} (wx wy : Bool)
      (hop : Opcode.ofByte? opcode = some (.memoryConst direction type))
      (hx : namedRegister x = .ok value) (hy : namedRegister y = .ok base) :
      Accesses direction type value base (.constant c)
        ⟨opcode, [.number x wx, .number y wy, .word c]⟩

/-- Such an instruction is executed as the access that it asks for. -/
theorem Instruction.Accesses.operation {direction : Direction} {type : DataType}
    {value base : Register} {offset : Source} {inst : Instruction}
    (h : inst.Accesses direction type value base offset) :
    Operation.ofInstruction inst = .ok (memoryOperation direction type value base offset) := by
  cases h with
  | register wx wy wz hop hx hy hz =>
      simp only [Operation.ofInstruction, hop, hx, hy, hz, ok_bind, pure, Except.pure]
  | constant wx wy hop hx hy =>
      simp only [Operation.ofInstruction, hop, hx, hy, ok_bind, pure, Except.pure]

namespace Processor

variable {p : Processor} {m : Memory} {f : Frame} {rest : List Frame}

/-- Just the wide accesses to the last register fault with an invalid register. -/
theorem invalidRegister_iff (hframes : p.frames = f :: rest) {direction : Direction}
    {type : DataType} {value base : Register} {offset : Source} {inst : Instruction}
    (hinst : inst.Accesses direction type value base offset) :
    (∃ fault, (p.execute m inst).2.2 = some fault ∧ fault.cause = .invalidRegister) ↔
      type.isWide = true ∧ value.val = 63 := by
  constructor
  · rintro ⟨fault, hfault, hcause⟩
    by_contra hnot
    have hfits : type.isWide = true → value.val ≠ 63 := fun hwide hlast => hnot ⟨hwide, hlast⟩
    cases heffect : (memoryOperation direction type value base offset).effect f m
        (f.pc + UInt32.ofNat inst.size) with
    | error refusal =>
        obtain ⟨e, rfl⟩ := effect_refused hfits heffect
        rw [execute_of_refusal hframes hinst.operation heffect] at hfault
        cases hfault
        cases hcause
    | ok e =>
        rw [execute_of_effect hframes hinst.operation heffect] at hfault
        cases hfault
  · rintro ⟨hwide, hlast⟩
    rw [execute_of_refusal hframes hinst.operation (effect_last hwide hlast direction _)]
    exact ⟨_, rfl, rfl⟩

/-- A store that succeeds goes on after the instruction and has written the bytes of the value. -/
theorem execute_store_inv (hframes : p.frames = f :: rest) {type : DataType} {s base : Register}
    {offset : Source} {store : Instruction} (hstore : store.Accesses .store type s base offset)
    {after : Processor} {m' : Memory} (h : p.execute m store = (after, m', none)) :
    after.frames = { f with pc := f.pc + UInt32.ofNat store.size } :: rest ∧
      ∃ bytes, bytes.length = type.width ∧ f.Lays type s bytes ∧
        m.check .write (f.address base offset) bytes.length = .ok () ∧
        m' = m.poke (f.address base offset) bytes := by
  have hop : Operation.ofInstruction store = .ok (.store type s base offset) := hstore.operation
  cases heffect : storeEffect f m type s base offset with
  | error refusal =>
      have hrefused : (Operation.store type s base offset).effect f m
          (f.pc + UInt32.ofNat store.size) = .error refusal := by rw [effect_store, heffect]; rfl
      rw [execute_of_refusal hframes hop hrefused] at h
      cases h
  | ok change =>
      obtain ⟨address, bytes⟩ := change
      have hcommitted : (Operation.store type s base offset).effect f m
          (f.pc + UInt32.ofNat store.size) =
          .ok
            { store := some (address, bytes), flow := .goto (f.pc + UInt32.ofNat store.size) } := by
        rw [effect_store, heffect]
        rfl
      obtain ⟨rfl, hlength⟩ := storeEffect_range heffect
      rw [execute_of_effect hframes hop hcommitted] at h
      cases h
      exact ⟨frames_commit_goto hframes rfl, bytes, hlength, storeEffect_lays heffect,
        storeEffect_inv heffect, rfl⟩

end Processor

/-- A typed value that was stored is loaded again as its type keeps it. An access of a wide type
faults with an invalid register just if its register is the last, and then before memory is looked
at. When a store has succeeded and the region that it went to is readable, only the bytes of its
range have changed, and a load of the same type from the same address succeeds, with no other
register and no memory changed, unless its pair does not exist.

The proof follows the bytes: a store that succeeds lays them down (`execute_store_inv`), they are
read back as one number (`Memory.readNat_poke`), and the load makes of that number what the type
keeps (`loadEffect_received`). -/
theorem store_then_load {m : Memory} (hm : m.Ordered) {p : Processor} {f : Frame}
    {rest : List Frame} (hframes : p.frames = f :: rest) (type : DataType) (s base : Register)
    (offset : Source) :
    (∀ direction value inst, inst.Accesses direction type value base offset →
      ((∃ fault, (p.execute m inst).2.2 = some fault ∧ fault.cause = .invalidRegister) ↔
        type.isWide = true ∧ value.val = 63) ∧
      (type.isWide = true → value.val = 63 → ∀ m' : Memory,
        p.execute m' inst = (p.noteFault ⟨.invalidRegister, f.pc, inst.opcode, 0⟩, m',
          some ⟨.invalidRegister, f.pc, inst.opcode, 0⟩))) ∧
    ∀ store p₁ m₁, store.Accesses .store type s base offset → p.execute m store = (p₁, m₁, none) →
      (∀ r, m.leaf? (f.address base offset) = some r → r.permission.readable = true) →
      p₁.frames = { f with pc := f.pc + UInt32.ofNat store.size } :: rest ∧ m₁.blank = m.blank ∧
      (∀ a, a < (f.address base offset).toNat ∨ (f.address base offset).toNat + type.width ≤ a →
        m₁.byte? a = m.byte? a) ∧
      ∀ load d base' offset', load.Accesses .load type d base' offset' →
        f.address base' offset' = f.address base offset → (type.isWide = true → d.val ≠ 63) →
        ∃ after, (p₁.execute m₁ load).1.frames = after :: rest ∧
          (p₁.execute m₁ load).2 = (m₁, none) ∧
          after.pc = f.pc + UInt32.ofNat store.size + UInt32.ofNat load.size ∧
          f.Received after type s d := by
  constructor
  · intro direction value inst hinst
    refine ⟨Processor.invalidRegister_iff hframes hinst, ?_⟩
    intro hwide hlast m'
    exact Processor.execute_of_refusal hframes hinst.operation (effect_last hwide hlast direction _)
  · intro store p₁ m₁ hstore hexecute hreadable
    obtain ⟨hafter, bytes, hlength, hlays, hwrite, rfl⟩ :=
      Processor.execute_store_inv hframes hstore hexecute
    refine ⟨hafter, m.blank_poke _ bytes, ?_, ?_⟩
    · intro a ha
      rw [Memory.byte?_poke hm hwrite, if_neg (by omega)]
    · intro load d base' offset' hload haddress hfits
      have hread := Memory.readNat_poke hm hwrite (Memory.check_read_of_write hwrite hreadable)
      rw [hlength, ← haddress] at hread
      -- The store moved the program counter only, so the load finds the registers of before.
      obtain ⟨registers, hregisters, hreceived⟩ :=
        loadEffect_received (f := f) (g := { f with pc := f.pc + UInt32.ofNat store.size }) rfl
          hlays
          hread hfits
      have heffect : (Operation.load type d base' offset').effect
          { f with pc := f.pc + UInt32.ofNat store.size } (m.poke (f.address base' offset') bytes)
          (f.pc + UInt32.ofNat store.size + UInt32.ofNat load.size) =
          .ok { registers
                flow := .goto (f.pc + UInt32.ofNat store.size + UInt32.ofNat load.size) } := by
        rw [effect_load, hregisters]
        rfl
      rw [← haddress, Processor.execute_of_effect hafter hload.operation heffect]
      exact ⟨_, Processor.frames_commit_goto hafter rfl, rfl, rfl, hreceived _⟩

/-- A frame with a pair, and with a base and an offset that wrap around to address 4. -/
def wrapping : Frame := .enter none 0 [-2, 7, -4, 8] none

/-- A pair is stored and loaded into the very registers that hold the base and the offset. -/
theorem store_then_load_wrapping :
    let p : Processor := { cache := .ofOptions 0 0, frames := [wrapping] }
    let m : Memory := .region (.ofBytes "ram" 0 (List.replicate 16 0) ⟨true, true⟩)
    let store : Instruction := ⟨0x54, [.number 12 false, .number 14 false, .number 15 false]⟩
    let load : Instruction := ⟨0x5C, [.number 14 false, .number 14 false, .number 15 false]⟩
    store.Accesses .store .long 12 14 (.register 15) ∧
      load.Accesses .load .long 14 14 (.register 15) ∧
      wrapping.address 14 (.register 15) = 4 ∧
      ∃ p₁ m₁ after, p.execute m store = (p₁, m₁, none) ∧ m₁.byte? 3 = some 0 ∧
        (p₁.execute m₁ load).1.frames = [after] ∧ (p₁.execute m₁ load).2 = (m₁, none) ∧
        wrapping.Received after .long 12 14 := by
  intro p m store load
  have hstore : store.Accesses .store .long 12 14 (.register 15) :=
    .register false false false (by decide) rfl rfl rfl
  have hload : load.Accesses .load .long 14 14 (.register 15) :=
    .register false false false (by decide) rfl rfl rfl
  have haddress : wrapping.address 14 (.register 15) = 4 := by decide
  have hexecute : p.execute m store = ((p.execute m store).1, (p.execute m store).2.1, none) :=
    Prod.ext rfl (Prod.ext rfl (by decide +kernel))
  have hreadable : ∀ r, m.leaf? (wrapping.address 14 (.register 15)) = some r →
      r.permission.readable = true := by
    intro r hr
    obtain rfl := Option.some.inj hr
    rfl
  obtain ⟨-, hround⟩ :=
    store_then_load (m := m) trivial (show p.frames = [wrapping] from rfl) .long 12
    14 (.register 15)
  obtain ⟨-, -, houtside, hloads⟩ := hround store _ _ hstore hexecute hreadable
  obtain ⟨after, hframes, hresult, -, hreceived⟩ :=
    hloads load 14 14 (.register 15) hload rfl (by decide)
  refine ⟨hstore, hload, haddress, _, _, after, hexecute, ?_, hframes, hresult, hreceived⟩
  exact (houtside 3 (by decide)).trans rfl

end RegisterVM
