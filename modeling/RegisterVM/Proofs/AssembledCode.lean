import RegisterVM.Proofs.Assembly
import RegisterVM.Proofs.MemoryBytes

/-!
# What assembled code holds

Resolving writes the distance of a branch over the two bytes that were kept for it, so the code
after it is the code that the same calls would have given had every distance been known. Decoding it
where a call was made finds the instruction that the call asked for, and a branch to a label, once
taken, goes on where the label was bound.
-/

namespace RegisterVM

namespace Assembler

open Call (Reachable)

/-! ### Resolving branches -/

/-- Whether resolving succeeds depends on the labels and the branches alone, not on the bytes that
are patched. -/
theorem resolve_error {labels : List (String × Nat)} {code : Array UInt8}
    {sites : List BranchSite} :
    (resolve labels code sites).2 = none ↔
      ∀ site ∈ sites, ∃ target, labels.lookup site.label = some target ∧
        Reachable ((target : Int) - site.start) := by
  induction sites generalizing code with
  | nil => simp [resolve]
  | cons site sites ih =>
      rw [resolve, List.forall_mem_cons]
      cases hlookup : labels.lookup site.label with
      | none => simp
      | some target =>
          dsimp only
          split
          · rename_i hfar
            simp only [Bool.or_eq_true, decide_eq_true_eq] at hfar
            simp only [reduceCtorEq, Option.some.injEq, exists_eq_left', Reachable,
              false_iff, not_and]
            intro hnear
            omega
          · rename_i hnear
            simp only [Bool.or_eq_true, decide_eq_true_eq, not_or, Int.not_lt] at hnear
            simp only [ih, Option.some.injEq, exists_eq_left', Reachable, hnear, true_and, and_self]

/-- Finishing gives code exactly if there was no error and every branch can be resolved. The
branches are kept latest first, hence the reversal. -/
theorem finish_eq_ok {a : Assembler} {code : List UInt8} :
    a.finish.2 = .ok code ↔
      a.error = none ∧ resolve a.labels a.code a.sites.reverse = (code.toArray, none) := by
  rw [finish]
  cases a.error with
  | some e => simp
  | none =>
      cases hresolve : resolve a.labels a.code a.sites.reverse with
      | mk patched outcome =>
          cases outcome with
          | some e => simp
          | none => simp [← Array.toList_inj]

/-- Patching replaces the two bytes kept for a jump, whatever they were, and moves nothing. -/
theorem patch_append (front back : List UInt8) (kept : Nat) (goal : String) (start : Nat)
    (distance : Int) :
    patch (front ++ Instruction.writeVariable kept true ++ back).toArray
        ⟨goal, front.length, start⟩ distance =
      (front ++ Instruction.writeVariable (Instruction.jumpField (Int32.ofInt distance)) true ++
        back).toArray := by
  simp [patch, Instruction.writeVariable, List.setIfInBounds_toArray]

/-- The distance that a branch made at a place has to jump: from the start of the branch to the
label, which may be before it. -/
def distance (labels : List (String × Nat)) (place : Nat × Call) : Int32 :=
  ((place.2.target?.bind fun goal => labels.lookup goal).map fun target : Nat =>
    Int32.ofInt ((target : Int) - place.1)).getD 0

/-- The bytes of a call once the labels are known. -/
def settled (labels : List (String × Nat)) (place : Nat × Call) : List UInt8 :=
  place.2.bytes (distance labels place)

/-- The branch of a place, if it is one to a label, can be resolved. -/
def Resolvable (labels : List (String × Nat)) (place : Nat × Call) : Prop :=
  ∀ goal, place.2.target? = some goal → ∃ target, labels.lookup goal = some target ∧
    Reachable ((target : Int) - place.1)

/-- A distance in reach fits into 32 bits, so that no wrapping hides in the patch. -/
theorem toInt_ofInt_of_reachable {d : Int} (h : Reachable d) : (Int32.ofInt d).toInt = d := by
  obtain ⟨hlow, hhigh⟩ := h
  rw [Instruction.minJump] at hlow
  rw [Instruction.maxJump] at hhigh
  exact Int32.toInt_ofInt_of_le (by omega) (by omega)

theorem distance_eq {labels : List (String × Nat)} {place : Nat × Call} {goal : String}
    {target : Nat} (hgoal : place.2.target? = some goal)
    (hlookup : labels.lookup goal = some target) :
    distance labels place = Int32.ofInt ((target : Int) - place.1) := by
  simp only [distance, hgoal, Option.bind_some, hlookup, Option.map_some, Option.getD_some]

/-- A call that does not branch to a label has its bytes from the start. -/
theorem settled_of_target_none {labels : List (String × Nat)} {place : Nat × Call}
    (h : place.2.target? = none) : settled labels place = place.2.bytes 0 := by
  rw [settled, Call.bytes, Call.instruction?_of_target_none h, Call.bytes]

/-- The bytes of a branch before and after it is resolved: they differ in the last two only. -/
theorem settled_of_target {labels : List (String × Nat)} {place : Nat × Call} {goal : String}
    {target : Nat} (hencodable : place.2.Encodable) (hgoal : place.2.target? = some goal)
    (hlookup : labels.lookup goal = some target) (hreach : Reachable ((target : Int) - place.1)) :
    ∃ front, place.2.bytes 0 = front ++ Instruction.writeVariable (Instruction.jumpField 0) true ∧
      settled labels place = front ++ Instruction.writeVariable
        (Instruction.jumpField (Int32.ofInt ((target : Int) - place.1))) true := by
  obtain ⟨front, hfront⟩ := Call.bytes_of_target hgoal hencodable
  refine ⟨front, (hfront 0 ⟨by decide, by decide⟩).2, ?_⟩
  rw [settled, distance_eq hgoal hlookup]
  exact (hfront _ (by rwa [toInt_ofInt_of_reachable hreach])).2

/-- Resolving does not change how many bytes a call takes. This keeps the offsets that labels were
bound to right. -/
theorem length_settled {labels : List (String × Nat)} {place : Nat × Call}
    (hencodable : place.2.Encodable) (h : Resolvable labels place) :
    (settled labels place).length = (place.2.bytes 0).length := by
  cases hgoal : place.2.target? with
  | none => rw [settled_of_target_none hgoal]
  | some goal =>
      obtain ⟨target, hlookup, hreach⟩ := h goal hgoal
      obtain ⟨front, hbefore, hafter⟩ := settled_of_target hencodable hgoal hlookup hreach
      rw [hbefore, hafter, List.length_append, List.length_append, Instruction.length_writeVariable,
        Instruction.length_writeVariable]

/-- Resolving the branches of some calls settles these calls one after the other. The calls before
them are settled already and make up `front`. The induction is on the calls, with `front`
growing. -/
theorem resolve_places {labels : List (String × Nat)} {calls : List Call} {front : List UInt8}
    (hencodable : ∀ call ∈ calls, call.Encodable)
    (hresolvable : ∀ place ∈ places front.length calls, Resolvable labels place) :
    resolve labels (front ++ calls.flatMap (Call.bytes 0)).toArray
        (branches (places front.length calls)) =
      ((front ++ (places front.length calls).flatMap (settled labels)).toArray, none) := by
  induction calls generalizing front with
  | nil => rfl
  | cons call calls ih =>
      obtain ⟨hone, hrest⟩ := List.forall_mem_cons.mp hencodable
      rw [places] at hresolvable ⊢
      obtain ⟨hplace, hplaces⟩ := List.forall_mem_cons.mp hresolvable
      -- the places of the rest stay where they are while the front grows by a settled call
      have hlength := length_settled hone hplace
      have hnext : front.length + (call.bytes 0).length =
          (front ++ settled labels (front.length, call)).length := by
        rw [List.length_append, hlength]
      rw [hnext] at hplaces ⊢
      have hothers := ih hrest hplaces
      simp only [branches, List.filterMap_cons, List.flatMap_cons, ← List.append_assoc] at hothers ⊢
      cases hgoal : call.target? with
      | none =>
          have hsettled : settled labels (front.length, call) = call.bytes 0 :=
            settled_of_target_none hgoal
          have hsite : call.site? front.length = none := by
            rw [Call.site?, hgoal, Option.map_none]
          simp only [hsite]
          rwa [hsettled] at hothers ⊢
      | some goal =>
          obtain ⟨target, hlookup, hreach⟩ := hplace goal hgoal
          obtain ⟨head, hbefore, hafter⟩ := settled_of_target hone hgoal hlookup hreach
          dsimp only at hbefore hafter hreach
          have hfield : front.length + (call.bytes 0).length - 2 = (front ++ head).length := by
            rw [hbefore]
            simp only [List.length_append, Instruction.length_writeVariable, if_true]
            omega
          have hsite : call.site? front.length =
              some ⟨goal, (front ++ head).length, front.length⟩ := by
            rw [Call.site?, hgoal, Option.map_some, hfield]
          have hnear : ¬ ((((target : Int) - front.length < Instruction.minJump) ||
              (Instruction.maxJump < (target : Int) - front.length)) = true) := by
            simp only [Bool.or_eq_true, decide_eq_true_eq, not_or, Int.not_lt]
            exact hreach
          -- the kept bytes are the last two of the branch, which ends where `settled` ends as well
          simp only [hsite, resolve, hlookup, if_neg hnear]
          rw [hbefore, ← List.append_assoc front head, patch_append, ← hothers, hafter,
            List.append_assoc front head]

/-! ### Labels and offsets -/

variable {calls : List Call}

/-- A name is bound to the offset at which its label was set. There is just one such label as long
as there was no error. -/
theorem lookup_labels (h : (assemble calls).error = none) {name : String} {target : Nat} :
    (assemble calls).labels.lookup name = some target ↔
      ∃ j, calls[j]? = some (.label name) ∧ target = offset calls j := by
  -- the latest binding of a name is found first, and it is the only one
  have hnames : ((bindings (places 0 calls)).reverse.map Prod.fst).Nodup := by
    rw [List.map_reverse, map_fst_bindings, List.nodup_reverse]
    exact (error_assemble.mp h).2
  rw [assemble_eq h, lookup_eq_some_iff_mem hnames, List.mem_reverse, bindings, List.mem_filterMap]
  constructor
  · rintro ⟨place, hplace, hbinding⟩
    obtain ⟨j, hj⟩ := List.mem_iff_getElem?.mp hplace
    rw [getElem?_places, Option.map_eq_some_iff] at hj
    obtain ⟨call, hcall, rfl⟩ := hj
    obtain ⟨bound, hbinds, hpair⟩ := Option.map_eq_some_iff.mp hbinding
    cases hpair
    refine ⟨j, ?_, ?_⟩
    · exact hcall.trans (congrArg some (Call.eq_label_of_binds hbinds))
    · rw [offset_eq h, Nat.zero_add]
  · rintro ⟨j, hj, rfl⟩
    refine ⟨(offset calls j, .label name), List.mem_iff_getElem?.mpr ⟨j, ?_⟩, rfl⟩
    rw [getElem?_places, hj, offset_eq h, Nat.zero_add, Option.map_some]

/-- Every call stands at its place. -/
theorem place_mem (h : (assemble calls).error = none) {i : Nat} {call : Call}
    (hcall : calls[i]? = some call) : (places 0 calls)[i]? = some (offset calls i, call) := by
  rw [getElem?_places, hcall, offset_eq h, Nat.zero_add, Option.map_some]

/-! ### When assembling succeeds -/

/-- Every instruction can be encoded, no name is bound twice, and every branch to a label goes to a
bound one that is not too far away. Forward and backward branches count alike. -/
structure Assemblable (calls : List Call) : Prop where
  encodable : ∀ call ∈ calls, call.Encodable
  distinct : (calls.filterMap Call.binds?).Nodup
  reachable : ∀ (i : Nat) (call : Call) (goal : String), calls[i]? = some call →
    call.target? = some goal → ∃ j, calls[j]? = some (.label goal) ∧
      Reachable ((offset calls j : Int) - offset calls i)

theorem Assemblable.error (h : Assemblable calls) : (assemble calls).error = none :=
  error_assemble.mpr ⟨h.encodable, h.distinct⟩

theorem Assemblable.resolvable (h : Assemblable calls) :
    ∀ place ∈ places 0 calls, Resolvable (assemble calls).labels place := by
  intro place hplace goal hgoal
  obtain ⟨i, hi⟩ := List.mem_iff_getElem?.mp hplace
  obtain ⟨call, hcall⟩ : ∃ call, calls[i]? = some call := by
    rw [getElem?_places, Option.map_eq_some_iff] at hi
    exact ⟨_, hi.choose_spec.1⟩
  obtain rfl := Option.some.inj (hi.symm.trans (place_mem h.error hcall))
  obtain ⟨j, hj, hreach⟩ := h.reachable i call goal hcall hgoal
  exact ⟨offset calls j, (lookup_labels h.error).mpr ⟨j, hj, rfl⟩, hreach⟩

/-- Assembling succeeds for such calls, and then every call has its settled bytes. The first two
conditions come from making the calls, the third from resolving. -/
theorem finish_assemble {code : List UInt8} :
    (assemble calls).finish.2 = .ok code ↔
      Assemblable calls ∧ code = (places 0 calls).flatMap (settled (assemble calls).labels) := by
  have hresolve (h : Assemblable calls) :
      resolve (assemble calls).labels (assemble calls).code (assemble calls).sites.reverse =
        (((places 0 calls).flatMap (settled (assemble calls).labels)).toArray, none) := by
    have hcode : (assemble calls).code = (calls.flatMap (Call.bytes 0)).toArray := by
      rw [assemble_eq h.error]
    have hsites : (assemble calls).sites.reverse = branches (places 0 calls) := by
      rw [assemble_eq h.error, List.reverse_reverse]
    rw [hcode, hsites]
    exact @resolve_places _ calls [] h.encodable h.resolvable
  rw [finish_eq_ok]
  constructor
  · rintro ⟨herror, hok⟩
    obtain ⟨hencodable, hdistinct⟩ := error_assemble.mp herror
    have hreachable := resolve_error.mp (congrArg Prod.snd hok)
    rw [assemble_eq herror, List.reverse_reverse] at hreachable
    -- every branch to a label has left its site, and resolving has come past it
    have h : Assemblable calls := by
      refine ⟨hencodable, hdistinct, fun i call goal hcall hgoal => ?_⟩
      have hmem :
        (⟨goal, offset calls i + (call.bytes 0).length - 2, offset calls i⟩ : BranchSite) ∈
          branches (places 0 calls) := by
        refine List.mem_filterMap.mpr ⟨_, List.mem_of_getElem? (place_mem herror hcall), ?_⟩
        rw [Call.site?, hgoal, Option.map_some]
      obtain ⟨target, hlookup, hreach⟩ := hreachable _ hmem
      rw [← assemble_eq herror] at hlookup
      obtain ⟨j, hj, rfl⟩ := (lookup_labels herror).mp hlookup
      exact ⟨j, hj, hreach⟩
    have heq := hok.symm.trans (hresolve h)
    exact ⟨h, congrArg Array.toList (congrArg Prod.fst heq)⟩
  · rintro ⟨h, rfl⟩
    exact ⟨h.error, hresolve h⟩

/-! ### Reading the code back -/

/-- What follows the first `i` pieces is the next piece and what follows the first `i + 1`. -/
theorem drop_flatMap_take {α β : Type} (f : α → List β) {xs : List α} {i : Nat} {x : α}
    (h : xs[i]? = some x) :
    (xs.flatMap f).drop ((xs.take i).flatMap f).length =
      f x ++ (xs.flatMap f).drop ((xs.take (i + 1)).flatMap f).length := by
  induction xs generalizing i with
  | nil => cases h
  | cons y ys ih =>
      cases i with
      | zero =>
          cases h
          simp
      | succ i =>
          have hnext := ih (by simpa using h)
          simp only [List.take_succ_cons, List.flatMap_cons, List.length_append, ← List.drop_drop,
            List.drop_left]
          simpa using hnext

/-- The first `i` calls take as many bytes after resolving as before. -/
theorem length_flatMap_settled {labels : List (String × Nat)} {start : Nat}
    (hencodable : ∀ call ∈ calls, call.Encodable)
    (hresolvable : ∀ place ∈ places start calls, Resolvable labels place) (i : Nat) :
    (((places start calls).take i).flatMap (settled labels)).length =
      ((calls.take i).flatMap (Call.bytes 0)).length := by
  induction calls generalizing start i with
  | nil => simp [places]
  | cons call calls ih =>
      cases i with
      | zero => rfl
      | succ i =>
          obtain ⟨hone, hrest⟩ := List.forall_mem_cons.mp hencodable
          obtain ⟨hplace, hplaces⟩ := List.forall_mem_cons.mp hresolvable
          simp only [places, List.take_succ_cons, List.flatMap_cons, List.length_append,
            ih hrest hplaces i, length_settled hone hplace]

/-- The bytes of a call stand in the code where the call was made, and end where the next one was
made. -/
theorem drop_offset (h : Assemblable calls) {i : Nat} {call : Call} (hcall : calls[i]? = some call)
    {code : List UInt8}
    (hcode : code = (places 0 calls).flatMap (settled (assemble calls).labels)) :
    code.drop (offset calls i) =
        settled (assemble calls).labels (offset calls i, call) ++ code.drop (offset calls (i + 1)) ∧
      offset calls (i + 1) =
        offset calls i + (settled (assemble calls).labels (offset calls i, call)).length := by
  have hplace := place_mem h.error hcall
  have hlength (k : Nat) : offset calls k =
      (((places 0 calls).take k).flatMap (settled (assemble calls).labels)).length := by
    rw [offset_eq h.error, length_flatMap_settled h.encodable h.resolvable]
  refine ⟨?_, ?_⟩
  · rw [hcode, hlength (i + 1)]
    nth_rewrite 1 [hlength i]
    exact drop_flatMap_take _ hplace
  · rw [hlength (i + 1), List.take_add_one, hplace, List.flatMap_append,
      List.length_append, ← hlength i]
    simp

/-- The bytes of a call that asks for an instruction are read as that instruction. Decoding chooses
the narrow forms of operands, so the two are compared without their forms. -/
theorem standsAs_settled (h : Assemblable calls) {i : Nat} {call : Call}
    (hcall : calls[i]? = some call) (hsome : (call.instruction? 0).isSome = true) :
    let place := (offset calls i, call)
    let labels := (assemble calls).labels
    ∃ found inst, Instruction.StandsAs found (settled labels place) ∧
      call.instruction? (distance labels place) = some inst ∧ found.narrow = inst.narrow := by
  intro place labels
  have hencodable : call.Encodable := h.encodable call (List.mem_of_getElem? hcall)
  obtain ⟨inst, hinst, hok⟩ : ∃ inst, call.instruction? (distance labels place) = some inst ∧
      inst.Encodable := by
    cases hgoal : call.target? with
    | none =>
        obtain ⟨inst, hinst⟩ := Option.isSome_iff_exists.mp hsome
        rw [Call.instruction?_of_target_none hgoal]
        exact ⟨inst, hinst, hencodable inst hinst⟩
    | some goal =>
        obtain ⟨front, hfront⟩ := Call.bytes_of_target hgoal hencodable
        obtain ⟨target, hlookup, hreach⟩ :=
          h.resolvable place (List.mem_of_getElem? (place_mem h.error hcall)) goal hgoal
        have hdistance : distance labels place = Int32.ofInt ((target : Int) - place.1) :=
          distance_eq hgoal hlookup
        exact (hfront _ (by rwa [hdistance, toInt_ofInt_of_reachable hreach])).1
  obtain ⟨bytes, found, hbytes, hstands, hsame⟩ := hok.encode (Call.fits_instruction hinst)
  rw [← Call.bytes_eq hinst hbytes] at hstands
  exact ⟨found, inst, hstands, hinst, hsame⟩

/-- What assembled code holds for the `i`-th of its calls. The fields speak of decoding at the
call's offset and of where the next call starts, so all the calls together describe the code without
gaps. -/
structure Holds (calls : List Call) (code : List UInt8) (i : Nat) (call : Call) : Prop where
  /-- Raw bytes stand as they were given. -/
  raw : ∀ bytes, call = .raw bytes →
    code.drop (offset calls i) = bytes ++ code.drop (offset calls (i + 1)) ∧
      offset calls (i + 1) = offset calls i + bytes.length
  /-- An instruction is decoded again, up to the next call; only the forms of its operands may
  differ, and a branch to a label has a distance. -/
  instruction : (call.instruction? 0).isSome = true → ∃ found inst,
    Instruction.decode (code.drop (offset calls i)) =
      .ok (found, code.drop (offset calls (i + 1))) ∧
      offset calls (i + 1) = offset calls i + found.size ∧
      call.instruction? (found.arg 2) = some inst ∧ found.narrow = inst.narrow
  /-- That distance leads to the label. -/
  distance : ∀ (goal : String) (j : Nat) (found : Instruction) (rest : List UInt8),
    call.target? = some goal → calls[j]? = some (.label goal) →
      Instruction.decode (code.drop (offset calls i)) = .ok (found, rest) →
        (offset calls i : Int) + (found.arg 2).toInt = offset calls j

/-- The jump of a branch to a label is its distance. -/
theorem arg_of_target {call : Call} {goal : String} {d : Int32} {inst : Instruction}
    (hgoal : call.target? = some goal) (hinst : call.instruction? d = some inst) :
    inst.arg 2 = d := by
  obtain ⟨opcode, op, f, x, g, y, -, -, hshape⟩ := Call.instruction?_of_target hgoal
  obtain rfl := Option.some.inj (hinst.symm.trans (hshape d))
  rfl

/-- Settled bytes hold what their calls asked for. Decoding needs nothing of what follows, since the
bytes of an instruction say where it ends. -/
theorem holds_of_assemblable (h : Assemblable calls) {code : List UInt8}
    (hcode : code = (places 0 calls).flatMap (settled (assemble calls).labels)) {i : Nat}
    {call : Call} (hcall : calls[i]? = some call) : Holds calls code i call := by
  obtain ⟨hdrop, hnext⟩ := drop_offset h hcall hcode
  constructor
  case raw =>
    rintro bytes rfl
    exact ⟨hdrop, hnext⟩
  case instruction =>
    intro hsome
    obtain ⟨found, inst, hstands, hinst, hsame⟩ := standsAs_settled h hcall hsome
    refine ⟨found, inst, ?_, ?_, ?_, hsame⟩
    · rw [hdrop, hstands.decode]
    · rw [hnext, hstands.size]
    · cases hgoal : call.target? with
      | none =>
          rw [Call.instruction?_of_target_none hgoal] at hinst ⊢
          exact hinst
      | some goal =>
          rw [← Instruction.arg_narrow, hsame, Instruction.arg_narrow, arg_of_target hgoal hinst]
          exact hinst
  case distance =>
    intro goal j found rest hgoal hj hdecode
    obtain ⟨found', inst, hstands, hinst, hsame⟩ :=
      standsAs_settled h hcall (Call.isSome_instruction? hgoal 0)
    rw [hdrop, hstands.decode] at hdecode
    cases hdecode
    have hlookup := (lookup_labels h.error).mpr ⟨j, hj, rfl⟩
    obtain ⟨target, hfound, hreach⟩ :=
      h.resolvable _ (List.mem_of_getElem? (place_mem h.error hcall)) goal hgoal
    obtain rfl := Option.some.inj (hlookup.symm.trans hfound)
    rw [← Instruction.arg_narrow, hsame, Instruction.arg_narrow, arg_of_target hgoal hinst,
      distance_eq hgoal hlookup, toInt_ofInt_of_reachable hreach]
    omega

/-! ### Executing the code -/

/-- What is fetched from code that stands in memory is what is decoded from it. The window of the
cache may show more than the code; decoding does not look that far. -/
theorem fetch_placed {m : Memory} (hm : m.Ordered) {c : CodeCache} (hc : c.Coherent m)
    (hsize : 0 < c.size) {base : UInt32} {code : List UInt8}
    (hread : m.read base code.length = .ok code) (hroom : base.toNat + code.length ≤ 2 ^ 32)
    {o : Nat} {inst : Instruction} {rest : List UInt8}
    (hdecode : Instruction.decode (code.drop o) = .ok (inst, rest)) :
    (fetch m (base + UInt32.ofNat o) c).outcome = .ok inst := by
  have ho : o < code.length := by
    by_contra hge
    rw [List.drop_eq_nil_of_le (by omega)] at hdecode
    cases hdecode
  obtain ⟨more, hmore⟩ := Memory.readableFrom_placed hm hread hroom ho
  have hne : m.readableFrom (base + UInt32.ofNat o) ≠ [] := by
    intro hnil
    have hlength := congrArg List.length (hnil.symm.trans hmore)
    rw [List.length_append, List.length_drop, List.length_nil] at hlength
    omega
  rw [fetch_of_readable hm hc hsize hne, hmore, decodeCode, Instruction.decode_append hdecode]

theorem eq_number_of_narrow {o : Operand} {v : Int32} {w : Bool}
    (h : o.narrow = (Operand.number v w).narrow) : ∃ wide, o = .number v wide := by
  cases o with
  | number value wide => cases h; exact ⟨wide, rfl⟩
  | _ => cases h

theorem eq_word_of_narrow {o : Operand} {v : Int32} (h : o.narrow = (Operand.word v).narrow) :
    o = .word v := by
  cases o with
  | word => cases h; rfl
  | _ => cases h

/-- An instruction that differs from one with three operands in the forms of these at most has three
operands with the same values. -/
theorem eq_of_narrow {found : Instruction} {opcode : UInt8} {x y z : Operand}
    (h : found.narrow = Instruction.narrow ⟨opcode, [x, y, z]⟩) :
    ∃ x' y' z', found = ⟨opcode, [x', y', z']⟩ ∧ x'.narrow = x.narrow ∧ y'.narrow = y.narrow ∧
      z'.narrow = z.narrow := by
  obtain ⟨byte, operands⟩ := found
  obtain ⟨rfl, hoperands⟩ := Instruction.mk.inj h
  obtain ⟨x', operands, rfl, hx, hoperands⟩ := List.map_eq_cons_iff.mp hoperands
  obtain ⟨y', operands, rfl, hy, hoperands⟩ := List.map_eq_cons_iff.mp hoperands
  obtain ⟨z', operands, rfl, hz, hoperands⟩ := List.map_eq_cons_iff.mp hoperands
  obtain rfl := List.map_eq_nil_iff.mp hoperands
  exact ⟨x', y', z', rfl, hx, hy, hz⟩

/-- The operation of a branch that is taken. However its operands stand in the code, they name the
registers and the constant that the call gave. -/
theorem Call.Taken.operation {call : Call} {f : Frame} (h : call.Taken f) {d : Int32}
    {found inst : Instruction} (hinst : call.instruction? d = some inst)
    (hsame : found.narrow = inst.narrow) :
    ∃ condition left right, Operation.ofInstruction found = .ok (.branch condition left right d) ∧
      condition.holds (f.get left) (f.source right) = true := by
  cases call with
  | branch condition left right goal =>
      cases hinst
      obtain ⟨l, r, hl, hr, hholds⟩ := h
      obtain ⟨x, y, z, rfl, hx, hy, hz⟩ := eq_of_narrow hsame
      obtain ⟨_, rfl⟩ := eq_number_of_narrow hx
      obtain ⟨_, rfl⟩ := eq_number_of_narrow hy
      obtain ⟨_, rfl⟩ := eq_number_of_narrow hz
      refine ⟨_, l, .register r, ?_, hholds⟩
      simp only [Operation.ofInstruction, (byte_branch condition).2, hl, hr, namedRegister_ofNat,
        bind, Except.bind, pure, Except.pure]
  | jump goal =>
      cases hinst
      obtain ⟨x, y, z, rfl, hx, hy, hz⟩ := eq_of_narrow hsame
      obtain ⟨_, rfl⟩ := eq_number_of_narrow hx
      obtain ⟨_, rfl⟩ := eq_number_of_narrow hy
      obtain ⟨_, rfl⟩ := eq_number_of_narrow hz
      refine ⟨.always, 0, .register 0, ?_, rfl⟩
      have hop : Opcode.ofByte? 0x46 = some (.branch .always) := by decide
      have hzero : Int64.toInt32 0 = Int32.ofNat (0 : Register) := by decide
      simp only [Operation.ofInstruction, hop, hzero, namedRegister_ofNat, bind, Except.bind, pure,
        Except.pure]
  | branchConst left constant goal =>
      cases hinst
      obtain ⟨l, hl, hvalue⟩ := h
      obtain ⟨x, y, z, rfl, hx, hy, hz⟩ := eq_of_narrow hsame
      obtain ⟨_, rfl⟩ := eq_number_of_narrow hx
      obtain rfl := eq_word_of_narrow hy
      obtain ⟨_, rfl⟩ := eq_number_of_narrow hz
      refine ⟨.eq, l, .constant constant, ?_, decide_eq_true hvalue⟩
      have hop : Opcode.ofByte? 0x4B = some .branchConst := by decide
      simp only [Operation.ofInstruction, hop, hl, namedRegister_ofNat, bind, Except.bind, pure,
        Except.pure]
  | _ => cases h

/-- A jump from one offset by the distance to another, with the code at `base`. Addresses wrap
around, and so does the sum: no bound on `base` is needed. -/
theorem add_distance {base : UInt32} {i j : Nat} {d : Int32} (h : (i : Int) + d.toInt = j) :
    base + UInt32.ofNat i + d.toUInt32 = base + UInt32.ofNat j := by
  have hd := Instruction.toUInt32_toNat d
  apply UInt32.toNat_inj.mp
  rw [UInt32.toNat_add, UInt32.toNat_add, UInt32.toNat_add, UInt32.toNat_ofNat',
    UInt32.toNat_ofNat']
  omega

/-- A processor is at offset `o` of code that stands in memory at `base`. Its cache is in step with
memory, and nothing is asked of the frames below. -/
structure AtOffset (p : Processor) (m : Memory) (base : UInt32) (code : List UInt8) (o : Nat)
    (f : Frame) (rest : List Frame) : Prop where
  built : m.Built
  coherent : p.cache.Coherent m
  cached : 0 < p.cache.size
  room : base.toNat + code.length ≤ 2 ^ 32
  placed : m.read base code.length = .ok code
  frames : p.frames = f :: rest
  pc : f.pc = base + UInt32.ofNat o

/-- A taken branch goes on at its distance and changes nothing else: memory, registers and the
frames below are as before. -/
theorem AtOffset.step_branch {p : Processor} {m : Memory} {base : UInt32} {code : List UInt8}
    {o : Nat} {f : Frame} {rest : List Frame} (h : AtOffset p m base code o f rest)
    {inst : Instruction} {more : List UInt8}
    (hdecode : Instruction.decode (code.drop o) = .ok (inst, more)) {condition : Comparison}
    {left : Register} {right : Source} {d : Int32}
    (hop : Operation.ofInstruction inst = .ok (.branch condition left right d))
    (htaken : condition.holds (f.get left) (f.source right) = true) :
    (p.step m).2 = (m, none) ∧
      (p.step m).1.frames = { f with pc := f.pc + d.toUInt32, last := f.pc } :: rest := by
  have hfetch : (fetch m f.pc p.cache).outcome = .ok inst := by
    rw [h.pc]
    exact fetch_placed h.built.ordered h.coherent h.cached h.placed h.room hdecode
  -- noting where the instruction starts leaves the registers alone
  have hholds : condition.holds (Frame.get { f with last := f.pc } left)
      (Frame.source { f with last := f.pc } right) = true := by
    rw [← htaken]
    cases right <;> rfl
  let start : Frame := { f with last := f.pc }
  have hcompletes : p.Completes m f rest
      ⟨start, inst, .branch condition left right d, { flow := .goto (f.pc + d.toUInt32) }⟩ := by
    refine ⟨h.frames, rfl, hfetch, hop, ?_⟩
    simp only [Operation.effect, start, hholds, if_true]
  rw [Processor.step_of_completes hcompletes, p.markStart_eq h.frames]
  exact ⟨rfl, rfl⟩

/-- Assembling gives code exactly if every instruction can be encoded, no label is bound twice, and
every branch to a label goes to a bound one in reach. The code then consists of what the calls asked
for, each found again where its call was made, and a taken branch to a label goes on where the label
was bound, wherever the code is placed.

The proof rests on lengths: a branch keeps its two bytes from the start, so resolving it moves
nothing (`length_settled`), and the offset of every call and label is settled before the first
branch is. -/
theorem assembled_code_follows_calls (calls : List Call) :
    ((∃ code, (assemble calls).finish.2 = .ok code) ↔ Assemblable calls) ∧
      ∀ code, (assemble calls).finish.2 = .ok code →
        code.length = (assemble calls).position ∧
        ∀ (i : Nat) (call : Call), calls[i]? = some call →
          Holds calls code i call ∧
          ∀ (goal : String) (j : Nat), call.target? = some goal → calls[j]? = some (.label goal) →
            ∀ (p : Processor) (m : Memory) (base : UInt32) (f : Frame) (rest : List Frame),
              AtOffset p m base code (offset calls i) f rest → call.Taken f →
                (p.step m).2 = (m, none) ∧
                  (p.step m).1.frames =
                    { f with pc := base + UInt32.ofNat (offset calls j), last := f.pc } ::
                      rest := by
  constructor
  · constructor
    · rintro ⟨code, hok⟩
      exact (finish_assemble.mp hok).1
    · intro h
      exact ⟨_, finish_assemble.mpr ⟨h, rfl⟩⟩
  intro code hok
  obtain ⟨h, hcode⟩ := finish_assemble.mp hok
  have hlength : code.length = (assemble calls).position := by
    have hall := length_flatMap_settled h.encodable h.resolvable calls.length
    rwa [← length_places calls 0, List.take_length, ← hcode, length_places, ← offset_eq h.error,
      offset, List.take_length] at hall
  refine ⟨hlength, fun i call hcall => ?_⟩
  have hholds := holds_of_assemblable h hcode hcall
  refine ⟨hholds, ?_⟩
  intro goal j hgoal hj p m base f rest hat htaken
  obtain ⟨found, inst, hdecode, -, hinst, hsame⟩ :=
    hholds.instruction (Call.isSome_instruction? hgoal 0)
  obtain ⟨condition, left, right, hop, htrue⟩ := htaken.operation hinst hsame
  have hreach := hholds.distance goal j found _ hgoal hj hdecode
  obtain ⟨hmemory, hframes⟩ := hat.step_branch hdecode hop htrue
  refine ⟨hmemory, ?_⟩
  rw [hframes, hat.pc, add_distance hreach]

/-- Counts a word of memory down to zero: a branch forward past a raw byte, and one back to the
start. -/
def countdown : List Call :=
  [.label "loop", .decrement 20 21 0, .branchConst 20 0 "done", .raw [0x4A], .jump "loop",
    .label "done", .ret]

/-- The code of `countdown`. -/
def countdownCode : List UInt8 :=
  [0x4D, 20, 21, 0, 0x4B, 20, 0, 0, 0, 0, 0x80, 14, 0x4A, 0x46, 0, 0, 0xFF, 0xF3, 0x49]

theorem assembled_code_follows_calls_countdown :
    let m : Memory := .region (.ofBytes "rom" 0x100 countdownCode ⟨true, false⟩)
    let p := (Processor.ofOptions 0 0).enter 0x104 []
    let f := Frame.enter none 0x104 [] (some 0)
    let leave : Call := .branchConst 20 0 "done"
    (assemble countdown).finish.2 = .ok countdownCode ∧ Assemblable countdown ∧
      Holds countdown countdownCode 2 leave ∧ Holds countdown countdownCode 4 (.jump "loop") ∧
      AtOffset p m 0x100 countdownCode (offset countdown 2) f [] ∧ leave.Taken f ∧
      (p.step m).2 = (m, none) ∧ (p.step m).1.frames = [{ f with pc := 0x112, last := 0x104 }] := by
  intro m p f leave
  have hok : (assemble countdown).finish.2 = .ok countdownCode := by decide +kernel
  obtain ⟨hiff, hcode⟩ := assembled_code_follows_calls countdown
  obtain ⟨-, hcalls⟩ := hcode _ hok
  obtain ⟨hholds, hbranch⟩ := hcalls 2 leave rfl
  have hat : AtOffset p m 0x100 countdownCode (offset countdown 2) f [] :=
    { built := .region _
      coherent := fun w hw => by cases hw
      cached := CodeCache.size_ofOptions_pos 0 0
      room := by decide
      placed := by decide +kernel
      frames := rfl
      pc := by decide +kernel }
  have htaken : leave.Taken f := ⟨20, by decide, by decide⟩
  refine ⟨hok, hiff.mp ⟨_, hok⟩, hholds, (hcalls 4 (.jump "loop") rfl).1, hat, htaken, ?_⟩
  exact hbranch "done" 5 rfl rfl p m 0x100 f [] hat htaken

end Assembler

end RegisterVM
