import RegisterVM.Proofs.AssembledCode

/-!
# Finishing at any time

Asking an assembler for its bytes writes distances into its own code, and may stop on the way at a
label that is not bound yet. That leaves no trace: the bytes in which the code of two assemblers may
then differ are the two kept for each branch, and whenever bytes are given again all of these have
been written anew. `Alike` says so of two assemblers, every request keeps it (`Alike.apply`,
`alike_finish`), and what a request shows is the same for both.

The bytes that are given out stand in an array of their own. `Workbench` keeps the arrays apart: the
code is written in place or moved to a new array as it grows, and an array given out is never the
one that is written.
-/

namespace RegisterVM

namespace Assembler

/-- What is asked of an assembler: a call, or the bytes of all calls so far. The second may come at
any time and any number of times. -/
inductive Request where
  | call (made : Call)
  | finish

/-- What a request shows: the offset after it and, if the bytes were asked for, these or why there
are none. -/
structure Answer where
  position : Nat
  outcome : Option (Except AssemblyError (List UInt8))
  deriving DecidableEq

namespace Request

/-- The assembler after a request. -/
def apply (a : Assembler) : Request → Assembler
  | .call made => made.apply a
  | .finish => a.finish.1

/-- What a request to an assembler shows. -/
def answer (a : Assembler) : Request → Answer
  | .call made => ⟨(made.apply a).position, none⟩
  | .finish => ⟨a.finish.1.position, some a.finish.2⟩

end Request

/-- Requests made one after the other, with what they show. Two assemblers with the same transcripts
cannot be told apart by a program that uses them. -/
def transcript (a : Assembler) : List Request → List (Request × Answer)
  | [] => []
  | request :: requests => (request, request.answer a) :: transcript (request.apply a) requests

/-- The second list is the first with elements of a kind put in anywhere. Which of two equal
neighbours was put in is left open, since nothing depends on it. -/
inductive Inserted {α : Type} (kind : α → Prop) : List α → List α → Prop
  | nil : Inserted kind [] []
  | keep (x : α) {xs ys : List α} : Inserted kind xs ys → Inserted kind (x :: xs) (x :: ys)
  | insert {y : α} {xs ys : List α} : kind y → Inserted kind xs ys → Inserted kind xs (y :: ys)

/-! ### Codes that differ where distances are written -/

/-- The byte at an offset is kept for none of the branches. -/
def Fixed (sites : List BranchSite) (i : Nat) : Prop :=
  ∀ site ∈ sites, i ≠ site.field ∧ i ≠ site.field + 1

/-- Two codes have the same bytes but for those that are kept for branches. It is the relation
between the code before and after distances were written into it. -/
structure AgreeOutside (sites : List BranchSite) (code code' : Array UInt8) : Prop where
  size : code.size = code'.size
  bytes : ∀ i, Fixed sites i → code[i]? = code'[i]?

theorem AgreeOutside.refl (sites : List BranchSite) (code : Array UInt8) :
    AgreeOutside sites code code := ⟨rfl, fun _ _ => rfl⟩

theorem AgreeOutside.symm {sites : List BranchSite} {code code' : Array UInt8}
    (h : AgreeOutside sites code code') : AgreeOutside sites code' code :=
  ⟨h.size.symm, fun i hi => (h.bytes i hi).symm⟩

theorem AgreeOutside.trans {sites : List BranchSite} {code code' code'' : Array UInt8}
    (h : AgreeOutside sites code code') (h' : AgreeOutside sites code' code'') :
    AgreeOutside sites code code'' :=
  ⟨h.size.trans h'.size, fun i hi => (h.bytes i hi).trans (h'.bytes i hi)⟩

/-- More branches leave fewer bytes to agree in. A call that adds a branch therefore keeps the
relation. -/
theorem AgreeOutside.mono {sites sites' : List BranchSite} {code code' : Array UInt8}
    (h : AgreeOutside sites code code') (hsub : sites ⊆ sites') : AgreeOutside sites' code code' :=
  ⟨h.size, fun i hi => h.bytes i fun site hsite => hi site (hsub hsite)⟩

theorem AgreeOutside.eq {code code' : Array UInt8} (h : AgreeOutside [] code code') :
    code = code' :=
  Array.ext_getElem? fun i => h.bytes i (List.forall_mem_nil _)

theorem AgreeOutside.append {sites : List BranchSite} {code code' : Array UInt8}
    (h : AgreeOutside sites code code') (bytes : List UInt8) :
    AgreeOutside sites (code.toList ++ bytes).toArray (code'.toList ++ bytes).toArray := by
  refine ⟨by simp [h.size], ?_⟩
  intro i hi
  simp only [List.getElem?_toArray, List.getElem?_append, Array.length_toList,
    Array.getElem?_toList, h.size, h.bytes i hi]

theorem size_patch (code : Array UInt8) (site : BranchSite) (distance : Int) :
    (patch code site distance).size = code.size := by
  simp [patch]

theorem getElem?_patch (code : Array UInt8) (site : BranchSite) (distance : Int) (i : Nat) :
    (patch code site distance)[i]? =
      if i = site.field + 1 then
        if i < code.size then
          some (UInt8.ofNat (Instruction.jumpField (Int32.ofInt distance)))
        else none
      else if i = site.field then
        if i < code.size then
          some (UInt8.ofNat (0x80 + Instruction.jumpField (Int32.ofInt distance) / 256))
        else none
      else code[i]? := by
  simp only [patch, Array.getElem?_setIfInBounds, Array.size_setIfInBounds]
  grind

/-- A distance is written to both codes in the same way, so afterwards they agree in its two bytes
as well. Resolving all branches makes the codes equal by this, one branch at a time. -/
theorem AgreeOutside.patch {site : BranchSite} {sites : List BranchSite} {code code' : Array UInt8}
    (h : AgreeOutside (site :: sites) code code') (distance : Int) :
    AgreeOutside sites (patch code site distance) (Assembler.patch code' site distance) := by
  refine ⟨?_, fun i hi => ?_⟩
  · rw [size_patch, size_patch, h.size]
  · rw [getElem?_patch, getElem?_patch, h.size]
    by_cases hlast : i = site.field + 1
    · rw [if_pos hlast, if_pos hlast]
    · by_cases hfirst : i = site.field
      · rw [if_neg hlast, if_neg hlast, if_pos hfirst, if_pos hfirst]
      · rw [if_neg hlast, if_neg hlast, if_neg hfirst, if_neg hfirst]
        exact h.bytes i (List.forall_mem_cons.mpr ⟨⟨hfirst, hlast⟩, hi⟩)

theorem agreeOutside_patch (code : Array UInt8) {site : BranchSite} {sites : List BranchSite}
    (hsite : site ∈ sites) (distance : Int) :
    AgreeOutside sites (patch code site distance) code := by
  refine ⟨size_patch code site distance, fun i hi => ?_⟩
  obtain ⟨hfirst, hlast⟩ := hi site hsite
  rw [getElem?_patch, if_neg hlast, if_neg hfirst]

/-! ### Resolving twice -/

/-- All that resolving the first of some branches can do: stop at it, whatever the code, or write
its distance and go on. Labels and offsets decide which, and no byte of the code does. -/
theorem resolve_cons_cases (labels : List (String × Nat)) (site : BranchSite)
    (sites : List BranchSite) :
    (∃ e, ∀ code, resolve labels code (site :: sites) = (code, some e)) ∨
      ∃ distance, ∀ code,
        resolve labels code (site :: sites) = resolve labels (patch code site distance) sites := by
  simp only [resolve]
  cases labels.lookup site.label with
  | none => exact .inl ⟨_, fun _ => rfl⟩
  | some target =>
      dsimp only
      split
      · exact .inl ⟨_, fun _ => rfl⟩
      · exact .inr ⟨_, fun _ => rfl⟩

/-- Resolving writes nothing but the bytes kept for the branches, also where it stops half-way. -/
theorem agreeOutside_resolve (labels : List (String × Nat)) (code : Array UInt8)
    (sites : List BranchSite) : AgreeOutside sites (resolve labels code sites).1 code := by
  induction sites generalizing code with
  | nil => exact .refl [] code
  | cons site sites ih =>
      obtain ⟨e, hstop⟩ | ⟨distance, hgo⟩ := resolve_cons_cases labels site sites
      · rw [hstop]
        exact .refl _ code
      · rw [hgo]
        have hrest :=
          (ih (Assembler.patch code site distance)).mono (List.subset_cons_self site sites)
        exact hrest.trans (agreeOutside_patch code List.mem_cons_self distance)

/-- Codes that differ only in the bytes kept for the branches are resolved with the same outcome,
and to the same code if all branches can be resolved. By induction on the branches: each one that is
resolved takes its two bytes out of the difference. -/
theorem AgreeOutside.resolve {sites : List BranchSite} {code code' : Array UInt8}
    (h : AgreeOutside sites code code') (labels : List (String × Nat)) :
    (resolve labels code sites).2 = (Assembler.resolve labels code' sites).2 ∧
      ((Assembler.resolve labels code sites).2 = none →
        Assembler.resolve labels code sites = Assembler.resolve labels code' sites) := by
  induction sites generalizing code code' with
  | nil => exact ⟨rfl, fun _ => by rw [h.eq]⟩
  | cons site sites ih =>
      obtain ⟨e, hstop⟩ | ⟨distance, hgo⟩ := resolve_cons_cases labels site sites
      · rw [hstop, hstop]
        exact ⟨rfl, nofun⟩
      · rw [hgo, hgo]
        exact ih (h.patch distance)

/-! ### Assemblers that differ where distances are written -/

/-- Two assemblers are the same but for bytes that are kept for branches. It is an equivalence, and
every request keeps it; so it is all that has to be known of an assembler that was asked too
early. -/
structure Alike (a b : Assembler) : Prop where
  labels : a.labels = b.labels
  sites : a.sites = b.sites
  error : a.error = b.error
  code : AgreeOutside a.sites a.code b.code

theorem Alike.refl (a : Assembler) : Alike a a := ⟨rfl, rfl, rfl, .refl _ _⟩

theorem Alike.symm {a b : Assembler} (h : Alike a b) : Alike b a :=
  ⟨h.labels.symm, h.sites.symm, h.error.symm, h.sites ▸ h.code.symm⟩

theorem Alike.trans {a b c : Assembler} (h : Alike a b) (h' : Alike b c) : Alike a c :=
  ⟨h.labels.trans h'.labels, h.sites.trans h'.sites, h.error.trans h'.error,
    h.code.trans (h.sites ▸ h'.code)⟩

theorem Alike.position {a b : Assembler} (h : Alike a b) : a.position = b.position := h.code.size

/-- An assembler that was asked for its bytes is like it was before, whether it gave them or stopped
at a label that is not bound yet. -/
theorem alike_finish (a : Assembler) : Alike a.finish.1 a := by
  have hcode : AgreeOutside a.sites (resolve a.labels a.code a.sites.reverse).1 a.code :=
    (agreeOutside_resolve a.labels a.code a.sites.reverse).mono fun _ => List.mem_reverse.mp
  rw [finish]
  cases herror : a.error with
  | some e => exact .refl a
  | none =>
      cases hresolve : resolve a.labels a.code a.sites.reverse with
      | mk code outcome =>
          rw [hresolve] at hcode
          cases outcome <;> exact ⟨rfl, rfl, herror.symm, hcode⟩

/-- Assemblers that are alike give the same bytes, or none for the same reason. They give bytes only
when all branches have been resolved, and then nothing is left in which they could differ. -/
theorem Alike.finish {a b : Assembler} (h : Alike a b) : a.finish.2 = b.finish.2 := by
  have hsites : AgreeOutside a.sites.reverse a.code b.code :=
    h.code.mono fun _ => List.mem_reverse.mpr
  obtain ⟨houtcome, hsame⟩ := hsites.resolve a.labels
  rw [Assembler.finish, Assembler.finish, ← h.labels, ← h.sites, ← h.error]
  cases a.error with
  | some e => rfl
  | none =>
      cases hresolve : Assembler.resolve a.labels a.code a.sites.reverse with
      | mk code outcome =>
          rw [hresolve] at houtcome hsame
          cases outcome with
          | none => rw [← hsame rfl]
          | some e =>
              cases hresolve' : Assembler.resolve a.labels b.code a.sites.reverse with
              | mk code' outcome' =>
                  rw [hresolve'] at houtcome
                  cases houtcome
                  rfl

theorem Alike.raw {a b : Assembler} (h : Alike a b) (bytes : List UInt8) :
    Alike (a.raw bytes) (b.raw bytes) := by
  rw [Call.raw_eq, Call.raw_eq]
  exact ⟨h.labels, h.sites, h.error, h.code.append bytes⟩

theorem Alike.emit {a b : Assembler} (h : Alike a b) (inst : Instruction) :
    Alike (a.emit inst) (b.emit inst) := by
  rw [Assembler.emit, Assembler.emit, ← h.error]
  cases a.error with
  | some e => exact h
  | none =>
      cases inst.encode with
      | error cause => exact ⟨h.labels, h.sites, rfl, h.code⟩
      | ok bytes => exact h.raw bytes

/-- A call keeps assemblers alike. It looks at the length of the code and at the labels, which are
the same, and adds the same bytes. -/
theorem Alike.apply {a b : Assembler} (h : Alike a b) (call : Call) :
    Alike (call.apply a) (call.apply b) := by
  rcases call.cases_instruction with ⟨name, rfl⟩ | ⟨bytes, rfl⟩ | ⟨inst, hinst⟩
  · have hposition := h.position
    refine ⟨?_, h.sites, ?_, h.code⟩
    · simp only [Call.apply, label, h.labels, hposition]
    · simp only [Call.apply, label, h.labels, h.error]
  · exact h.raw bytes
  · have hemit := h.emit inst
    rw [Call.apply_instruction hinst, Call.apply_instruction hinst]
    cases call.target? with
    | none => exact hemit
    | some goal =>
        -- the branch starts at the same offset and keeps the same two bytes, which may differ from
        -- now on
        refine ⟨hemit.labels, ?_, hemit.error, hemit.code.mono (List.subset_cons_self _ _)⟩
        simp only [Option.elim_some, hemit.sites, hemit.position, h.position]

/-- Requests to assemblers that are alike show the same: an offset, which is the length of the code,
and for the bytes what `Alike.finish` says. -/
theorem Alike.answer {a b : Assembler} (h : Alike a b) (request : Request) :
    request.answer a = request.answer b := by
  cases request with
  | call made => simp only [Request.answer, (h.apply made).position]
  | finish =>
      have hafter := ((alike_finish a).trans h).trans (alike_finish b).symm
      simp only [Request.answer, hafter.position, h.finish]

theorem Alike.request {a b : Assembler} (h : Alike a b) (request : Request) :
    Alike (request.apply a) (request.apply b) := by
  cases request with
  | call made => exact h.apply made
  | finish => exact ((alike_finish a).trans h).trans (alike_finish b).symm

/-- Assemblers that are alike show the same from then on. -/
theorem Alike.transcript {a b : Assembler} (h : Alike a b) (requests : List Request) :
    transcript a requests = Assembler.transcript b requests := by
  induction requests generalizing a b with
  | nil => rfl
  | cons request requests ih =>
      rw [Assembler.transcript, Assembler.transcript, h.answer request, ih (h.request request)]

/-- Requests for the bytes that are put in between show up as themselves and change nothing else.
The induction carries two assemblers that are alike, one of which has had the requests put in. -/
theorem Inserted.transcript {requests more : List Request}
    (hinserted : Inserted (· = .finish) requests more) {a b : Assembler} (h : Alike a b) :
    Inserted (fun entry => entry.1 = .finish) (transcript a requests)
        (Assembler.transcript b more) := by
  induction hinserted generalizing a b with
  | nil => exact .nil
  | keep request _ ih =>
      rw [Assembler.transcript, Assembler.transcript, h.answer request]
      exact .keep _ (ih (h.request request))
  | insert hrequest _ ih =>
      subst hrequest
      exact .insert rfl (ih (h.trans (alike_finish b).symm))

/-! ### Distances stay inside the code -/

/-- As long as there is no error, the bytes kept for branches lie in the code, so that writing a
distance never falls outside it. -/
def SitesInside (a : Assembler) : Prop :=
  a.error = none → ∀ site ∈ a.sites, site.field + 1 < a.position

theorem SitesInside.congr {a b : Assembler} (hab : Alike a b) (h : SitesInside b) :
    SitesInside a := by
  rw [SitesInside, hab.error, hab.sites, hab.position]
  exact h

/-- A branch ends in the two bytes that it keeps, so they are the last of the code when they are
noted, and the code only grows. -/
theorem SitesInside.apply {a : Assembler} (h : SitesInside a) (call : Call) :
    SitesInside (call.apply a) := by
  intro herror
  obtain ⟨ha, haccepted⟩ := Call.error_apply.mp herror
  have hposition : (call.apply a).position = a.position + (call.bytes 0).length := by
    rw [haccepted.apply_eq ha]
    simp [position]
  have hsites : (call.apply a).sites = (call.site? a.position).toList ++ a.sites := by
    rw [haccepted.apply_eq ha]
  rw [hposition, hsites]
  intro site hsite
  rcases List.mem_append.mp hsite with hnew | hold
  · simp only [Call.site?, Option.mem_toList, Option.map_eq_some_iff] at hnew
    obtain ⟨goal, hgoal, rfl⟩ := hnew
    obtain ⟨front, hfront⟩ := Call.bytes_of_target hgoal haccepted.encodable
    have hlength : (call.bytes 0).length = front.length + 2 := by
      rw [(hfront 0 ⟨by decide, by decide⟩).2, List.length_append, Instruction.length_writeVariable,
        if_pos rfl]
    dsimp only
    omega
  · exact Nat.lt_add_right _ (h ha site hold)

theorem SitesInside.foldl {a : Assembler} (h : SitesInside a) (requests : List Request) :
    SitesInside (requests.foldl Request.apply a) := by
  induction requests generalizing a with
  | nil => exact h
  | cons request requests ih =>
      apply ih
      cases request with
      | call made => exact h.apply made
      | finish => exact h.congr (alike_finish a)

/-! ### Arrays -/

/-- An assembler among arrays of bytes, which are numbered as they are made. Its code stands in one
of them and is written there. -/
structure Workbench where
  arrays : List (Array UInt8)
  /-- The number of the array that holds the code. -/
  home : Nat
  labels : List (String × Nat)
  sites : List BranchSite
  error : Option AssemblyError

namespace Workbench

/-- A workbench with an empty code. -/
def start : Workbench := ⟨[#[]], 0, [], [], none⟩

/-- The assembler on a workbench. -/
def assembler (w : Workbench) : Assembler := ⟨w.arrays.getD w.home #[], w.labels, w.sites, w.error⟩

/-- Writes what an assembler has come to: its code in place, or in a new array if it moves. -/
def write (w : Workbench) (a : Assembler) (moves : Bool) : Workbench :=
  if moves then ⟨w.arrays ++ [a.code], w.arrays.length, a.labels, a.sites, a.error⟩
  else ⟨w.arrays.set w.home a.code, w.home, a.labels, a.sites, a.error⟩

/-- Puts some bytes into an array of their own. -/
def give (w : Workbench) (bytes : List UInt8) : Workbench :=
  { w with arrays := w.arrays ++ [bytes.toArray] }

/-- Makes a request, and gives the number of the array with the bytes if there are bytes. Code that
grows may move to a new array; distances are written in place, and the bytes are given as a copy. -/
def perform (w : Workbench) (moves : Bool) : Request → Workbench × Option Nat
  | .call made => (w.write (made.apply w.assembler) moves, none)
  | .finish =>
      let patched := w.write w.assembler.finish.1 false
      match w.assembler.finish.2 with
      | .error _ => (patched, none)
      | .ok bytes => (patched.give bytes, some patched.arrays.length)

/-- Makes requests one after the other, and gives the numbers of the arrays with the bytes. -/
def run (w : Workbench) : List (Request × Bool) → Workbench × List (Option Nat)
  | [] => (w, [])
  | (request, moves) :: rest =>
      let done := w.perform moves request
      let others := done.1.run rest
      (others.1, done.2 :: others.2)

/-- There is an array for the code. -/
def Sound (w : Workbench) : Prop := w.home < w.arrays.length

/-- An array holds some bytes, and the code stands in another one. -/
structure Given (w : Workbench) (number : Nat) (bytes : List UInt8) : Prop where
  holds : w.arrays[number]? = some bytes.toArray
  apart : number ≠ w.home

/-- What was given for an answer: an array with the bytes, if there are bytes, and none
otherwise. -/
def Delivers (w : Workbench) (entry : Request × Answer) (number : Option Nat) : Prop :=
  ∀ bytes, entry.2.outcome = some (.ok bytes) → ∃ n, number = some n ∧ w.Given n bytes

theorem sound_write {w : Workbench} (h : w.Sound) (a : Assembler) (moves : Bool) :
    (w.write a moves).Sound := by
  cases moves <;> simp_all [Sound, write]

theorem assembler_write {w : Workbench} (h : w.Sound) (a : Assembler) (moves : Bool) :
    (w.write a moves).assembler = a := by
  cases moves with
  | true => simp [write, assembler]
  | false => simp_all [Sound, write, assembler]

/-- Writing the code leaves arrays that were given out alone. -/
theorem Given.write {w : Workbench} {number : Nat} {bytes : List UInt8} (h : w.Given number bytes)
    (a : Assembler) (moves : Bool) : (w.write a moves).Given number bytes := by
  obtain ⟨hlt, hholds⟩ := List.getElem?_eq_some_iff.mp h.holds
  cases moves with
  | true =>
      refine ⟨?_, ?_⟩
      · simp only [Workbench.write, if_true]
        rw [List.getElem?_append_left hlt]
        exact h.holds
      · exact Nat.ne_of_lt hlt
  | false =>
      refine ⟨?_, h.apart⟩
      simp only [Workbench.write, Bool.false_eq_true, if_false]
      rw [List.getElem?_set_ne (Ne.symm h.apart)]
      exact h.holds

theorem Given.give {w : Workbench} {number : Nat} {bytes : List UInt8} (h : w.Given number bytes)
    (others : List UInt8) : (w.give others).Given number bytes := by
  obtain ⟨hlt, hholds⟩ := List.getElem?_eq_some_iff.mp h.holds
  refine ⟨?_, h.apart⟩
  rw [Workbench.give, List.getElem?_append_left hlt]
  exact h.holds

theorem sound_give {w : Workbench} (h : w.Sound) (bytes : List UInt8) : (w.give bytes).Sound := by
  rw [Sound, give, List.length_append]
  exact Nat.lt_add_right _ h

theorem assembler_give {w : Workbench} (h : w.Sound) (bytes : List UInt8) :
    (w.give bytes).assembler = w.assembler := by
  simp only [assembler, give, List.getD_append _ _ _ _ h]

/-- The bytes stand in the array that was made for them, which is not the one of the code. -/
theorem given_give {w : Workbench} (h : w.Sound) (bytes : List UInt8) :
    (w.give bytes).Given w.arrays.length bytes := by
  refine ⟨?_, Nat.ne_of_gt h⟩
  rw [give, List.getElem?_concat_length]

/-- What one request does: the assembler makes it, arrays given out before stay as they are, and the
bytes it shows stand in an array that it gives. -/
theorem perform_spec {w : Workbench} (hw : w.Sound) (moves : Bool) (request : Request) :
    (w.perform moves request).1.Sound ∧
      (w.perform moves request).1.assembler = request.apply w.assembler ∧
      (∀ number bytes, w.Given number bytes → (w.perform moves request).1.Given number bytes) ∧
      (w.perform moves request).1.Delivers (request, request.answer w.assembler)
        (w.perform moves request).2 := by
  cases request with
  | call made =>
      refine ⟨sound_write hw _ moves, assembler_write hw _ moves, fun _ _ h => h.write _ moves, ?_⟩
      intro bytes hbytes
      cases hbytes
  | finish =>
      have hpatched := sound_write hw w.assembler.finish.1 false
      simp only [perform]
      cases houtcome : w.assembler.finish.2 with
      | error e =>
          refine ⟨hpatched, assembler_write hw _ false, fun _ _ h => h.write _ false, ?_⟩
          intro bytes hbytes
          simp [Request.answer, houtcome] at hbytes
      | ok code =>
          refine ⟨sound_give hpatched code, ?_, fun _ _ h => (h.write _ false).give code, ?_⟩
          · rw [assembler_give hpatched, assembler_write hw]
            rfl
          · intro bytes hbytes
            simp only [Request.answer, houtcome, Option.some.injEq, Except.ok.injEq] at hbytes
            subst hbytes
            exact ⟨_, rfl, given_give hpatched code⟩

/-- What a sequence of requests does, and that whatever it gave still stands at its end. -/
theorem run_spec {w : Workbench} (hw : w.Sound) (requests : List (Request × Bool)) :
    (w.run requests).1.assembler = (requests.map Prod.fst).foldl Request.apply w.assembler ∧
      (∀ number bytes, w.Given number bytes → (w.run requests).1.Given number bytes) ∧
      List.Forall₂ (w.run requests).1.Delivers (transcript w.assembler (requests.map Prod.fst))
        (w.run requests).2 := by
  induction requests generalizing w with
  | nil => exact ⟨rfl, fun _ _ h => h, .nil⟩
  | cons entry rest ih =>
      obtain ⟨request, moves⟩ := entry
      obtain ⟨hsound, hassembler, hkept, hdelivers⟩ := perform_spec hw moves request
      obtain ⟨hlast, hkept', hdelivers'⟩ := ih hsound
      rw [hassembler] at hlast hdelivers'
      refine ⟨hlast, fun number bytes h => hkept' _ _ (hkept _ _ h), .cons ?_ hdelivers'⟩
      -- what this request gave is kept by the ones after it
      intro bytes hbytes
      obtain ⟨n, hn, hgiven⟩ := hdelivers bytes hbytes
      exact ⟨n, hn, hkept' _ _ hgiven⟩

end Workbench

/-- The bytes can be asked for at any time without effect on the outcome. After it an assembler
shows what it would have shown without, whatever is asked of it later. So requests for the bytes put
in anywhere among others, failing ones included, change neither the offset after any of these nor
the bytes or the error that any of them shows. Every distance is written inside the code. On a
workbench, however the code moves as it grows, all bytes that were given stand at the end as they
were given.

Asking changes only bytes kept for branches (`alike_finish`), and no request shows those before it
has written them anew. -/
theorem finish_leaves_no_trace {requests more : List Request}
    (hinserted : Inserted (· = .finish) requests more) :
    Inserted (fun entry => entry.1 = .finish) (transcript {} requests) (transcript {} more) ∧
      (∀ (a : Assembler) (later : List Request), transcript a.finish.1 later = transcript a later) ∧
      SitesInside (more.foldl Request.apply {}) ∧
      ∀ moving : List (Request × Bool), moving.map Prod.fst = more →
        (Workbench.start.run moving).1.assembler = more.foldl Request.apply {} ∧
          List.Forall₂ (Workbench.start.run moving).1.Delivers (transcript {} more)
            (Workbench.start.run moving).2 := by
  refine ⟨hinserted.transcript (.refl {}), fun a => (alike_finish a).transcript, ?_, ?_⟩
  · refine SitesInside.foldl (fun _ site hsite => ?_) more
    cases hsite
  · rintro moving rfl
    obtain ⟨hassembler, -, hdelivers⟩ :=
      Workbench.run_spec (w := Workbench.start) (Nat.zero_lt_one) moving
    exact ⟨hassembler, hdelivers⟩

/-- Two branches forward, asked for too early: before any label is bound, and when the first branch
can be resolved and the second not. -/
def twoForward : List Request :=
  [.finish, .call (.jump "near"), .call (.jump "far"), .finish, .call (.label "near"), .call .ret,
    .finish, .call (.label "far"), .call .ret, .finish]

/-- The bytes of `twoForward`. -/
def twoForwardCode : List UInt8 := [0x46, 0, 0, 0x80, 10, 0x46, 0, 0, 0x80, 6, 0x49, 0x49]

theorem finish_leaves_no_trace_twoForward :
    let once : List Request := [.call (.jump "near"), .call (.jump "far"), .call (.label "near"),
      .call .ret, .call (.label "far"), .call .ret, .finish]
    Inserted (· = .finish) once twoForward ∧
      Inserted (fun entry => entry.1 = .finish) (transcript {} once) (transcript {} twoForward) ∧
      ((transcript {} twoForward).map Prod.snd)[6]? =
        some ⟨11, some (.error (.undefinedLabel "far"))⟩ ∧
      ((transcript {} twoForward).map Prod.snd)[9]? = some ⟨12, some (.ok twoForwardCode)⟩ := by
  intro once
  have hinserted : Inserted (· = .finish) once twoForward :=
    .insert rfl (.keep _ (.keep _ (.insert rfl (.keep _ (.keep _ (.insert rfl
      (.keep _ (.keep _ (.keep _ .nil)))))))))
  exact ⟨hinserted, (finish_leaves_no_trace hinserted).1, by decide +kernel, by decide +kernel⟩

end Assembler

end RegisterVM
