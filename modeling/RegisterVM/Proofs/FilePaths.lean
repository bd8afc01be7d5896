import Mathlib
import RegisterVM.Files.Tree

/-!
# Where paths lead

A path may go back and forth before it arrives. Cleaning it takes the detours out, one part after
the other, and does not change where it leads: `Tree.follow_descend` is the step and
`Tree.follow_stack` the whole path. This holds where the path leads somewhere; a clean path may lead
somewhere although the detours taken out of it did not.

A path joined from a directory and a name therefore leads to what the directory has under that name
(`Tree.find_join`), however the directory is spelled.
-/

namespace RegisterVM.Files

namespace Path

/-- A part that can stand in a clean path: it is not empty, does not stand for the directory itself,
and holds no character that divides or ends a path. A step up can stand there, in front. -/
@[mk_iff]
structure Proper (part : String) : Prop where
  nonempty : part ≠ ""
  notHere : part ≠ "."
  slash : '/' ∉ part.toList
  nul : '\x00' ∉ part.toList

instance : DecidablePred Proper := fun part => decidable_of_iff' _ (proper_iff part)

theorem proper_up : Proper ".." := by decide

/-! ### Taking a path apart -/

/-- What a list is split into has no divider and nothing but what was there. -/
theorem mem_splitOn {α : Type} [BEq α] [LawfulBEq α] {a : α} {xs l : List α}
    (h : l ∈ xs.splitOn a) : a ∉ l ∧ l ⊆ xs := by
  induction xs generalizing l with
  | nil => simp_all
  | cons x xs ih =>
      rw [List.splitOn_cons_eq_if_modifyHead] at h
      split at h
      · rcases List.mem_cons.mp h with rfl | hrest
        · simp
        · exact ⟨(ih hrest).1, fun _ hy => List.mem_cons_of_mem x ((ih hrest).2 hy)⟩
      · rename_i hx
        cases hsplit : xs.splitOn a with
        | nil => exact absurd hsplit (List.splitOn_ne_nil a xs)
        | cons first rest =>
            rw [hsplit] at h ih
            rw [List.modifyHead_cons] at h
            rcases List.mem_cons.mp h with rfl | hrest
            · obtain ⟨hfree, hsub⟩ := ih List.mem_cons_self
              grind
            · obtain ⟨hfree, hsub⟩ := ih (List.mem_cons_of_mem first hrest)
              exact ⟨hfree, fun _ hy => List.mem_cons_of_mem x (hsub hy)⟩

/-- The parts of a path hold no slashes, and no characters but its own. -/
theorem mem_parts {path part : String} (h : part ∈ parts path) :
    '/' ∉ part.toList ∧ part.toList ⊆ path.toList := by
  obtain ⟨l, hl, rfl⟩ := List.mem_map.mp h
  rw [String.toList_ofList]
  exact mem_splitOn hl

theorem parts_of_slash_not_mem {name : String} (h : '/' ∉ name.toList) : parts name = [name] := by
  rw [parts, List.splitOn_eq_singleton h]
  simp

theorem parts_append_slash (front back : String) :
    parts (front ++ "/" ++ back) = parts front ++ parts back := by
  have hlist : (front ++ "/" ++ back).toList = front.toList ++ '/' :: back.toList := by simp
  rw [parts, hlist, List.splitOn_append_cons_self, List.map_append]
  rfl

/-- Parts without slashes are the parts of the path that they are put together to. So cleaning can
be described by parts alone. -/
theorem parts_intercalate {ps : List String} (hps : ps ≠ []) (h : ∀ p ∈ ps, '/' ∉ p.toList) :
    parts ("/".intercalate ps) = ps := by
  have hlist : ("/".intercalate ps).toList = ['/'].intercalate (ps.map String.toList) := by simp
  rw [parts, hlist, List.splitOn_intercalate]
  · simp [Function.comp_def]
  · simpa using h
  · simpa using hps

/-! ### Cleaning -/

/-- The parts of a path after cleaning, nearest first. A step up takes the nearest one away. -/
def stack (path : String) : List String := (parts path).foldl (descend (isRooted path)) []

theorem descend_of_skipped {part : String} (h : part = "" ∨ part = ".") (rooted : Bool)
    (above : List String) : descend rooted above part = above := by
  rcases h with rfl | rfl <;> simp [descend]

/-- A part that goes down is put on top. -/
theorem descend_of_proper {part : String} (h : Proper part) (hup : part ≠ "..") (rooted : Bool)
    (above : List String) : descend rooted above part = part :: above := by
  have := h.nonempty
  have := h.notHere
  unfold descend
  split <;> simp_all

/-- A step up takes back the part before it. -/
theorem descend_up_of_ne {last : String} (h : last ≠ "..") (rooted : Bool) (above : List String) :
    descend rooted (last :: above) ".." = above := by
  unfold descend
  split <;> simp_all

theorem proper_descend {above : List String} (habove : ∀ p ∈ above, Proper p) {part : String}
    (hslash : '/' ∉ part.toList) (hnul : '\x00' ∉ part.toList) (rooted : Bool) :
    ∀ p ∈ descend rooted above part, Proper p := by
  by_cases hskip : part = "" ∨ part = "."
  · rw [descend_of_skipped hskip]
    exact habove
  · rw [not_or] at hskip
    have hpart : Proper part := ⟨hskip.1, hskip.2, hslash, hnul⟩
    by_cases hup : part = ".."
    · subst hup
      have := proper_up
      unfold descend
      split <;> simp_all
    · rw [descend_of_proper hpart hup]
      exact List.forall_mem_cons.mpr ⟨hpart, habove⟩

/-- What is left after cleaning are proper parts. -/
theorem proper_stack {path : String} (hnul : '\x00' ∉ path.toList) :
    ∀ p ∈ stack path, Proper p := by
  have hfold (ps above : List String) (hps : ps ⊆ parts path) (habove : ∀ p ∈ above, Proper p) :
      ∀ p ∈ ps.foldl (descend (isRooted path)) above, Proper p := by
    induction ps generalizing above with
    | nil => exact habove
    | cons part ps ih =>
        obtain ⟨hslash, hsub⟩ := mem_parts (hps List.mem_cons_self)
        refine ih _ (fun _ hp => hps (List.mem_cons_of_mem part hp)) ?_
        exact proper_descend habove hslash (fun h => hnul (hsub h)) _
  exact hfold (parts path) [] (List.Subset.refl _) (List.forall_mem_nil _)

theorem intercalate_ne_empty {ps : List String} (hps : ps ≠ []) (h : ∀ p ∈ ps, Proper p) :
    "/".intercalate ps ≠ "" := by
  obtain ⟨p, rest, rfl⟩ := List.exists_cons_of_ne_nil hps
  have hp := (h p List.mem_cons_self).nonempty
  cases rest with
  | nil => simpa using hp
  | cons q rest => simp [hp]

/-- A clean path: its parts put together, behind a slash if it is rooted, and a dot if there are
none. -/
theorem clean_eq {path : String} (hnul : '\x00' ∉ path.toList) :
    clean path = if isRooted path then "/" ++ "/".intercalate (stack path).reverse
      else if stack path = [] then "." else "/".intercalate (stack path).reverse := by
  have hproper := proper_stack hnul
  have hshown : ("/".intercalate (stack path).reverse).isEmpty = true ↔ stack path = [] := by
    rw [String.isEmpty_iff]
    constructor
    · intro hempty
      by_contra hne
      exact intercalate_ne_empty (by simpa using hne) (by simpa using hproper) hempty
    · intro hnil
      simp [hnil]
  show (if isRooted path then "/" ++ "/".intercalate (stack path).reverse
    else if ("/".intercalate (stack path).reverse).isEmpty then "."
    else "/".intercalate (stack path).reverse) = _
  by_cases hnil : stack path = []
  · rw [if_pos hnil, if_pos (hshown.mpr hnil)]
  · rw [if_neg hnil, if_neg (mt hshown.mp hnil)]

theorem isRooted_iff {path : String} :
    isRooted path = true ↔ ∃ rest, path.toList = '/' :: rest := by
  rw [isRooted, String.startsWith_string_iff]
  constructor
  · rintro ⟨rest, hrest⟩
    exact ⟨rest, hrest.symm⟩
  · rintro ⟨rest, hrest⟩
    exact ⟨rest, hrest.symm⟩

theorem isRooted_of_slash_not_mem {name : String} (h : '/' ∉ name.toList) :
    isRooted name = false := by
  rw [Bool.eq_false_iff, ne_eq, isRooted_iff]
  rintro ⟨rest, hrest⟩
  exact h (hrest ▸ List.mem_cons_self)

theorem isRooted_append {front : String} (h : front ≠ "") (back : String) :
    isRooted (front ++ back) = isRooted front := by
  have hlist : front.toList ≠ [] := by simpa using h
  obtain ⟨c, rest, hfront⟩ := List.exists_cons_of_ne_nil hlist
  rw [Bool.eq_iff_iff, isRooted_iff, isRooted_iff, String.toList_append, hfront]
  simp

/-- Parts put together do not start with a slash. -/
theorem isRooted_intercalate {ps : List String} (h : ∀ p ∈ ps, Proper p) :
    isRooted ("/".intercalate ps) = false := by
  cases ps with
  | nil => decide
  | cons p rest =>
      obtain ⟨hp, -⟩ := List.forall_mem_cons.mp h
      have hroot := isRooted_of_slash_not_mem hp.slash
      cases rest with
      | nil => rwa [String.intercalate_singleton]
      | cons q rest =>
          rw [String.intercalate_cons_cons, String.append_assoc, isRooted_append hp.nonempty, hroot]

theorem nul_not_mem_intercalate {ps : List String} (h : ∀ p ∈ ps, Proper p) :
    '\x00' ∉ ("/".intercalate ps).toList := by
  induction ps with
  | nil => decide
  | cons p rest ih =>
      obtain ⟨hp, hrest⟩ := List.forall_mem_cons.mp h
      have hnul := hp.nul
      cases rest with
      | nil => rwa [String.intercalate_singleton]
      | cons q rest =>
          have := ih hrest
          rw [String.intercalate_cons_cons]
          simp_all

/-! ### Joining -/

theorem join_eq {directory name : String} (hdirectory : directory ≠ "") (hname : name ≠ "") :
    join directory name = clean (directory ++ "/" ++ name) := by
  simp [join, hdirectory, hname]

/-- A name joined to a directory is one more part to clean. -/
theorem stack_append {directory name : String} (hdirectory : directory ≠ "")
    (hslash : '/' ∉ name.toList) :
    stack (directory ++ "/" ++ name) = descend (isRooted directory) (stack directory) name := by
  rw [stack, parts_append_slash, parts_of_slash_not_mem hslash, String.append_assoc,
    isRooted_append hdirectory, List.foldl_append]
  rfl

theorem nul_not_mem_append {directory name : String} (hdirectory : '\x00' ∉ directory.toList)
    (hname : '\x00' ∉ name.toList) : '\x00' ∉ (directory ++ "/" ++ name).toList := by
  simp_all

theorem intercalate_concat_append (ps : List String) (name ending : String) :
    "/".intercalate (ps ++ [name]) ++ ending = "/".intercalate (ps ++ [name ++ ending]) := by
  cases ps with
  | nil => simp
  | cons p ps =>
      rw [String.intercalate_append_of_ne_nil (by simp) (by simp),
        String.intercalate_append_of_ne_nil (by simp) (by simp), String.intercalate_singleton,
        String.intercalate_singleton, String.append_assoc]

/-- An ending put behind a joined path belongs to the name. Cleaning does not touch it, as long as
the name is none of the parts that are taken out. -/
theorem join_append_ending {directory name ending : String} (hdirectory : directory ≠ "")
    (hnul : '\x00' ∉ directory.toList) (hname : Proper name) (hup : name ≠ "..")
    (hended : Proper (name ++ ending)) (hendedUp : name ++ ending ≠ "..") :
    join directory name ++ ending = join directory (name ++ ending) := by
  rw [join_eq hdirectory hname.nonempty, join_eq hdirectory hended.nonempty,
    clean_eq (nul_not_mem_append hnul hname.nul), clean_eq (nul_not_mem_append hnul hended.nul),
    stack_append hdirectory hname.slash, stack_append hdirectory hended.slash,
    descend_of_proper hname hup,
    descend_of_proper hended hendedUp, String.append_assoc, String.append_assoc,
    isRooted_append hdirectory, isRooted_append hdirectory, List.reverse_cons, List.reverse_cons,
    if_neg (List.cons_ne_nil _ _), if_neg (List.cons_ne_nil _ _)]
  split
  · rw [String.append_assoc, intercalate_concat_append]
  · rw [intercalate_concat_append]

end Path

/-- A name that a file may have: a proper part that goes down and is not too long. -/
@[mk_iff]
structure IsName (name : String) : Prop extends Path.Proper name where
  notUp : name ≠ ".."
  short : name.utf8ByteSize ≤ Tree.maxName

instance : DecidablePred IsName := fun name => decidable_of_iff' _ (isName_iff name)

namespace Tree

variable (t : Tree)

/-- Where a path starts: at the root, or where the process is. -/
def startOf (path : String) : List String := if Path.isRooted path then [] else t.here

theorem node?_startOf (path : String) : t.node? (t.startOf path) = some .directory := by
  unfold startOf node?
  split <;> simp

theorem follow_cons (location : List String) (part : String) (rest : List String) :
    t.follow location (part :: rest) = t.follow location [part] >>= fun next =>
        t.follow next rest := by
  simp only [follow]
  cases t.node? location with
  | none => rfl
  | some node =>
      cases node with
      | file _ => rfl
      | directory =>
          dsimp only
          split
          · rfl
          · rfl
          · rfl
          · split
            · rfl
            · split <;> rfl

/-- A path is followed part by part. -/
theorem follow_append (location : List String) (front back : List String) :
    t.follow location (front ++ back) = t.follow location front >>= fun next =>
        t.follow next back := by
  induction front generalizing location with
  | nil => rfl
  | cons part rest ih =>
      rw [List.cons_append, follow_cons, follow_cons t location part rest]
      cases t.follow location [part] with
      | error problem => rfl
      | ok next => exact ih next

variable {t}

/-- A step succeeds only from a directory, and goes to it, above it or into it. -/
theorem follow_singleton_inv {location next : List String} {part : String}
    (h : t.follow location [part] = .ok next) :
    t.node? location = some .directory ∧
      ((part = "" ∨ part = ".") ∧ next = location ∨ part = ".." ∧ next = location.dropLast ∨
        (part ≠ "" ∧ part ≠ "." ∧ part ≠ "..") ∧ next = location ++ [part]) := by
  simp only [follow] at h
  cases hnode : t.node? location with
  | none => simp [hnode] at h
  | some node =>
      cases node with
      | file _ => simp [hnode] at h
      | directory =>
          refine ⟨rfl, ?_⟩
          simp only [hnode] at h
          split at h
          · exact .inl ⟨.inl rfl, (Except.ok.inj h).symm⟩
          · exact .inl ⟨.inr rfl, (Except.ok.inj h).symm⟩
          · exact .inr (.inl ⟨rfl, (Except.ok.inj h).symm⟩)
          · rename_i hempty hhere hup
            split at h
            · cases h
            · split at h
              · cases h
              · exact .inr (.inr ⟨⟨hempty, hhere, hup⟩, (Except.ok.inj h).symm⟩)

/-- Cleaning takes one part after the other, and where the clean parts lead is where the parts led.
A detour that is taken out led back to where it started, since a directory has one parent. -/
theorem follow_descend {rooted : Bool} {start location next above : List String} {part : String}
    (hrooted : rooted = true → start = []) (habove : ∀ p ∈ above, Path.Proper p)
    (hslash : '/' ∉ part.toList) (hnul : '\x00' ∉ part.toList)
    (h : t.follow start above.reverse = .ok location)
    (hstep : t.follow location [part] = .ok next) :
    t.follow start (Path.descend rooted above part).reverse = .ok next := by
  have hpush : t.follow start (part :: above).reverse = .ok next := by
    rw [List.reverse_cons, follow_append, h]
    exact hstep
  obtain ⟨hnode, ⟨hskip, rfl⟩ | ⟨rfl, rfl⟩ | ⟨⟨hempty, hhere, hup⟩, rfl⟩⟩ :=
    follow_singleton_inv hstep
  · rw [Path.descend_of_skipped hskip]
    exact h
  · -- a step up takes back the nearest part, unless there is none or that is a step up itself
    cases above with
    | nil =>
        obtain rfl := Except.ok.inj h
        cases rooted with
        | true => simp [Path.descend, follow, hrooted rfl]
        | false => exact hpush
    | cons last above =>
        obtain ⟨hlast, -⟩ := List.forall_mem_cons.mp habove
        by_cases hlastUp : last = ".."
        · subst hlastUp
          exact hpush
        · rw [Path.descend_up_of_ne hlastUp]
          rw [List.reverse_cons, follow_append] at h
          cases hfront : t.follow start above.reverse with
          | error problem =>
              rw [hfront] at h
              cases h
          | ok before =>
              rw [hfront] at h
              obtain ⟨-, ⟨hskip, -⟩ | ⟨hup, -⟩ | ⟨-, rfl⟩⟩ := follow_singleton_inv h
              · exact absurd hskip (not_or.mpr ⟨hlast.nonempty, hlast.notHere⟩)
              · exact absurd hup hlastUp
              · rw [List.dropLast_concat]
  · rw [Path.descend_of_proper ⟨hempty, hhere, hslash, hnul⟩ hup]
    exact hpush

/-- Where the parts of a path lead, its clean parts lead too. It is `follow_descend` along the whole
path. -/
theorem follow_stack {path : String} {location : List String} (hnul : '\x00' ∉ path.toList)
    (h : t.follow (t.startOf path) (Path.parts path) = .ok location) :
    t.follow (t.startOf path) (Path.stack path).reverse = .ok location := by
  have hfold (ps above before : List String) (hps : ps ⊆ Path.parts path)
      (habove : ∀ p ∈ above, Path.Proper p)
      (hbefore : t.follow (t.startOf path) above.reverse = .ok before)
      (hrest : t.follow before ps = .ok location) :
      t.follow (t.startOf path) (ps.foldl (Path.descend (Path.isRooted path)) above).reverse =
        .ok location := by
    induction ps generalizing above before with
    | nil =>
        obtain rfl := Except.ok.inj hrest
        exact hbefore
    | cons part ps ih =>
        obtain ⟨hslash, hsub⟩ := Path.mem_parts (hps List.mem_cons_self)
        have hpart : '\x00' ∉ part.toList := fun hmem => hnul (hsub hmem)
        rw [follow_cons] at hrest
        cases hstep : t.follow before [part] with
        | error problem =>
            rw [hstep] at hrest
            cases hrest
        | ok next =>
            rw [hstep] at hrest
            refine ih _ next (fun _ hp => hps (List.mem_cons_of_mem part hp)) ?_ ?_ hrest
            · exact Path.proper_descend habove hslash hpart _
            · refine follow_descend (fun hrooted => ?_) habove hslash hpart hbefore hstep
              rw [startOf, if_pos hrooted]
  exact hfold (Path.parts path) [] _ (List.Subset.refl _) (List.forall_mem_nil _) rfl h

/-! ### Finding what a joined path leads to -/

theorem follow_skipped {location : List String} (hlocation : t.node? location = some .directory)
    {part : String} (h : part = "" ∨ part = ".") (rest : List String) :
    t.follow location (part :: rest) = t.follow location rest := by
  rcases h with rfl | rfl <;> simp [follow, hlocation]

theorem follow_up {location : List String} (hlocation : t.node? location = some .directory) :
    t.follow location [".."] = .ok location.dropLast := by
  simp [follow, hlocation]

/-- A name leads into a directory if something of that name is there. -/
theorem follow_name {location : List String} (hlocation : t.node? location = some .directory)
    {name : String} (hname : IsName name) :
    t.follow location [name] =
      (t.node? (location ++ [name])).elim (.error .notFound) fun _ => .ok (location ++ [name]) := by
  have hempty := hname.nonempty
  have hhere := hname.notHere
  have hup := hname.notUp
  simp only [follow, hlocation, if_neg (Nat.not_lt.mpr hname.short)]
  cases t.node? (location ++ [name]) <;> rfl

theorem locate_eq {path : String} (hempty : path ≠ "") (hnul : '\x00' ∉ path.toList) :
    t.locate path = t.follow (t.startOf path) (Path.parts path) := by
  simp [locate, startOf, hempty, hnul, String.contains_char_eq]

/-- What a path that leads somewhere must be like. -/
theorem locate_inv {path : String} {location : List String} (h : t.locate path = .ok location) :
    path ≠ "" ∧ '\x00' ∉ path.toList ∧
      t.follow (t.startOf path) (Path.parts path) = .ok location := by
  have hempty : path ≠ "" := by
    rintro rfl
    simp [locate] at h
  have hnul : '\x00' ∉ path.toList := by
    intro hmem
    simp [locate, hempty, hmem, String.contains_char_eq] at h
  rw [locate_eq hempty hnul] at h
  exact ⟨hempty, hnul, h⟩

/-- A clean path leads where its parts lead. -/
theorem locate_clean {path : String} (hnul : '\x00' ∉ path.toList) :
    t.locate (Path.clean path) = t.follow (t.startOf path) (Path.stack path).reverse := by
  have hproper : ∀ p ∈ (Path.stack path).reverse, Path.Proper p := by
    simpa using Path.proper_stack hnul
  have hslash : ∀ p ∈ (Path.stack path).reverse, '/' ∉ p.toList := fun p hp => (hproper p hp).slash
  have hstart := t.node?_startOf path
  have hfree := Path.nul_not_mem_intercalate hproper
  rw [Path.clean_eq hnul]
  by_cases hrooted : Path.isRooted path = true
  · -- the empty part in front of the first slash leads nowhere else
    have hroot : t.startOf ("/" ++ "/".intercalate (Path.stack path).reverse) = t.startOf path := by
      rw [startOf, startOf, Path.isRooted_append (by decide), hrooted,
        Path.isRooted_iff.mpr ⟨[], rfl⟩]
    have hparts : Path.parts ("/" ++ "/".intercalate (Path.stack path).reverse) =
        "" :: Path.parts ("/".intercalate (Path.stack path).reverse) := by
      have happend := Path.parts_append_slash "" ("/".intercalate (Path.stack path).reverse)
      rwa [String.empty_append] at happend
    rw [if_pos hrooted, locate_eq (by simp) (by simpa using hfree), hroot, hparts,
      follow_skipped hstart (.inl rfl)]
    by_cases hnil : Path.stack path = []
    · rw [hnil, List.reverse_nil, String.intercalate_nil]
      exact follow_skipped hstart (.inl rfl) []
    · rw [Path.parts_intercalate (by simpa using hnil) hslash]
  · rw [if_neg hrooted]
    have hhere : t.startOf path = t.here := if_neg hrooted
    by_cases hnil : Path.stack path = []
    · rw [if_pos hnil, hnil, hhere, locate_eq (by decide) (by decide), startOf,
        Path.isRooted_of_slash_not_mem (by decide), Path.parts_of_slash_not_mem (by decide)]
      exact follow_skipped (hhere ▸ hstart) (.inr rfl) []
    · have hne : (Path.stack path).reverse ≠ [] := by simpa using hnil
      rw [if_neg hnil, locate_eq (Path.intercalate_ne_empty hne hproper) hfree,
        Path.parts_intercalate hne hslash, startOf, Path.isRooted_intercalate hproper, hhere]
      rfl

theorem find_of_locate {path : String} {location : List String} {node : Node}
    (hlocate : t.locate path = .ok location) (hnode : t.node? location = some node) :
    t.find path = .ok node := by
  simp [find, hlocate, hnode, bind, Except.bind, pure, Except.pure]

theorem startOf_append {directory : String} (hdirectory : directory ≠ "") {part : String} :
    t.startOf (directory ++ "/" ++ part) = t.startOf directory := by
  rw [startOf, startOf, String.append_assoc, Path.isRooted_append hdirectory]

/-- A path joined from one that leads somewhere and a part leads where a step by the part leads. -/
theorem locate_join_of_step {directory part : String} {location next : List String}
    (hlocate : t.locate directory = .ok location) (hempty : part ≠ "") (hslash : '/' ∉ part.toList)
    (hnul : '\x00' ∉ part.toList) (hstep : t.follow location [part] = .ok next) :
    t.locate (Path.join directory part) = .ok next := by
  obtain ⟨hdirectory, hfree, hfollow⟩ := locate_inv hlocate
  rw [Path.join_eq hdirectory hempty, locate_clean (Path.nul_not_mem_append hfree hnul),
    startOf_append hdirectory, Path.stack_append hdirectory hslash]
  refine follow_descend (fun hrooted => ?_) (Path.proper_stack hfree) hslash hnul
    (follow_stack hfree hfollow) hstep
  rw [startOf, if_pos hrooted]

/-- What stands under a name in a directory is what the joined path leads to, and if nothing does,
the path leads nowhere. -/
theorem find_join {directory name : String} {location : List String}
    (hlocate : t.locate directory = .ok location) (hlocation : t.node? location = some .directory)
    (hname : IsName name) :
    t.find (Path.join directory name) =
        (t.node? (location ++ [name])).elim (.error .notFound) .ok := by
  obtain ⟨hdirectory, hfree, hfollow⟩ := locate_inv hlocate
  have hjoined : t.locate (Path.join directory name) = t.follow location [name] := by
    rw [Path.join_eq hdirectory hname.nonempty,
      locate_clean (Path.nul_not_mem_append hfree hname.nul), startOf_append hdirectory,
      Path.stack_append hdirectory hname.slash,
      Path.descend_of_proper hname.toProper hname.notUp, List.reverse_cons, follow_append,
      follow_stack hfree hfollow]
    rfl
  rw [follow_name hlocation hname] at hjoined
  cases hnode : t.node? (location ++ [name]) with
  | none =>
      rw [hnode] at hjoined
      rw [find, hjoined]
      rfl
  | some node =>
      rw [hnode] at hjoined
      exact find_of_locate hjoined hnode

end Tree

end RegisterVM.Files
