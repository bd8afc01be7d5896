import RegisterVM.Debug.ModifiedUtf8
import RegisterVM.Proofs.Bytes

/-!
# Reading stored texts

Which bytes are a stored text is said here without a reader: `Spells` splits them into groups of one
unit each, and `StandFor` joins the units into characters. The reader accepts just what these
relations describe and takes just the bytes of the text from its source; where it fails, it has
taken no byte behind the declared length. `Broken` says which bytes hold a malformed group, so that
each error has its exact condition.

A source is any state from which bytes come one at a time, and `Supplies` says which bytes those
are.
-/

namespace RegisterVM.Debug

/-! ### Groups -/

/-- The bytes of one unit, by their bits: `0xxxxxxx`, `110xxxxx 10yyyyyy` or
`1110xxxx 10yyyyyy 10zzzzzz`. A unit may stand in more bytes than it needs; all forms are read. -/
inductive Group : List UInt8 → Nat → Prop
  | one {x : Nat} : x < 128 → Group [.ofNat x] x
  | two {x y : Nat} : x < 32 → y < 64 →
      Group [.ofNat (0b11000000 + x), .ofNat (0b10000000 + y)] (x * 64 + y)
  | three {x y z : Nat} : x < 16 → y < 64 → z < 64 →
      Group [.ofNat (0b11100000 + x), .ofNat (0b10000000 + y), .ofNat (0b10000000 + z)]
        (x * 4096 + y * 64 + z)

/-- The bytes of units one after the other. -/
inductive Spells : List UInt8 → List Nat → Prop
  | nil : Spells [] []
  | cons {group rest : List UInt8} {u : Nat} {units : List Nat} :
      Group group u → Spells rest units → Spells (group ++ rest) (u :: units)

/-- A byte that starts a group of two. -/
def IsDouble (a : UInt8) : Prop := 0xC0 ≤ a.toNat ∧ a.toNat < 0xE0

/-- A byte that starts a group of three. -/
def IsTriple (a : UInt8) : Prop := 0xE0 ≤ a.toNat ∧ a.toNat < 0xF0

/-- A later byte of a group. -/
def IsLater (b : UInt8) : Prop := 0x80 ≤ b.toNat ∧ b.toNat < 0xC0

theorem and_single_iff : ∀ a : UInt8, a &&& 0x80 = 0 ↔ a.toNat < 0x80 := by decide +kernel

theorem and_double_iff : ∀ a : UInt8, a &&& 0xE0 = 0xC0 ↔ IsDouble a := by
  unfold IsDouble
  decide +kernel

theorem and_triple_iff : ∀ a : UInt8, a &&& 0xF0 = 0xE0 ↔ IsTriple a := by
  unfold IsTriple
  decide +kernel

theorem and_later_iff : ∀ b : UInt8, b &&& 0xC0 = 0x80 ↔ IsLater b := by
  unfold IsLater
  decide +kernel

theorem toNat_ofNat_add (base x : Nat) (h : base + x < 256) :
    (UInt8.ofNat (base + x)).toNat = base + x := by
  rw [UInt8.toNat_ofNat', Nat.mod_eq_of_lt h]

/-- A group by the ranges of its bytes. The reader tests bits, and this is the form in which the
tests are used. -/
theorem group_iff {group : List UInt8} {u : Nat} : Group group u ↔
    (∃ a, group = [a] ∧ a.toNat < 0x80 ∧ u = a.toNat) ∨
    (∃ a b, group = [a, b] ∧ IsDouble a ∧ IsLater b ∧ u = a.toNat % 32 * 64 + b.toNat % 64) ∨
    ∃ a b c, group = [a, b, c] ∧ IsTriple a ∧ IsLater b ∧ IsLater c ∧
      u = a.toNat % 16 * 4096 + b.toNat % 64 * 64 + c.toNat % 64 := by
  constructor
  · intro h
    cases h with
    | one hx =>
        have ha := toNat_ofNat_add 0 u (by omega)
        rw [Nat.zero_add] at ha
        exact .inl ⟨_, rfl, by omega, ha.symm⟩
    | @two x y hx hy =>
        have ha := toNat_ofNat_add 0b11000000 x (by omega)
        have hb := toNat_ofNat_add 0b10000000 y (by omega)
        exact .inr (.inl ⟨_, _, rfl, ⟨by omega, by omega⟩, ⟨by omega, by omega⟩, by omega⟩)
    | @three x y z hx hy hz =>
        have ha := toNat_ofNat_add 0b11100000 x (by omega)
        have hb := toNat_ofNat_add 0b10000000 y (by omega)
        have hc := toNat_ofNat_add 0b10000000 z (by omega)
        exact .inr (.inr ⟨_, _, _, rfl, ⟨by omega, by omega⟩, ⟨by omega, by omega⟩,
          ⟨by omega, by omega⟩, by omega⟩)
  · have hbyte {b : UInt8} {base x : Nat} (h : b.toNat = base + x) :
        UInt8.ofNat (base + x) = b := by
      rw [← h, UInt8.ofNat_toNat]
    rintro (⟨a, rfl, ha, rfl⟩ | ⟨a, b, rfl, ⟨ha, ha'⟩, ⟨hb, hb'⟩, rfl⟩ |
      ⟨a, b, c, rfl, ⟨ha, ha'⟩, ⟨hb, hb'⟩, ⟨hc, hc'⟩, rfl⟩)
    · have hgroup := Group.one ha
      rwa [UInt8.ofNat_toNat] at hgroup
    · have hgroup := Group.two (x := a.toNat % 32) (y := b.toNat % 64) (by omega) (by omega)
      rwa [hbyte (b := a) (by omega), hbyte (b := b) (by omega)] at hgroup
    · have hgroup :=
        Group.three (x := a.toNat % 16) (y := b.toNat % 64) (z := c.toNat % 64) (by omega)
        (by omega) (by omega)
      rwa [hbyte (b := a) (by omega), hbyte (b := b) (by omega),
        hbyte (b := c) (by omega)] at hgroup

/-- How long the group is that a byte starts. -/
def groupSize (a : UInt8) : Nat := if a.toNat < 0x80 then 1 else if a.toNat < 0xE0 then 2 else 3

/-- The unit of a group. -/
def groupUnit : List UInt8 → Nat
  | [a] => a.toNat
  | [a, b] => a.toNat % 32 * 64 + b.toNat % 64
  | [a, b, c] => a.toNat % 16 * 4096 + b.toNat % 64 * 64 + c.toNat % 64
  | _ => 0

/-- The first byte of a group tells its length, and the group its unit. -/
theorem Group.determined {group : List UInt8} {u : Nat} (h : Group group u) :
    u = groupUnit group ∧ ∃ a more, group = a :: more ∧ group.length = groupSize a := by
  obtain ⟨a, rfl, ha, rfl⟩ | ⟨a, b, rfl, ⟨ha, ha'⟩, -, rfl⟩ | ⟨a, b, c, rfl, ⟨ha, -⟩, -, -, rfl⟩ :=
    group_iff.mp h
  · exact ⟨rfl, a, [], rfl, by rw [groupSize, if_pos ha]; rfl⟩
  · exact ⟨rfl, a, [b], rfl, by rw [groupSize, if_neg (by omega), if_pos ha']; rfl⟩
  · exact ⟨rfl, a, [b, c], rfl, by rw [groupSize, if_neg (by omega), if_neg (by omega)]; rfl⟩

/-- Bytes begin with one group at most, so there is one way to split them. -/
theorem Group.unique {group group' rest rest' : List UInt8} {u u' : Nat} (h : Group group u)
    (h' : Group group' u') (heq : group ++ rest = group' ++ rest') : u = u' ∧ rest = rest' := by
  obtain ⟨rfl, a, more, hgroup, hsize⟩ := h.determined
  obtain ⟨rfl, a', more', hgroup', hsize'⟩ := h'.determined
  have hfirst : a = a' := by
    rw [hgroup, hgroup', List.cons_append, List.cons_append] at heq
    exact (List.cons.inj heq).1
  obtain ⟨rfl, hrest⟩ := List.append_inj heq (by rw [hsize, hsize', hfirst])
  exact ⟨rfl, hrest⟩

theorem Spells.eq_cons {group rest : List UInt8} {u : Nat} {units : List Nat}
    (hgroup : Group group u) (h : Spells (group ++ rest) units) :
    ∃ more, units = u :: more ∧ Spells rest more := by
  generalize hbytes : group ++ rest = bytes at h
  cases h with
  | nil =>
      obtain ⟨-, a, more, rfl, -⟩ := hgroup.determined
      cases hbytes
  | cons hgroup' hrest =>
      obtain ⟨rfl, rfl⟩ := hgroup.unique hgroup' hbytes
      exact ⟨_, rfl, hrest⟩

/-- Bytes spell one sequence of units at most. -/
theorem Spells.unique {bytes : List UInt8} {units units' : List Nat} (h : Spells bytes units)
    (h' : Spells bytes units') : units = units' := by
  induction h generalizing units' with
  | nil =>
      generalize hbytes : ([] : List UInt8) = bytes at h'
      cases h' with
      | nil => rfl
      | cons hgroup _ =>
          obtain ⟨-, a, more, rfl, -⟩ := hgroup.determined
          cases hbytes
  | cons hgroup _ ih =>
      obtain ⟨more, rfl, hmore⟩ := h'.eq_cons hgroup
      rw [ih hmore]

/-! ### Malformed groups

A malformed group is found as soon as the bytes that show it are there: a first byte that starts no
group, a group that reaches past the declared length, or a whole group with a wrong later byte. A
group of three is looked at only once its third byte is there. -/

/-- A byte that starts a group. -/
def Leads (a : UInt8) : Prop := a.toNat < 0x80 ∨ IsDouble a ∨ IsTriple a

/-- Of the `count` bytes that are to come, those that are there hold a malformed group behind whole
ones. Bytes may be missing at the end: they decide nothing. -/
inductive Broken : (count : Nat) → List UInt8 → Prop
  /-- A byte that starts no group. -/
  | lead {count : Nat} {a : UInt8} {rest : List UInt8} : ¬ Leads a → Broken (count + 1) (a :: rest)
  /-- A group that is longer than what is left of the declared length, whether its bytes are there
  or not. -/
  | cut {count : Nat} {a : UInt8} {rest : List UInt8} : Leads a → count + 1 < groupSize a →
      Broken (count + 1) (a :: rest)
  /-- A group whose bytes are all there, though they make no unit. -/
  | later {count : Nat} {a : UInt8} {more rest : List UInt8} : Leads a →
      (a :: more).length = groupSize a → (a :: more).length ≤ count →
      (∀ u, ¬ Group (a :: more) u) → Broken count (a :: more ++ rest)
  /-- A malformed group behind a whole one. -/
  | behind {count : Nat} {group rest : List UInt8} {u : Nat} : Group group u → Broken count rest →
      Broken (count + group.length) (group ++ rest)

theorem Group.leads {a : UInt8} {more : List UInt8} {u : Nat}
    (h : Group (a :: more) u) : Leads a := by
  obtain ⟨b, hb, ha, -⟩ | ⟨b, c, hb, ha, -⟩ | ⟨b, c, d, hb, ha, -⟩ := group_iff.mp h
  · cases hb
    exact .inl ha
  · cases hb
    exact .inr (.inl ha)
  · cases hb
    exact .inr (.inr ha)

theorem Group.length_cons {a : UInt8} {more : List UInt8} {u : Nat} (h : Group (a :: more) u) :
    (a :: more).length = groupSize a := by
  obtain ⟨-, a', more', heq, hsize⟩ := h.determined
  cases heq
  exact hsize

/-- Whole groups in front change nothing about what is broken behind them. The first byte fixes how
many bytes the group takes, so no other case of `Broken` applies to it. -/
theorem Group.broken_append_iff {group rest : List UInt8} {u count : Nat} (h : Group group u) :
    Broken (count + group.length) (group ++ rest) ↔ Broken count rest := by
  constructor
  · intro hbroken
    obtain ⟨-, a, more, rfl, hsize⟩ := h.determined
    generalize hcount : count + (a :: more).length = total at hbroken
    generalize hbytes : a :: more ++ rest = bytes at hbroken
    cases hbroken with
    | lead hlead =>
        cases hbytes
        exact absurd h.leads hlead
    | cut _ hcut =>
        cases hbytes
        omega
    | later _ hlength _ hnone =>
        rw [List.cons_append, List.cons_append, List.cons.injEq] at hbytes
        obtain ⟨rfl, hbytes⟩ := hbytes
        obtain ⟨rfl, -⟩ :=
          List.append_inj hbytes (by simp only [List.length_cons] at hsize hlength; omega)
        exact absurd h (hnone u)
    | @behind count' group' rest' u' hgroup hrest =>
        obtain ⟨-, a', more', rfl, hsize'⟩ := hgroup.determined
        have hfirst : a = a' := (List.cons.inj hbytes).1
        obtain ⟨-, rfl⟩ := h.unique hgroup hbytes
        obtain rfl : count' = count := by
          rw [hsize, hsize', hfirst] at hcount
          omega
        exact hrest
  · exact .behind h

theorem not_broken_nil (count : Nat) : ¬ Broken count [] := by
  intro h
  generalize hbytes : ([] : List UInt8) = bytes at h
  cases h with
  | lead | cut | later => cases hbytes
  | behind hgroup _ =>
      obtain ⟨-, a, more, rfl, -⟩ := hgroup.determined
      cases hbytes

/-- A group that fits and of which bytes are missing is not broken yet, even if one that is there is
wrong. -/
theorem not_broken_of_unfinished {a : UInt8} {rest : List UInt8} {count : Nat} (ha : Leads a)
    (hfits : groupSize a ≤ count) (hshort : (a :: rest).length < groupSize a) :
    ¬ Broken count (a :: rest) := by
  intro h
  generalize hbytes : a :: rest = bytes at h hshort
  cases h with
  | lead hlead =>
      cases hbytes
      exact hlead ha
  | cut _ hcut =>
      cases hbytes
      omega
  | later _ hlength _ _ =>
      cases hbytes
      rw [List.length_append] at hshort
      omega
  | behind hgroup _ =>
      obtain ⟨-, a', more, rfl, hsize⟩ := hgroup.determined
      cases hbytes
      rw [List.length_append] at hshort
      omega

/-- More bytes do not mend what is broken. -/
theorem Broken.append {count : Nat} {bytes : List UInt8} (h : Broken count bytes)
    (more : List UInt8) : Broken count (bytes ++ more) := by
  induction h with
  | lead hlead => exact .lead hlead
  | cut ha hcut => exact .cut ha hcut
  | later ha hlength hfits hnone =>
      rw [List.append_assoc]
      exact .later ha hlength hfits hnone
  | behind hgroup _ ih =>
      rw [List.append_assoc]
      exact .behind hgroup ih

/-- Bytes that spell units hold no malformed group. -/
theorem Spells.not_broken {bytes : List UInt8} {units : List Nat} (h : Spells bytes units) :
    ¬ Broken bytes.length bytes := by
  induction h with
  | nil => exact not_broken_nil 0
  | cons hgroup _ ih =>
      rw [List.length_append, Nat.add_comm, hgroup.broken_append_iff]
      exact ih

theorem Group.second {a b : UInt8} {u : Nat} (h : Group [a, b] u) : IsLater b := by
  obtain ⟨_, heq, -⟩ | ⟨_, _, heq, -, hb, -⟩ | ⟨_, _, _, heq, -⟩ := group_iff.mp h
  · cases heq
  · cases heq
    exact hb
  · cases heq

theorem Group.secondThird {a b c : UInt8} {u : Nat} (h : Group [a, b, c] u) :
    IsLater b ∧ IsLater c := by
  obtain ⟨_, heq, -⟩ | ⟨_, _, heq, -⟩ | ⟨_, _, _, heq, -, hb, hc, -⟩ := group_iff.mp h
  · cases heq
  · cases heq
  · cases heq
    exact ⟨hb, hc⟩

theorem IsDouble.groupSize_eq {a : UInt8} (h : IsDouble a) : groupSize a = 2 := by
  obtain ⟨hlow, hhigh⟩ := h
  rw [groupSize, if_neg (by omega), if_pos hhigh]

theorem IsTriple.groupSize_eq {a : UInt8} (h : IsTriple a) : groupSize a = 3 := by
  obtain ⟨hlow, -⟩ := h
  rw [groupSize, if_neg (by omega), if_neg (by omega)]

theorem continuation?_of_later {b : UInt8} (h : IsLater b) :
    continuation? b = some (b.toNat % 64) := by
  rw [continuation?, if_pos ((and_later_iff b).mpr h)]

theorem continuation?_eq_some {b : UInt8} {v : Nat} (h : continuation? b = some v) :
    IsLater b ∧ v = b.toNat % 64 := by
  unfold continuation? at h
  split at h
  · cases h
    exact ⟨(and_later_iff b).mp ‹_›, rfl⟩
  · cases h

/-! ### Sources -/

section

variable {σ : Type} {next : ByteSource σ}

/-- A source gives some bytes one after the other, and stands at the last state after them. A source
that is a list and one that reads memory are treated alike. -/
inductive Supplies (next : ByteSource σ) : σ → List UInt8 → σ → Prop
  | nil (s : σ) : Supplies next s [] s
  | cons {s s' t : σ} {b : UInt8} {bytes : List UInt8} : next s = .ok (b, s') →
      Supplies next s' bytes t → Supplies next s (b :: bytes) t

namespace Supplies

variable {s t u : σ} {front more bytes : List UInt8}

theorem append (h : Supplies next s front t) (h' : Supplies next t more u) :
    Supplies next s (front ++ more) u := by
  induction h with
  | nil => exact h'
  | cons hnext _ ih => exact .cons hnext (ih h')

/-- The fewer bytes that a source gives are the first of the more that it gives, since reading is a
function of the state. -/
theorem split (h : Supplies next s front t) (h' : Supplies next s bytes u)
    (hlength : front.length ≤ bytes.length) :
    ∃ more, bytes = front ++ more ∧ Supplies next t more u := by
  induction h generalizing bytes with
  | nil => exact ⟨bytes, rfl, h'⟩
  | cons hnext _ ih =>
      cases h' with
      | nil => exact absurd hlength (by simp)
      | cons hnext' hrest =>
          rw [hnext] at hnext'
          cases hnext'
          obtain ⟨more, rfl, hmore⟩ := ih hrest (Nat.le_of_succ_le_succ hlength)
          exact ⟨more, rfl, hmore⟩

/-- A source gives no more bytes than up to where it fails. -/
theorem length_le {e : StreamError} (h : Supplies next s front t) (h' : Supplies next s bytes u)
    (hend : next u = .error e) : front.length ≤ bytes.length := by
  by_contra hlt
  obtain ⟨more, rfl, hmore⟩ := h'.split h (Nat.le_of_not_le hlt)
  cases hmore with
  | nil => simp at hlt
  | cons hnext _ =>
      rw [hend] at hnext
      cases hnext

end Supplies

/-- The bytes of a list are what it supplies. -/
theorem supplies_listSource_iff {bytes front rest : List UInt8} :
    Supplies listSource bytes front rest ↔ bytes = front ++ rest := by
  constructor
  · intro h
    induction h with
    | nil => rfl
    | @cons s s' t b bytes hnext _ ih =>
        cases s with
        | nil => cases hnext
        | cons first others =>
            cases hnext
            rw [ih, List.cons_append]
  · rintro rfl
    induction front with
    | nil => exact .nil rest
    | cons b front ih => exact .cons rfl ih

/-! ### Reading units -/

/-- What reading the units of `count` bytes comes to: units that all of the bytes spell, an end of
the source before the last byte, or a malformed group among the bytes that were taken. An end counts
only where the bytes before it are not broken already. -/
inductive ReadsUnits (next : ByteSource σ) (count : Nat) (s : σ) :
    Except TextError (List Nat) × σ → Prop
  | read {body : List UInt8} {units : List Nat} {t : σ} : body.length = count →
      Supplies next s body t → Spells body units → ReadsUnits next count s (.ok units, t)
  | missing {front : List UInt8} {e : StreamError} {t : σ} : front.length < count →
      Supplies next s front t → next t = .error e → ¬ Broken count front →
      ReadsUnits next count s (.error (missingLater e), t)
  | malformed {front : List UInt8} {detail : Malformed} {t : σ} : front.length ≤ count →
      Supplies next s front t → Broken count front →
      ReadsUnits next count s (.error (.malformed detail), t)

theorem ReadsUnits.cons {group : List UInt8} {u : Nat} {s t : σ} {count : Nat}
    {r : Except TextError (List Nat) × σ} (hgroup : Group group u)
    (hsupplies : Supplies next s group t) (h : ReadsUnits next count t r) :
    ReadsUnits next (count + group.length) s (consUnit u r) := by
  cases h with
  | read hlength hbody hspells =>
      exact .read (by rw [List.length_append, hlength, Nat.add_comm]) (hsupplies.append hbody)
        (.cons hgroup hspells)
  | missing hlength hfront hend hwhole =>
      exact .missing (by rw [List.length_append]; omega) (hsupplies.append hfront) hend
        (hgroup.broken_append_iff.not.mpr hwhole)
  | malformed hlength hfront hbroken =>
      exact .malformed (by rw [List.length_append]; omega) (hsupplies.append hfront)
        (hgroup.broken_append_iff.mpr hbroken)

/-- Reading units follows the groups: a turn of the reader takes one group, or finds why there is
none. The cases are those of the reader, and each names the bytes that it has taken in this turn. -/
theorem readsUnits (next : ByteSource σ) (count : Nat) (s : σ) :
    ReadsUnits next count s (readUnits next count s) := by
  fun_induction readUnits next count s with
  | case1 s => exact .read rfl (.nil s) .nil
  | case2 count s e hend => exact .missing (by simp) (.nil s) hend (not_broken_nil _)
  | case3 count s a s₁ ha hsingle ih =>
      have hgroup : Group [a] a.toNat :=
        group_iff.mpr (.inl ⟨a, rfl, (and_single_iff a).mp hsingle, rfl⟩)
      exact ih.cons hgroup (.cons ha (.nil s₁))
  | case4 s a s₁ ha _ hdouble =>
      rw [and_double_iff] at hdouble
      exact .malformed (by simp) (.cons ha (.nil s₁))
        (.cut (.inr (.inl hdouble)) (by rw [hdouble.groupSize_eq]; omega))
  | case5 s a s₁ ha _ hdouble count e hend =>
      rw [and_double_iff] at hdouble
      have hsize := hdouble.groupSize_eq
      exact .missing (by simp) (.cons ha (.nil s₁)) hend
        (not_broken_of_unfinished (.inr (.inl hdouble)) (by omega) (by simp [hsize]))
  | case6 s a s₁ ha _ hdouble count b s₂ hb hlater =>
      rw [and_double_iff] at hdouble
      have hbroken : Broken (count + 2) ([a, b] ++ []) := by
        refine .later (.inr (.inl hdouble)) hdouble.groupSize_eq.symm (by simp) ?_
        intro u hgroup
        rw [continuation?_of_later hgroup.second] at hlater
        cases hlater
      exact .malformed (by simp) (.cons ha (.cons hb (.nil s₂))) hbroken
  | case7 s a s₁ ha _ hdouble count b s₂ hb low hlater ih =>
      obtain ⟨hb', rfl⟩ := continuation?_eq_some hlater
      have hgroup :=
        group_iff.mpr (.inr (.inl ⟨a, b, rfl, (and_double_iff a).mp hdouble, hb', rfl⟩))
      exact ih.cons hgroup (.cons ha (.cons hb (.nil s₂)))
  | case8 s a s₁ ha _ _ htriple | case9 s a s₁ ha _ _ htriple =>
      rw [and_triple_iff] at htriple
      exact .malformed (by simp) (.cons ha (.nil s₁))
        (.cut (.inr (.inr htriple)) (by rw [htriple.groupSize_eq]; omega))
  | case10 s a s₁ ha _ _ htriple count e hend =>
      rw [and_triple_iff] at htriple
      have hsize := htriple.groupSize_eq
      exact .missing (by simp) (.cons ha (.nil s₁)) hend
        (not_broken_of_unfinished (.inr (.inr htriple)) (by omega) (by simp [hsize]))
  | case11 s a s₁ ha _ _ htriple count b s₂ hb e hend =>
      rw [and_triple_iff] at htriple
      have hsize := htriple.groupSize_eq
      exact .missing (by simp) (.cons ha (.cons hb (.nil s₂))) hend
        (not_broken_of_unfinished (.inr (.inr htriple)) (by omega) (by simp [hsize]))
  | case12 s a s₁ ha _ _ htriple count b s₂ hb c s₃ hc mid low hlow hmid ih =>
      obtain ⟨hb', rfl⟩ := continuation?_eq_some hmid
      obtain ⟨hc', rfl⟩ := continuation?_eq_some hlow
      have hgroup :=
        group_iff.mpr (.inr (.inr ⟨a, b, c, rfl, (and_triple_iff a).mp htriple, hb', hc', rfl⟩))
      exact ih.cons hgroup (.cons ha (.cons hb (.cons hc (.nil s₃))))
  | case13 s a s₁ ha _ _ htriple count b s₂ hb c s₃ hc hlater =>
      rw [and_triple_iff] at htriple
      have hbroken : Broken (count + 3) ([a, b, c] ++ []) := by
        refine .later (.inr (.inr htriple)) htriple.groupSize_eq.symm (by simp) ?_
        intro u hgroup
        obtain ⟨hb', hc'⟩ := hgroup.secondThird
        exact hlater _ _ (continuation?_of_later hb') (continuation?_of_later hc')
      exact .malformed (by simp) (.cons ha (.cons hb (.cons hc (.nil s₃)))) hbroken
  | case14 count s a s₁ ha hsingle hdouble htriple =>
      rw [and_single_iff] at hsingle
      rw [and_double_iff] at hdouble
      rw [and_triple_iff] at htriple
      refine .malformed (by simp) (.cons ha (.nil s₁)) (.lead ?_)
      rintro (hlead | hlead | hlead)
      · exact hsingle hlead
      · exact hdouble hlead
      · exact htriple hlead

/-- Reading gives the units that the bytes of a source spell. -/
theorem readUnits_of_spells {s t : σ} {body : List UInt8} {units : List Nat}
    (hbody : Supplies next s body t) (hspells : Spells body units) :
    readUnits next body.length s = (.ok units, t) := by
  generalize hresult : readUnits next body.length s = result
  have h := readsUnits next body.length s
  rw [hresult] at h
  cases h with
  | read hlength hbody' hspells' =>
      obtain ⟨more, hmore, hrest⟩ := hbody'.split hbody (Nat.le_of_eq hlength)
      have hnone : more.length = 0 := by
        rw [hmore, List.length_append] at hlength
        omega
      obtain rfl : more = [] := List.length_eq_zero_iff.mp hnone
      rw [List.append_nil] at hmore
      subst hmore
      cases hrest
      rw [hspells.unique hspells']
  | missing hlength hfront hend _ =>
      exact absurd (hbody.length_le hfront hend) (Nat.not_le.mpr hlength)
  | malformed hlength hfront hbroken =>
      obtain ⟨more, rfl, -⟩ := hfront.split hbody hlength
      exact absurd (hbroken.append more) hspells.not_broken

end

/-! ### Characters -/

/-- A unit that is the first of a pair. -/
def IsHigh (u : Nat) : Prop := 0xD800 ≤ u ∧ u < 0xDC00

/-- A unit that is the second of a pair. -/
def IsLow (u : Nat) : Prop := 0xDC00 ≤ u ∧ u < 0xE000

/-- The text that UTF-16 units stand for. A high surrogate right before a low one makes a character
with it; a surrogate that has no such partner is replaced by U+FFFD. -/
inductive StandFor : List Nat → List Char → Prop
  | nil : StandFor [] []
  | plain {u : Nat} {c : Char} {units : List Nat} {text : List Char} : c.toNat = u → u < 0x10000 →
      StandFor units text → StandFor (u :: units) (c :: text)
  | pair {high low : Nat} {c : Char} {units : List Nat} {text : List Char} :
      IsHigh high → IsLow low →
      c.toNat = 0x10000 + (high - 0xD800) * 0x400 + (low - 0xDC00) → StandFor units text →
      StandFor (high :: low :: units) (c :: text)
  | lone {u : Nat} {units : List Nat} {text : List Char} : IsHigh u ∨ IsLow u →
      ¬ (IsHigh u ∧ ∃ low ∈ units.head?, IsLow low) → StandFor units text →
      StandFor (u :: units) (Char.ofNat 0xFFFD :: text)

theorem toNat_range (c : Char) : c.toNat < 0xD800 ∨ 0xDFFF < c.toNat ∧ c.toNat < 0x110000 := c.valid

/-- No character is a surrogate, so a unit that is one never stands for itself. -/
theorem not_surrogate {c : Char} {u : Nat} (h : c.toNat = u) : ¬ (IsHigh u ∨ IsLow u) := by
  have hrange := toNat_range c
  unfold IsHigh IsLow
  omega

/-- Units stand for one text. -/
theorem StandFor.unique {units : List Nat} {text text' : List Char} (h : StandFor units text)
    (h' : StandFor units text') : text = text' := by
  induction h generalizing text' with
  | nil =>
      cases h'
      rfl
  | plain hc _ _ ih =>
      cases h' with
      | plain hc' _ hrest => rw [Char.toNat_inj.mp (hc.trans hc'.symm), ih hrest]
      | pair hhigh => exact absurd (.inl hhigh) (not_surrogate hc)
      | lone hu => exact absurd hu (not_surrogate hc)
  | pair hhigh hlow hc _ ih =>
      cases h' with
      | plain hc' => exact absurd (.inl hhigh) (not_surrogate hc')
      | pair _ _ hc' hrest => rw [Char.toNat_inj.mp (hc.trans hc'.symm), ih hrest]
      | lone _ hlone => exact absurd ⟨hhigh, _, rfl, hlow⟩ hlone
  | lone hu hlone _ ih =>
      cases h' with
      | plain hc' => exact absurd hu (not_surrogate hc')
      | pair hhigh hlow => exact absurd ⟨hhigh, _, rfl, hlow⟩ hlone
      | lone _ _ hrest => rw [ih hrest]

theorem toNat_ofNat_of_plain {u : Nat} (hu : u < 0x110000) (h : ¬ (0xD800 ≤ u ∧ u < 0xE000)) :
    (Char.ofNat u).toNat = u := by
  have hvalid : u.isValidChar := by
    unfold Nat.isValidChar
    omega
  rw [Char.toNat_ofNat, if_pos hvalid]

/-- The reader joins units into the text that they stand for. -/
theorem standFor_charsOfUnits {units : List Nat} (h : ∀ u ∈ units, u < 0x10000) :
    StandFor units (charsOfUnits units) := by
  fun_induction charsOfUnits units with
  | case1 => exact .nil
  | case2 u =>
      have hu : u < 0x10000 := h u (List.mem_singleton_self u)
      split
      · rename_i hsurrogate
        simp only [Bool.and_eq_true, decide_eq_true_eq] at hsurrogate
        refine .lone ?_ (by simp) .nil
        unfold IsHigh IsLow
        omega
      · rename_i hplain
        simp only [Bool.and_eq_true, decide_eq_true_eq] at hplain
        exact .plain (toNat_ofNat_of_plain (by omega) hplain) hu .nil
  | case3 u v rest hpair ih =>
      simp only [Bool.and_eq_true, decide_eq_true_eq] at hpair
      obtain ⟨⟨⟨hu, hu'⟩, hv⟩, hv'⟩ := hpair
      refine .pair ⟨hu, hu'⟩ ⟨hv, hv'⟩ (toNat_ofNat_of_plain (by omega) (by omega)) (ih ?_)
      intro w hw
      exact h w (List.mem_cons_of_mem u (List.mem_cons_of_mem v hw))
  | case4 u v rest hpair hsurrogate ih =>
      simp only [Bool.and_eq_true, decide_eq_true_eq] at hpair hsurrogate
      refine .lone ?_ ?_ (ih fun w hw => h w (List.mem_cons_of_mem u hw))
      · unfold IsHigh IsLow
        omega
      · rintro ⟨⟨hu, hu'⟩, low, hlow, hv, hv'⟩
        rw [List.head?_cons, Option.mem_def, Option.some.injEq] at hlow
        omega
  | case5 u v rest _ hplain ih =>
      simp only [Bool.and_eq_true, decide_eq_true_eq] at hplain
      have hu : u < 0x10000 := h u List.mem_cons_self
      exact .plain (toNat_ofNat_of_plain (by omega) hplain) hu
        (ih fun w hw => h w (List.mem_cons_of_mem u hw))

theorem Group.lt {group : List UInt8} {u : Nat} (h : Group group u) : u < 0x10000 := by
  cases h <;> omega

theorem Spells.lt {bytes : List UInt8} {units : List Nat} (h : Spells bytes units) :
    ∀ u ∈ units, u < 0x10000 := by
  induction h with
  | nil => simp
  | cons hgroup _ ih =>
      intro u hu
      obtain rfl | hu := List.mem_cons.mp hu
      · exact hgroup.lt
      · exact ih u hu

/-! ### Reading texts -/

/-- The length that stored bytes declare. If there are fewer than two bytes, it is what they would
begin to say. -/
def declaredLength (bytes : List UInt8) : Nat := bigEndian (bytes.take 2)

/-- As many of the bytes behind the length as it declares, or all that are there. -/
def declaredBody (bytes : List UInt8) : List UInt8 := (bytes.drop 2).take (declaredLength bytes)

section

variable {σ : Type} {next : ByteSource σ} {s t : σ} {bytes : List UInt8}

/-- The source ends before the text does, and the bytes until then hold no malformed group. -/
def EndsEarly (bytes : List UInt8) : Prop :=
  bytes ≠ [] ∧ bytes.length < 2 + declaredLength bytes ∧
    ¬ Broken (declaredLength bytes) (bytes.drop 2)

/-- Why no text is read from a source that has these bytes and then ends: each error has its own
exact condition. -/
inductive FailsWith (bytes : List UInt8) : TextError → Prop
  | empty : bytes = [] → FailsWith bytes .endOfStream
  | short : EndsEarly bytes → FailsWith bytes .unexpectedEnd
  | malformed {detail : Malformed} : Broken (declaredLength bytes) (declaredBody bytes) →
      FailsWith bytes (.malformed detail)

/-- What reading a text from a source comes to, given the bytes that the source has until it
ends. -/
structure ReadsText (next : ByteSource σ) (s : σ) (bytes : List UInt8)
    (outcome : Except TextError String × σ) : Prop where
  /-- A text is read just if all bytes of the declared length are there and spell units. -/
  accepts : (∃ text, outcome.1 = .ok text) ↔
    2 + declaredLength bytes ≤ bytes.length ∧ ∃ units, Spells (declaredBody bytes) units
  /-- The text is what the units stand for, and exactly its bytes were taken. -/
  text : ∀ text, outcome.1 = .ok text →
    (∃ units, Spells (declaredBody bytes) units ∧ StandFor units text.toList) ∧
      Supplies next s (bytes.take (2 + declaredLength bytes)) outcome.2
  /-- A failure has taken no byte behind the declared length. -/
  taken : ∀ e, outcome.1 = .error e → ∃ count, count ≤ 2 + declaredLength bytes ∧
    count ≤ bytes.length ∧ Supplies next s (bytes.take count) outcome.2
  /-- The end of the stream is reported just if there is no byte at all. -/
  endOfStream : outcome.1 = .error .endOfStream ↔ bytes = []
  /-- An unexpected end is reported just if the stream ends before the text and shows no malformed
  group. -/
  unexpectedEnd : outcome.1 = .error .unexpectedEnd ↔ EndsEarly bytes
  /-- Malformed text is reported just if the bytes of the text that are there hold a malformed
  group. -/
  malformed : (∃ detail, outcome.1 = .error (.malformed detail)) ↔
    Broken (declaredLength bytes) (declaredBody bytes)
  /-- Nothing else is reported: where a text is neither read nor cut off, it is malformed. -/
  otherwise : ∀ e, outcome.1 = .error e → bytes ≠ [] → ¬ EndsEarly bytes →
    ∃ detail, e = .malformed detail

theorem declaredBody_of_short (h : bytes.length < 2 + declaredLength bytes) :
    declaredBody bytes = bytes.drop 2 := by
  rw [declaredBody, List.take_of_length_le]
  rw [List.length_drop]
  omega

/-- The conditions of the failures exclude each other. -/
theorem EndsEarly.not_broken (h : EndsEarly bytes) :
    ¬ Broken (declaredLength bytes) (declaredBody bytes) := by
  obtain ⟨-, hshort, hwhole⟩ := h
  rwa [declaredBody_of_short hshort]

theorem not_broken_declaredBody_nil : ¬ Broken (declaredLength []) (declaredBody []) :=
  not_broken_nil 0

theorem FailsWith.endOfStream_iff {e : TextError} (h : FailsWith bytes e) :
    e = .endOfStream ↔ bytes = [] := by
  cases h with
  | empty hempty => simp [hempty]
  | short hearly => simp [hearly.1]
  | malformed hbroken =>
      refine ⟨nofun, ?_⟩
      rintro rfl
      exact absurd hbroken not_broken_declaredBody_nil

theorem FailsWith.unexpectedEnd_iff {e : TextError} (h : FailsWith bytes e) :
    e = .unexpectedEnd ↔ EndsEarly bytes := by
  cases h with
  | empty hempty => simp [EndsEarly, hempty]
  | short hearly => simp [hearly]
  | malformed hbroken =>
      refine ⟨nofun, fun hearly => ?_⟩
      exact absurd hbroken hearly.not_broken

theorem FailsWith.malformed_iff {e : TextError} (h : FailsWith bytes e) :
    (∃ detail, e = .malformed detail) ↔ Broken (declaredLength bytes) (declaredBody bytes) := by
  cases h with
  | empty hempty =>
      subst hempty
      simp [not_broken_declaredBody_nil]
  | short hearly => simp [hearly.not_broken]
  | malformed hbroken => simp [hbroken]

/-- A failure for one of the three reasons: each `↔` is read off the reason, since the conditions of
the reasons exclude each other. -/
theorem ReadsText.of_error {e : TextError} (count : Nat)
    (hrefused : 2 + declaredLength bytes ≤ bytes.length →
      ∀ units, ¬ Spells (declaredBody bytes) units)
    (hcount : count ≤ 2 + declaredLength bytes) (hlength : count ≤ bytes.length)
    (htaken : Supplies next s (bytes.take count) t) (hreason : FailsWith bytes e) :
    ReadsText next s bytes (.error e, t) where
  accepts := by
    constructor
    · rintro ⟨text, htext⟩
      cases htext
    · rintro ⟨hcomplete, units, hspells⟩
      exact absurd hspells (hrefused hcomplete units)
  text := by
    intro text htext
    cases htext
  taken := by
    intro _ _
    exact ⟨count, hcount, hlength, htaken⟩
  endOfStream := by rw [Except.error.injEq, hreason.endOfStream_iff]
  unexpectedEnd := by rw [Except.error.injEq, hreason.unexpectedEnd_iff]
  malformed := by simp only [Except.error.injEq, hreason.malformed_iff]
  otherwise := by
    intro e' he' hsome hlate
    cases he'
    cases hreason with
    | empty hempty => exact absurd hempty hsome
    | short hearly => exact absurd hearly hlate
    | malformed _ => exact ⟨_, rfl⟩

theorem ReadsText.of_ok {units : List Nat} {chars : List Char} (hsome : bytes ≠ [])
    (hcomplete : 2 + declaredLength bytes ≤ bytes.length)
    (hspells : Spells (declaredBody bytes) units) (hstand : StandFor units chars)
    (htaken : Supplies next s (bytes.take (2 + declaredLength bytes)) t) :
    ReadsText next s bytes (.ok (String.ofList chars), t) where
  accepts := ⟨fun _ => ⟨hcomplete, units, hspells⟩, fun _ => ⟨_, rfl⟩⟩
  text := by
    intro text htext
    cases htext
    exact ⟨⟨units, hspells, by rwa [String.toList_ofList]⟩, htaken⟩
  taken := by
    intro e he
    cases he
  endOfStream := by simp [hsome]
  unexpectedEnd := by
    refine ⟨nofun, fun hearly => ?_⟩
    exact absurd hearly.2.1 (Nat.not_lt.mpr hcomplete)
  malformed := by
    have hlength : (declaredBody bytes).length = declaredLength bytes := by
      rw [declaredBody, List.length_take, List.length_drop]
      omega
    refine ⟨nofun, fun hbroken => ?_⟩
    rw [← hlength] at hbroken
    exact absurd hbroken hspells.not_broken
  otherwise := by
    intro e he
    cases he

theorem declaredLength_cons (high low : UInt8) (rest : List UInt8) :
    declaredLength (high :: low :: rest) = high.toNat * 256 + low.toNat := by
  simp [declaredLength, bigEndian]

theorem declaredBody_cons (high low : UInt8) (rest : List UInt8) :
    declaredBody (high :: low :: rest) = rest.take (high.toNat * 256 + low.toNat) := by
  rw [declaredBody, declaredLength_cons]
  rfl

theorem take_header (high low : UInt8) (rest : List UInt8) (count : Nat) :
    (high :: low :: rest).take (2 + count) = high :: low :: rest.take count := by
  rw [Nat.add_comm]
  rfl

/-- Behind the two bytes of its length, reading a text is reading its units and joining them. -/
theorem readText_of_header {s₁ s₂ : σ} {high low : UInt8} (hhigh : next s = .ok (high, s₁))
    (hlow : next s₁ = .ok (low, s₂)) :
    readText next s =
      let units := readUnits next (high.toNat * 256 + low.toNat) s₂
      (units.1.map fun us => String.ofList (charsOfUnits us), units.2) := by
  rw [readText, hhigh]
  dsimp only
  rw [hlow]

/-- Reading a text whose length is there comes to what reading its units does. -/
theorem readText_reads_of_header {s₁ s₂ : σ} {high low : UInt8} {rest : List UInt8}
    (hhigh : next s = .ok (high, s₁)) (hlow : next s₁ = .ok (low, s₂))
    (hrest : Supplies next s₂ rest t) (hend : next t = .error .endOfStream) :
    ReadsText next s (high :: low :: rest) (readText next s) := by
  rw [readText_of_header hhigh hlow]
  have hlength := declaredLength_cons high low rest
  have hbody := declaredBody_cons high low rest
  have hreads := readsUnits next (high.toNat * 256 + low.toNat) s₂
  generalize high.toNat * 256 + low.toNat = count at hlength hbody hreads
  have htwo : (high :: low :: rest).length = 2 + rest.length := by
    rw [List.length_cons, List.length_cons]
    omega
  generalize readUnits next count s₂ = result at hreads
  cases hreads with
  | @read body units u hall hsupplies hspells =>
      obtain ⟨more, rfl, -⟩ := hsupplies.split hrest (hsupplies.length_le hrest hend)
      have htake : (body ++ more).take count = body := by rw [← hall, List.take_left]
      refine .of_ok (List.cons_ne_nil _ _) (by rw [hlength, htwo, List.length_append]; omega) ?_
        (standFor_charsOfUnits hspells.lt) ?_
      · rwa [hbody, htake]
      · rw [hlength, take_header, htake]
        exact .cons hhigh (.cons hlow hsupplies)
  | @missing front e u hfew hsupplies hfail hwhole =>
      obtain ⟨more, rfl, hmore⟩ := hsupplies.split hrest (hsupplies.length_le hrest hend)
      cases hmore with
      | cons hnext _ =>
          rw [hfail] at hnext
          cases hnext
      | nil =>
          rw [hend] at hfail
          cases hfail
          rw [List.append_nil] at hlength htwo ⊢
          have hshort : (high :: low :: front).length <
              2 + declaredLength (high :: low :: front) := by
            omega
          refine .of_error (2 + front.length)
            (fun hcomplete => absurd hshort (Nat.not_lt.mpr hcomplete))
            (by omega) (by omega) ?_ (.short ⟨List.cons_ne_nil _ _, hshort, by rwa [hlength]⟩)
          rw [take_header, List.take_length]
          exact .cons hhigh (.cons hlow hsupplies)
  | @malformed front detail u hfew hsupplies hbroken =>
      obtain ⟨more, rfl, -⟩ := hsupplies.split hrest (hsupplies.length_le hrest hend)
      have hfound : Broken count ((front ++ more).take count) := by
        rw [List.take_append, List.take_of_length_le hfew]
        exact hbroken.append _
      refine .of_error (2 + front.length) ?_ (by omega) (by rw [htwo, List.length_append]; omega) ?_
        (.malformed (by rwa [hbody, hlength]))
      · intro hcomplete units hspells
        have hall : ((front ++ more).take count).length = count := by
          rw [hlength, htwo] at hcomplete
          rw [List.length_take]
          omega
        rw [hbody] at hspells
        exact hspells.not_broken (by rwa [hall])
      · rw [take_header, List.take_left]
        exact .cons hhigh (.cons hlow hsupplies)

/-- The reader accepts just the stored texts and never reads past one. From a source that has
`bytes` and then ends it reads a text if the bytes of the declared length are all there and split
into groups; it then has taken these bytes and gives the text that their units stand for. Otherwise
it fails and has taken none behind the declared length. It names the end of the stream just on the
empty stream, an unexpected end just where the stream ends inside the text and shows no malformed
group before, and malformed text just where the bytes that are there hold a malformed group, be the
stream long enough or not.

The proof rests on `readsUnits`, the reader's recursion followed group by group; the length bytes
are taken off in front of it. -/
theorem readText_reads (hbytes : Supplies next s bytes t) (hend : next t = .error .endOfStream) :
    ReadsText next s bytes (readText next s) := by
  cases hbytes with
  | nil =>
      rw [readText, hend]
      exact .of_error 0 (by simp) (Nat.zero_le _) (Nat.zero_le _) (.nil s) (.empty rfl)
  | @cons _ s₁ _ high rest hhigh hrest =>
      cases hrest with
      | nil =>
          have hread : readText next s = (.error .unexpectedEnd, t) := by
            rw [readText, hhigh]
            dsimp only
            rw [hend]
            rfl
          have hshort : [high].length < 2 + declaredLength [high] := by
            rw [List.length_singleton]
            omega
          rw [hread]
          exact .of_error 1 (fun hcomplete => absurd hshort (Nat.not_lt.mpr hcomplete)) (by omega)
            (Nat.le_refl 1) (.cons hhigh (.nil t))
            (.short ⟨List.cons_ne_nil _ _, hshort, not_broken_nil _⟩)
      | cons hlow hrest => exact readText_reads_of_header hhigh hlow hrest hend

end

/-- The five ways that reading ends: a surrogate alone with a byte behind the text, a group that is
broken off by another byte, the empty stream, a stream that ends inside a group of three whose
second byte is wrong, and one that ends too early though its first byte starts no group. -/
theorem readText_reads_samples :
    let lone : List UInt8 := [0, 3, 0xED, 0xA0, 0x80, 9]
    let broken : List UInt8 := [0, 2, 0xC3, 0x41, 9]
    let unfinished : List UInt8 := [0, 3, 0xE0, 0x41]
    let noLead : List UInt8 := [0, 5, 0xFF]
    ReadsText listSource lone lone (.ok "\uFFFD", [9]) ∧
      ReadsText listSource broken broken (.error (.malformed (.continuation 0x41)), [9]) ∧
      ReadsText listSource [] [] (.error .endOfStream, []) ∧
      ReadsText listSource unfinished unfinished (.error .unexpectedEnd, []) ∧
      ReadsText listSource noLead noLead (.error (.malformed (.lead 0xFF)), []) := by
  intro lone broken unfinished noLead
  have hsupplies (bytes : List UInt8) : Supplies listSource bytes bytes [] :=
    supplies_listSource_iff.mpr (List.append_nil _).symm
  have hlone : readText listSource lone = (.ok "\uFFFD", [9]) := by decide +kernel
  have hbroken : readText listSource broken = (.error (.malformed (.continuation 0x41)), [9]) := by
    decide +kernel
  have hempty : readText listSource [] = (.error .endOfStream, []) := rfl
  have hunfinished : readText listSource unfinished = (.error .unexpectedEnd, []) := by
    decide +kernel
  have hnoLead : readText listSource noLead = (.error (.malformed (.lead 0xFF)), []) := by
    decide +kernel
  rw [← hlone, ← hbroken, ← hempty, ← hunfinished, ← hnoLead]
  exact ⟨readText_reads (hsupplies lone) rfl, readText_reads (hsupplies broken) rfl,
    readText_reads (hsupplies []) rfl, readText_reads (hsupplies unfinished) rfl,
    readText_reads (hsupplies noLead) rfl⟩

end RegisterVM.Debug
