import RegisterVM.Proofs.StoredText

/-!
# Stored texts read back

A text is written as the UTF-16 units of its characters and these as groups of bytes. Each of the
two steps gives something that the relations of the reader describe: the bytes spell the units, and
the units stand for the text, since a character outside the basic plane is the one pair of
surrogates that its units make. So whatever source supplies the written bytes, the text is read back
from it and nothing more is taken.
-/

namespace RegisterVM.Debug

/-! ### Units of a text -/

theorem unitsOfChar_lt {c : Char} {u : Nat} (h : u ∈ unitsOfChar c) : u < 0x10000 := by
  have hrange := toNat_range c
  unfold unitsOfChar at h
  split at h
  · rw [List.mem_singleton.mp h]
    assumption
  · simp only [List.mem_cons, List.not_mem_nil, or_false] at h
    omega

/-- The units of a text stand for it. A character outside the basic plane gives a pair, and the
halves of two pairs are never taken together. -/
theorem standFor_flatMap (text : List Char) : StandFor (text.flatMap unitsOfChar) text := by
  induction text with
  | nil => exact .nil
  | cons c rest ih =>
      have hrange := toNat_range c
      rw [List.flatMap_cons, unitsOfChar]
      split
      · rename_i hplain
        exact .plain rfl hplain ih
      · rename_i hpair
        refine .pair ⟨by omega, by omega⟩ ⟨by omega, by omega⟩ ?_ ih
        omega

/-! ### Bytes of units -/

/-- A unit is written as a group, the shortest one but for zero. -/
theorem group_bytesOfUnit {u : Nat} (hu : u < 0x10000) : Group (bytesOfUnit u) u := by
  unfold bytesOfUnit
  split
  · rename_i hsingle
    simp only [bne_iff_ne, ne_eq, Bool.and_eq_true, decide_eq_true_eq] at hsingle
    exact .one hsingle.2
  · split
    · have hgroup := Group.two (x := u / 64) (y := u % 64) (by omega) (by omega)
      rwa [Nat.div_add_mod'] at hgroup
    · have hgroup :=
        Group.three (x := u / 4096) (y := u / 64 % 64) (z := u % 64) (by omega) (by omega)
        (by omega)
      rwa [show u / 4096 * 4096 + u / 64 % 64 * 64 + u % 64 = u by omega] at hgroup

theorem spells_flatMap {units : List Nat} (h : ∀ u ∈ units, u < 0x10000) :
    Spells (units.flatMap bytesOfUnit) units := by
  induction units with
  | nil => exact .nil
  | cons u rest ih =>
      rw [List.flatMap_cons]
      refine .cons (group_bytesOfUnit (h u List.mem_cons_self)) (ih ?_)
      intro v hv
      exact h v (List.mem_cons_of_mem u hv)

/-- No byte of a unit is zero, since the unit zero is written as two bytes. -/
theorem bytesOfUnit_ne_zero {u : Nat} (hu : u < 0x10000) {b : UInt8} (hb : b ∈ bytesOfUnit u) :
    b ≠ 0 := by
  rintro rfl
  obtain ⟨a, hbytes, -, rfl⟩ | ⟨a, c, hbytes, ha, hc, -⟩ | ⟨a, c, d, hbytes, ha, hc, hd, -⟩ :=
    group_iff.mp (group_bytesOfUnit hu)
  · rw [hbytes, List.mem_singleton] at hb
    subst hb
    exact absurd hbytes (by decide)
  · rw [hbytes, List.mem_pair] at hb
    obtain rfl | rfl := hb
    · exact absurd ha.1 (by decide)
    · exact absurd hc.1 (by decide)
  · rw [hbytes, List.mem_cons, List.mem_pair] at hb
    obtain rfl | rfl | rfl := hb
    · exact absurd ha.1 (by decide)
    · exact absurd hc.1 (by decide)
    · exact absurd hd.1 (by decide)

/-! ### Bytes of a text -/

/-- How many bytes modified UTF-8 has for a character. -/
def storedSize (c : Char) : Nat :=
  if c.toNat = 0 then 2
  else if c.toNat < 0x80 then 1
  else if c.toNat < 0x800 then 2
  else if c.toNat < 0x10000 then 3
  else 6

/-- The bytes of a text behind its length. -/
def storedBody (text : List Char) : List UInt8 := (text.flatMap unitsOfChar).flatMap bytesOfUnit

theorem length_bytesOfUnit (u : Nat) :
    (bytesOfUnit u).length =
      if u = 0 then 2 else if u < 0x80 then 1 else if u < 0x800 then 2 else 3 := by
  unfold bytesOfUnit
  by_cases hzero : u = 0
  · subst hzero
    rfl
  · rw [if_neg hzero]
    by_cases hsingle : u < 0x80
    · rw [if_pos hsingle, if_pos (by simp [hzero, hsingle])]
      rfl
    · rw [if_neg hsingle, if_neg (by simp [hsingle])]
      split <;> rfl

theorem length_unitsOfChar_flatMap (c : Char) :
    ((unitsOfChar c).flatMap bytesOfUnit).length = storedSize c := by
  unfold unitsOfChar storedSize
  split
  · rw [List.flatMap_singleton, length_bytesOfUnit]
  · rename_i hpair
    -- both surrogates are written in three bytes
    have hthree {u : Nat} (hu : 0x800 ≤ u) : (bytesOfUnit u).length = 3 := by
      rw [length_bytesOfUnit, if_neg (by omega), if_neg (by omega), if_neg (by omega)]
    rw [List.flatMap_cons, List.flatMap_singleton, List.length_append, hthree (by omega),
      hthree (by omega), if_neg (by omega), if_neg (by omega), if_neg (by omega)]

/-- A text takes as many bytes as its characters together. -/
theorem length_storedBody (text : List Char) :
    (storedBody text).length = (text.map storedSize).sum := by
  induction text with
  | nil => rfl
  | cons c rest ih =>
      unfold storedBody at ih ⊢
      rw [List.flatMap_cons, List.flatMap_append, List.length_append, length_unitsOfChar_flatMap,
        ih, List.map_cons, List.sum_cons]

theorem units_lt {text : List Char} : ∀ u ∈ text.flatMap unitsOfChar, u < 0x10000 := by
  intro u hu
  obtain ⟨c, -, hc⟩ := List.mem_flatMap.mp hu
  exact unitsOfChar_lt hc

theorem storedBody_ne_zero {text : List Char} : ∀ b ∈ storedBody text, b ≠ 0 := by
  intro b hb
  obtain ⟨u, hu, hbytes⟩ := List.mem_flatMap.mp hb
  exact bytesOfUnit_ne_zero (units_lt u hu) hbytes

/-! ### Writing and reading -/

theorem encodeText_eq (text : List Char) : encodeText text =
    if 0xFFFF < (storedBody text).length then .error ⟨(storedBody text).length⟩
    else .ok (toBigEndian 2 (storedBody text).length ++ storedBody text) := rfl

/-- What is written of a text that fits its length field. -/
theorem encodeText_of_le (text : List Char) (h : (storedBody text).length ≤ 0xFFFF) :
    ∃ high low, encodeText text = .ok (high :: low :: storedBody text) ∧
      (storedBody text).length = high.toNat * 256 + low.toNat := by
  obtain ⟨high, low, hlength⟩ :=
    List.length_eq_two.mp (length_toBigEndian 2 (storedBody text).length)
  refine ⟨high, low, ?_, ?_⟩
  · rw [encodeText_eq, if_neg (Nat.not_lt.mpr h), hlength]
    rfl
  · have hvalue := bigEndian_toBigEndian 2 (storedBody text).length
    rw [hlength, Nat.mod_eq_of_lt (by omega)] at hvalue
    simpa [bigEndian] using hvalue.symm

/-- A text is read back from any source that supplies its stored form, and the source is left right
behind it. -/
theorem readText_of_supplies {σ : Type} {next : ByteSource σ} {s t : σ} {text : List Char}
    {high low : UInt8} (hlength : (storedBody text).length = high.toNat * 256 + low.toNat)
    (h : Supplies next s (high :: low :: storedBody text) t) :
    readText next s = (.ok (String.ofList text), t) := by
  obtain _ | ⟨hhigh, _ | ⟨hlow, hbody⟩⟩ := h
  have hunits := readUnits_of_spells hbody (spells_flatMap units_lt)
  have hchars : charsOfUnits (text.flatMap unitsOfChar) = text :=
    (standFor_charsOfUnits units_lt).unique (standFor_flatMap text)
  rw [readText_of_header hhigh hlow, ← hlength, hunits]
  dsimp only [Except.map]
  rw [hchars]

/-- Texts survive being stored. A text is refused just if its bytes in modified UTF-8 are more than
the length field can say, and then the bytes before it stay as they are. Otherwise they are followed
by the length and the bytes of the text, none of which is zero, and reading these gives the text
back, whatever follows, and leaves just that unread.

Reading back goes through the relations of the reader: the bytes spell the units (`spells_flatMap`),
the units stand for the text (`standFor_flatMap`), and both relations determine what is read. -/
theorem appendText_round_trip (text : List Char) (dst rest : List UInt8) :
    let size := (text.map storedSize).sum
    ((∃ e, (appendText dst text).2 = some e) ↔ 0xFFFF < size) ∧
    (0xFFFF < size → (appendText dst text).1 = dst) ∧
    (size ≤ 0xFFFF → ∃ high low body, appendText dst text = (dst ++ high :: low :: body, none) ∧
      body.length = size ∧ (∀ b ∈ body, b ≠ 0) ∧
      readText listSource (high :: low :: body ++ rest) = (.ok (String.ofList text), rest)) := by
  intro size
  have hsize : (storedBody text).length = size := length_storedBody text
  by_cases hlong : 0xFFFF < size
  · have hrefused : appendText dst text = (dst, some ⟨size⟩) := by
      rw [appendText, encodeText_eq, hsize, if_pos hlong]
    rw [hrefused]
    refine ⟨⟨fun _ => hlong, fun _ => ⟨_, rfl⟩⟩, fun _ => rfl, ?_⟩
    intro hfits
    exact absurd hlong (Nat.not_lt.mpr hfits)
  · obtain ⟨high, low, hcode, hlength⟩ := encodeText_of_le text (by omega)
    have hwritten : appendText dst text = (dst ++ high :: low :: storedBody text, none) := by
      rw [appendText, hcode]
    have hsupplies : Supplies listSource (high :: low :: storedBody text ++ rest)
        (high :: low :: storedBody text) rest := supplies_listSource_iff.mpr rfl
    rw [hwritten]
    refine ⟨⟨?_, fun h => absurd h hlong⟩, fun h => absurd h hlong, fun _ => ?_⟩
    · rintro ⟨e, he⟩
      cases he
    · exact ⟨high, low, _, rfl, hsize, storedBody_ne_zero, readText_of_supplies hlength hsupplies⟩

/-- A zero, a letter, a character of the basic plane and one outside it. -/
theorem appendText_round_trip_planes :
    let text := ['\x00', 'a', '€', '😀']
    let code : List UInt8 :=
      [0, 12, 0xC0, 0x80, 0x61, 0xE2, 0x82, 0xAC, 0xED, 0xA0, 0xBD, 0xED, 0xB8, 0x80]
    appendText [7] text = (7 :: code, none) ∧
      readText listSource (code ++ [9]) = (.ok (String.ofList text), [9]) := by
  intro text code
  obtain ⟨-, -, hfits⟩ := appendText_round_trip text [7] [9]
  obtain ⟨high, low, body, hwritten, -, -, hread⟩ := hfits (by decide)
  have hcode : appendText [7] text = (7 :: code, none) := by decide
  rw [hcode, Prod.mk.injEq] at hwritten
  obtain ⟨rfl, rfl, rfl⟩ : 0 = high ∧ 12 = low ∧ code.drop 2 = body := by
    have hbytes : code = high :: low :: body := (List.cons.inj hwritten.1).2
    rw [List.cons.injEq, List.cons.injEq] at hbytes
    exact hbytes
  exact ⟨hcode, hread⟩

end RegisterVM.Debug
