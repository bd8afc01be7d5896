import RegisterVM.Library.Digest
import RegisterVM.Proofs.Bytes

/-!
# Digests and their text

A numeral with zeros in front says two things: how many zeros those are, and a number. `SameNumeral`
relates two numerals, each in a base of its own, that agree on both. Either one then determines the
other (`SameNumeral.eq_convert`), and `convert` computes it.

`Spells` is the format of base 58 over this: every character is a digit of the alphabet, a digit `1`
stands in front for every zero byte in front, and the digits denote the number that the bytes
denote. Encoding writes the one text that spells the bytes, and decoding accepts just such texts, so
that each undoes the other. Past `digits_eq_reverse` nothing depends on how the digits of a number
are found.
-/

namespace RegisterVM.Text.Base58

/-! ### Numbers and their digits -/

/-- The digits of a number, most significant first, are those that the library finds, the other way
round. -/
theorem digits_eq_reverse {base : Nat} (hbase : 1 < base) (n : Nat) :
    digits base n = (Nat.digits base n).reverse := by
  induction n using Nat.strong_induction_on with
  | _ n ih =>
      rw [digits]
      by_cases hn : 0 < n
      · rw [dif_pos ⟨hbase, hn⟩, ih _ (Nat.div_lt_self hn hbase), Nat.digits_def' hbase hn,
          List.reverse_cons]
      · rw [dif_neg fun h => hn h.2, Nat.eq_zero_of_not_pos hn, Nat.digits_zero, List.reverse_nil]

theorem ofDigits_eq_reverse (base : Nat) (values : List Nat) :
    ofDigits base values = Nat.ofDigits base values.reverse := by
  rw [Nat.ofDigits_eq_foldr, List.foldr_reverse, ofDigits]
  congr 1
  funext n value
  rw [Nat.cast_id, Nat.add_comm, Nat.mul_comm]

theorem lt_of_mem_digits {base n value : Nat} (hbase : 1 < base) (h : value ∈ digits base n) :
    value < base := by
  rw [digits_eq_reverse hbase, List.mem_reverse] at h
  exact Nat.digits_lt_base hbase h

/-- The digits of a number do not start with a zero; zero itself has none. -/
theorem takeWhile_digits {base : Nat} (hbase : 1 < base) (n : Nat) :
    (digits base n).takeWhile (· == 0) = [] := by
  rw [digits_eq_reverse hbase]
  rcases Nat.eq_zero_or_pos n with rfl | hn
  · rw [Nat.digits_zero, List.reverse_nil, List.takeWhile_nil]
  · have hne : Nat.digits base n ≠ [] := Nat.digits_ne_nil_iff_ne_zero.mpr (Nat.ne_of_gt hn)
    have hlast : (Nat.digits base n).getLast hne ≠ 0 :=
      Nat.getLast_digit_ne_zero base (Nat.ne_of_gt hn)
    rw [← List.dropLast_append_getLast hne, List.reverse_append, List.reverse_singleton,
      List.singleton_append, List.takeWhile_cons_of_neg (by simpa using hlast)]

/-- A numeral without a zero in front is the digits of its number. -/
theorem digits_ofDigits {base : Nat} (hbase : 1 < base) {values : List Nat}
    (hlt : ∀ value ∈ values, value < base) (hhead : ∀ h : values ≠ [], values.head h ≠ 0) :
    digits base (Nat.ofDigits base values.reverse) = values := by
  rw [digits_eq_reverse hbase, Nat.digits_ofDigits base hbase, List.reverse_reverse]
  · intro value hvalue
    exact hlt value (List.mem_reverse.mp hvalue)
  · intro hne
    rw [List.getLast_reverse]
    exact hhead _

/-! ### Numerals in two bases -/

/-- How many zeros a numeral has in front. They do not show in its number. -/
def leadingZeros (values : List Nat) : Nat := (values.takeWhile (· == 0)).length

/-- Two numerals, each in its own base, with one number and equally many zeros in front. In text
every zero in front stands for a zero byte, although the two are of different size. -/
structure SameNumeral (base target : Nat) (xs ys : List Nat) : Prop where
  left : ∀ x ∈ xs, x < base
  right : ∀ y ∈ ys, y < target
  zeros : leadingZeros xs = leadingZeros ys
  number : Nat.ofDigits base xs.reverse = Nat.ofDigits target ys.reverse

/-- The numeral in base `target` that says what `values` says in base `base`. -/
def convert (base target : Nat) (values : List Nat) : List Nat :=
  List.replicate (leadingZeros values) 0 ++ digits target (ofDigits base values)

theorem SameNumeral.symm {base target : Nat} {xs ys : List Nat}
    (h : SameNumeral base target xs ys) : SameNumeral target base ys xs :=
  ⟨h.right, h.left, h.zeros.symm, h.number.symm⟩

theorem takeWhile_zero_eq_replicate (values : List Nat) :
    values.takeWhile (· == 0) = List.replicate (leadingZeros values) 0 := by
  apply List.eq_replicate_of_mem
  intro value hvalue
  simpa using List.mem_takeWhile_imp hvalue

/-- A numeral is its zeros in front and then the digits of its number. So these two determine it,
given the base. -/
theorem replicate_append_digits {base : Nat} (hbase : 1 < base) {values : List Nat}
    (hlt : ∀ value ∈ values, value < base) :
    List.replicate (leadingZeros values) 0 ++ digits base (Nat.ofDigits base values.reverse)
      = values := by
  have hsplit : List.replicate (leadingZeros values) 0 ++ values.dropWhile (· == 0) = values := by
    rw [← takeWhile_zero_eq_replicate, List.takeWhile_append_dropWhile]
  have hnumber : Nat.ofDigits base values.reverse
      = Nat.ofDigits base (values.dropWhile (· == 0)).reverse := by
    conv_lhs => rw [← hsplit]
    rw [List.reverse_append, List.reverse_replicate, Nat.ofDigits_append_replicate_zero]
  have hdigits : digits base (Nat.ofDigits base (values.dropWhile (· == 0)).reverse)
      = values.dropWhile (· == 0) := by
    apply digits_ofDigits hbase
    · intro value hvalue
      exact hlt value ((List.dropWhile_sublist _).mem hvalue)
    · intro hne
      simpa using List.head_dropWhile_not (· == 0) hne
  rw [hnumber, hdigits, hsplit]

/-- Numerals that say the same determine each other. -/
theorem SameNumeral.eq_convert {base target : Nat} {xs ys : List Nat} (htarget : 1 < target)
    (h : SameNumeral base target xs ys) : ys = convert base target xs := by
  rw [convert, ofDigits_eq_reverse, h.zeros, h.number, replicate_append_digits htarget h.right]

/-- What `convert` gives says the same as what it was given. -/
theorem sameNumeral_convert {base target : Nat} {values : List Nat} (htarget : 1 < target)
    (hlt : ∀ value ∈ values, value < base) :
    SameNumeral base target values (convert base target values) where
  left := hlt
  right := by
    intro value hvalue
    rcases List.mem_append.mp hvalue with hzero | hdigit
    · rw [List.eq_of_mem_replicate hzero]
      omega
    · exact lt_of_mem_digits htarget hdigit
  zeros := by
    -- The zeros that are put in front stay apart from the digits, which do not start with one.
    have hzeros : ∀ value ∈ List.replicate (leadingZeros values) 0, (value == 0) = true := by
      intro value hvalue
      rw [List.eq_of_mem_replicate hvalue, beq_self_eq_true]
    rw [convert, leadingZeros.eq_def (_ ++ _), List.takeWhile_append_of_pos hzeros,
      takeWhile_digits htarget, List.append_nil, List.length_replicate]
  number := by
    rw [convert, List.reverse_append, List.reverse_replicate, Nat.ofDigits_append_replicate_zero,
      digits_eq_reverse htarget, List.reverse_reverse, Nat.ofDigits_digits, ofDigits_eq_reverse]

/-! ### The alphabet -/

/-- The letters and decimal digits of ASCII in code order, without the four that look like others.
This is a description of the alphabet that does not list it. -/
def unambiguous : List Char :=
  ((List.range 128).map Char.ofNat).filter fun c => c.isAlphanum && !("0OIl".toList.contains c)

/-- The character `c` is the digit for `value`: `value` unambiguous characters come before it. -/
def DigitOf (c : Char) (value : Nat) : Prop := unambiguous[value]? = some c

theorem length_alphabet : alphabet.length = 58 := by decide

theorem nodup_alphabet : alphabet.Nodup := by decide

theorem toNat_le_of_mem_alphabet {c : Char} (h : c ∈ alphabet) : c.toNat ≤ 127 := by
  have hall : alphabet.all (fun c => decide (c.toNat ≤ 127)) = true := by decide
  exact of_decide_eq_true (List.all_eq_true.mp hall c h)

/-- The alphabet that is used is the one described. -/
theorem digitOf_iff {c : Char} {value : Nat} : DigitOf c value ↔ alphabet[value]? = some c := by
  have halphabet : alphabet = unambiguous := by decide
  rw [DigitOf, halphabet]

theorem DigitOf.lt {c : Char} {value : Nat} (h : DigitOf c value) : value < 58 := by
  rw [← length_alphabet]
  exact (List.getElem?_eq_some_iff.mp (digitOf_iff.mp h)).1

theorem DigitOf.eq_digitChar {c : Char} {value : Nat} (h : DigitOf c value) :
    digitChar value = c := by
  rw [digitChar, List.getD_eq_getElem?_getD, digitOf_iff.mp h, Option.getD_some]

theorem digitOf_digitChar {value : Nat} (h : value < 58) : DigitOf (digitChar value) value := by
  rw [← length_alphabet] at h
  rw [digitOf_iff, digitChar, List.getD_eq_getElem _ _ h, List.getElem?_eq_getElem h]

theorem digitOf_one : DigitOf '1' 0 := by
  rw [digitOf_iff]
  decide

theorem DigitOf.value_inj {c : Char} {v w : Nat} (hv : DigitOf c v) (hw : DigitOf c w) : v = w := by
  have hlt : v < alphabet.length := length_alphabet ▸ hv.lt
  rw [digitOf_iff] at hv hw
  exact (List.getElem?_inj hlt nodup_alphabet).mp (hv.trans hw.symm)

/-- The digit `1`, and no other, stands for zero. -/
theorem DigitOf.eq_one_iff {c : Char} {value : Nat} (h : DigitOf c value) :
    c = '1' ↔ value = 0 := by
  constructor
  · rintro rfl
    exact h.value_inj digitOf_one
  · rintro rfl
    exact Option.some.inj (h.symm.trans digitOf_one)

theorem digitValue?_eq_some_iff {c : Char} {value : Nat} :
    digitValue? c = some value ↔ DigitOf c value := by
  constructor
  · intro h
    obtain ⟨hlt, hc, -⟩ := List.findIdx?_eq_some_iff_getElem.mp h
    rw [digitOf_iff, List.getElem?_eq_getElem hlt, eq_of_beq hc]
  · intro h
    obtain ⟨hlt, hc⟩ := List.getElem?_eq_some_iff.mp (digitOf_iff.mp h)
    refine List.findIdx?_eq_some_iff_getElem.mpr ⟨hlt, beq_iff_eq.mpr hc, ?_⟩
    intro j hj hother
    have hdigit : DigitOf c j :=
      digitOf_iff.mpr (List.getElem?_eq_some_iff.mpr ⟨by omega, eq_of_beq hother⟩)
    exact Nat.ne_of_lt hj (hdigit.value_inj h)

theorem readDigit_eq_ok_iff {c : Char} {value : Nat} :
    readDigit c = .ok value ↔ DigitOf c value := by
  rw [readDigit, ← digitValue?_eq_some_iff]
  constructor
  · intro h
    split at h
    · cases h
    · split at h
      · rename_i hvalue
        rw [hvalue, Except.ok.inj h]
      · cases h
  · intro h
    have hmem : c ∈ alphabet := List.mem_of_getElem? (digitOf_iff.mp (digitValue?_eq_some_iff.mp h))
    rw [if_neg (Nat.not_lt.mpr (toNat_le_of_mem_alphabet hmem)), h]

/-- Reading the digits of a text gives the numeral that it writes, and fails if one of its
characters is no digit. -/
theorem mapM_readDigit_eq_ok_iff {text : List Char} {values : List Nat} :
    text.mapM readDigit = .ok values ↔ List.Forall₂ DigitOf text values := by
  induction text generalizing values with
  | nil =>
      rw [List.mapM_nil, List.forall₂_nil_left_iff]
      exact ⟨fun h => (Except.ok.inj h).symm, fun h => h ▸ rfl⟩
  | cons c rest ih =>
      rw [List.mapM_cons, List.forall₂_cons_left_iff]
      constructor
      · intro h
        obtain ⟨value, hvalue, h⟩ := bind_eq_ok h
        obtain ⟨others, hothers, h⟩ := bind_eq_ok h
        exact ⟨value, others, readDigit_eq_ok_iff.mp hvalue, ih.mp hothers, (Except.ok.inj h).symm⟩
      · rintro ⟨value, others, hvalue, hothers, rfl⟩
        rw [readDigit_eq_ok_iff.mpr hvalue, ok_bind, ih.mpr hothers, ok_bind]
        rfl

theorem map_digitChar_of_forall₂ {text : List Char} {values : List Nat}
    (h : List.Forall₂ DigitOf text values) : values.map digitChar = text := by
  induction h with
  | nil => rfl
  | cons hdigit _ ih => rw [List.map_cons, ih, hdigit.eq_digitChar]

theorem forall₂_map_digitChar {values : List Nat} (hlt : ∀ value ∈ values, value < 58) :
    List.Forall₂ DigitOf (values.map digitChar) values := by
  rw [List.forall₂_map_left_iff, List.forall₂_same]
  intro value hvalue
  exact digitOf_digitChar (hlt value hvalue)

theorem lt_of_forall₂ {text : List Char} {values : List Nat}
    (h : List.Forall₂ DigitOf text values) :
    ∀ value ∈ values, value < 58 := by
  induction h with
  | nil => simp
  | cons hdigit _ ih => exact List.forall_mem_cons.mpr ⟨hdigit.lt, ih⟩

/-- The digits `1` in front of a text are the zeros in front of its numeral. -/
theorem leadingZeros_of_forall₂ {text : List Char} {values : List Nat}
    (h : List.Forall₂ DigitOf text values) :
    (text.takeWhile (· == '1')).length = leadingZeros values := by
  rw [leadingZeros]
  induction h with
  | nil => rfl
  | @cons c value _ _ hdigit _ ih =>
      by_cases hc : c = '1'
      · have hvalue := hdigit.eq_one_iff.mp hc
        rw [List.takeWhile_cons_of_pos (by simpa using hc), List.takeWhile_cons_of_pos
          (by simpa using hvalue), List.length_cons, List.length_cons, ih]
      · have hvalue := mt hdigit.eq_one_iff.mpr hc
        rw [List.takeWhile_cons_of_neg (by simpa using hc), List.takeWhile_cons_of_neg
          (by simpa using hvalue), List.length_nil, List.length_nil]

/-! ### Texts and the bytes that they spell -/

/-- A text spells bytes in base 58: it has a digit `1` in front for each zero byte in front, and its
characters are digits that denote the number that the bytes denote in base 256. Neither encoding nor
decoding is mentioned. -/
structure Spells (text : List Char) (bytes : List UInt8) : Prop where
  zeros : (text.takeWhile (· == '1')).length = (bytes.takeWhile (· == 0)).length
  number : ∃ values, List.Forall₂ DigitOf text values ∧
    Nat.ofDigits 58 values.reverse = Nat.ofDigits 256 (bytes.map UInt8.toNat).reverse

theorem leadingZeros_map_toNat (bytes : List UInt8) :
    leadingZeros (bytes.map UInt8.toNat) = (bytes.takeWhile (· == 0)).length := by
  have hzero : ((fun value : Nat => value == 0) ∘ UInt8.toNat) = fun b : UInt8 => b == 0 := by
    funext b
    rw [Function.comp_apply, Bool.eq_iff_iff, beq_iff_eq, beq_iff_eq, ← UInt8.toNat_inj,
      UInt8.toNat_zero]
  rw [leadingZeros, List.takeWhile_map, List.length_map, hzero]

theorem lt_of_mem_map_toNat {bytes : List UInt8} :
    ∀ value ∈ bytes.map UInt8.toNat, value < 256 := by
  intro value hvalue
  obtain ⟨b, -, rfl⟩ := List.mem_map.mp hvalue
  exact b.toNat_lt

/-- Spelling is saying the same in base 58 as the bytes say in base 256. -/
theorem spells_iff {text : List Char} {bytes : List UInt8} :
    Spells text bytes ↔ ∃ values, List.Forall₂ DigitOf text values ∧
      SameNumeral 58 256 values (bytes.map UInt8.toNat) := by
  constructor
  · rintro ⟨hzeros, values, hdigits, hnumber⟩
    rw [leadingZeros_of_forall₂ hdigits, ← leadingZeros_map_toNat] at hzeros
    exact ⟨values, hdigits, lt_of_forall₂ hdigits, lt_of_mem_map_toNat, hzeros, hnumber⟩
  · rintro ⟨values, hdigits, hsame⟩
    refine ⟨?_, values, hdigits, hsame.number⟩
    rw [leadingZeros_of_forall₂ hdigits, hsame.zeros, leadingZeros_map_toNat]

/-- Encoding converts the numeral of the bytes and writes its digits. -/
theorem toList_encode (bytes : List UInt8) :
    (encode bytes).toList = (convert 256 58 (bytes.map UInt8.toNat)).map digitChar := by
  have hnumber : ofDigits 256 (bytes.map UInt8.toNat) = bigEndian bytes := by
    rw [ofDigits, List.foldl_map, bigEndian]
  rw [encode, String.toList_ofList, convert, hnumber, leadingZeros_map_toNat, List.map_append,
    List.map_replicate, digitOf_one.eq_digitChar]

/-- Encoding writes the one text that spells the bytes. Existence and uniqueness are the two
directions. -/
theorem toList_encode_eq_iff {bytes : List UInt8} {text : List Char} :
    (encode bytes).toList = text ↔ Spells text bytes := by
  rw [toList_encode, spells_iff]
  constructor
  · rintro rfl
    have hsame : SameNumeral 256 58 (bytes.map UInt8.toNat)
        (convert 256 58 (bytes.map UInt8.toNat)) :=
      sameNumeral_convert (by decide) lt_of_mem_map_toNat
    exact ⟨_, forall₂_map_digitChar hsame.right, hsame.symm⟩
  · rintro ⟨values, hdigits, hsame⟩
    rw [← hsame.symm.eq_convert (by decide), map_digitChar_of_forall₂ hdigits]

theorem map_ofNat_map_toNat (bytes : List UInt8) :
    (bytes.map UInt8.toNat).map UInt8.ofNat = bytes := by
  rw [List.map_map]
  exact List.map_id'' (fun _ => UInt8.ofNat_toNat) bytes

theorem map_toNat_map_ofNat {values : List Nat} (hlt : ∀ value ∈ values, value < 256) :
    (values.map UInt8.ofNat).map UInt8.toNat = values := by
  have hid : ∀ value ∈ values, (UInt8.toNat ∘ UInt8.ofNat) value = id value := by
    intro value hvalue
    exact UInt8.toNat_ofNat_of_lt' (hlt value hvalue)
  rw [List.map_map, List.map_congr_left hid, List.map_id]

theorem decode_eq_ok_iff_values {text : List Char} {bytes : List UInt8} :
    decode text = .ok bytes ↔ text ≠ [] ∧ ∃ values, List.Forall₂ DigitOf text values ∧
      (convert 58 256 values).map UInt8.ofNat = bytes := by
  have hconvert (values : List Nat) : (convert 58 256 values).map UInt8.ofNat
      = List.replicate (leadingZeros values) 0 ++
        (digits 256 (ofDigits 58 values)).map UInt8.ofNat := by
    rw [convert, List.map_append, List.map_replicate]
    rfl
  cases text with
  | nil => simp [decode, throw, throwThe, MonadExceptOf.throw, bind, Except.bind]
  | cons c rest =>
      constructor
      · intro h
        obtain ⟨values, hvalues, h⟩ := bind_eq_ok h
        exact ⟨List.cons_ne_nil c rest, values, mapM_readDigit_eq_ok_iff.mp hvalues,
          (hconvert values).trans (Except.ok.inj h)⟩
      · rintro ⟨-, values, hvalues, rfl⟩
        rw [decode, List.isEmpty_cons, mapM_readDigit_eq_ok_iff.mpr hvalues, hconvert]
        rfl

/-- Decoding accepts the texts that spell something, the empty one apart, and gives what they
spell. -/
theorem decode_eq_ok_iff {text : List Char} {bytes : List UInt8} :
    decode text = .ok bytes ↔ text ≠ [] ∧ Spells text bytes := by
  rw [decode_eq_ok_iff_values, spells_iff]
  apply and_congr_right
  intro _
  apply exists_congr
  intro values
  apply and_congr_right
  intro hdigits
  -- For the values of the text, the bytes that are computed are the only ones with the same
  -- numeral.
  have hsame : SameNumeral 58 256 values (convert 58 256 values) :=
    sameNumeral_convert (by decide) (lt_of_forall₂ hdigits)
  constructor
  · rintro rfl
    rwa [map_toNat_map_ofNat hsame.right]
  · intro h
    rw [← h.eq_convert (by decide), map_ofNat_map_toNat]

/-- The empty text spells nothing but no bytes, and a digest has some. -/
theorem Spells.ne_nil {text : List Char} {bytes : List UInt8} (h : Spells text bytes)
    (hbytes : bytes ≠ []) : text ≠ [] := by
  rintro rfl
  obtain ⟨values, hdigits, hsame⟩ := spells_iff.mp h
  obtain rfl := List.forall₂_nil_left_iff.mp hdigits
  have hnil : bytes.map UInt8.toNat = [] := by
    rw [hsame.eq_convert (by decide), convert, ofDigits_eq_reverse, digits_eq_reverse (by decide)]
    simp [leadingZeros]
  exact hbytes (List.map_eq_nil_iff.mp hnil)

end RegisterVM.Text.Base58

namespace RegisterVM.Library.Digest

open Text.Base58

/-! ### Digests -/

@[simp] theorem length_toList (d : Digest) : d.toList.length = Hash.Blake2b.digestSize :=
  d.bytes.length_toList

theorem toList_ofBytes {bytes : List UInt8} (h : bytes.length = Hash.Blake2b.digestSize) :
    (ofBytes bytes).toList = bytes := by
  apply List.ext_getElem
  · rw [length_toList, h]
  · intro i hi hi'
    simp [ofBytes, toList, List.getElem?_eq_getElem hi']

theorem toList_injective {d e : Digest} (h : d.toList = e.toList) : d = e := by
  cases d
  cases e
  exact congrArg Digest.mk (Vector.toList_inj.mp h)

theorem ofBytes_toList (d : Digest) : ofBytes d.toList = d :=
  toList_injective (toList_ofBytes d.length_toList)

/-- Parsing is decoding to as many bytes as a digest has. A text that spells fewer or more is
refused. -/
theorem parse_eq_ok_iff_decode {s : String} {d : Digest} :
    parse s = .ok d ↔ decode s.toList = .ok d.toList := by
  rw [parse]
  constructor
  · intro h
    split at h
    · cases h
    · rename_i bytes hdecode
      split at h
      · rename_i hlength
        rw [← Except.ok.inj h, toList_ofBytes hlength, hdecode]
      · cases h
  · intro h
    rw [h]
    simp only [length_toList, if_true, ofBytes_toList]

/-- The parser accepts a text for a digest when the text spells its bytes. -/
theorem parse_eq_ok_iff {s : String} {d : Digest} : parse s = .ok d ↔ Spells s.toList d.toList := by
  have hbytes : d.toList ≠ [] := by
    intro hnil
    have hlength := d.length_toList
    rw [hnil] at hlength
    cases hlength
  rw [parse_eq_ok_iff_decode, decode_eq_ok_iff]
  exact ⟨fun h => h.2, fun h => ⟨h.ne_nil hbytes, h⟩⟩

/-- Each digest has one text, the parser reads it back, and the parser accepts no other: the text is
the one that spells the bytes of the digest in base 58.

Both directions go through `Spells`: writing and parsing are shown equivalent to it separately, and
so to each other. -/
theorem text_parse_bijective (d : Digest) :
    parse d.text = .ok d ∧ (∀ s, parse s = .ok d → d.text = s) ∧
      ∀ s, d.text = s ↔ Spells s.toList d.toList := by
  have htext (s : String) : d.text = s ↔ Spells s.toList d.toList := by
    rw [← toList_encode_eq_iff, ← String.toList_inj, text]
  refine ⟨?_, ?_, htext⟩
  · rw [parse_eq_ok_iff, ← htext]
  · intro s hparse
    exact (htext s).mpr (parse_eq_ok_iff.mp hparse)

/-- A digest that is zero but for its last byte but one. -/
def sparse : Digest := ofBytes (List.replicate 30 0 ++ [1, 0])

/-- Thirty digits for the thirty zero bytes in front, and 256 in two digits. -/
theorem text_parse_bijective_sparse :
    parse "1111111111111111111111111111115R" = .ok sparse ∧
      sparse.text = "1111111111111111111111111111115R" := by
  have hdigits : List.Forall₂ DigitOf "1111111111111111111111111111115R".toList
      (List.replicate 30 0 ++ [4, 24]) :=
    mapM_readDigit_eq_ok_iff.mp rfl
  have hspells : Spells "1111111111111111111111111111115R".toList sparse.toList :=
    ⟨by decide, _, hdigits, by decide⟩
  have htext := ((text_parse_bijective sparse).2.2 _).mpr hspells
  have hparse : parse "1111111111111111111111111111115R" = .ok sparse := by
    rw [← htext]
    exact (text_parse_bijective sparse).1
  exact ⟨hparse, (text_parse_bijective sparse).2.1 _ hparse⟩

end RegisterVM.Library.Digest
