import RegisterVM.Proofs.EntryCodec

/-!
# The one spelling of an entry

An entry is written as the canonical CBOR map of its fields, reads back as it was, and no two
entries are written alike.

`Canonical` states the rules of the canonical form without the writer: a head is as short as one
that the reader takes for the same kind and number can be, every length is announced, and the keys
of a map come shorter ones first and then in the order of their bytes. A head has at most eight
bytes for a number, which is the one limit of reading back: it holds for a name just if eight bytes
can say its length.
-/

namespace RegisterVM.Library

/-! ### Shortest heads -/

namespace Cbor

/-- Bytes that the reader takes for a head of a kind with a number, whatever follows them. There are
several for small numbers, since the reader also takes longer forms. -/
def Announces (bytes : List UInt8) (kind n : Nat) : Prop :=
  ∀ rest, ∃ info, readHead (bytes ++ rest) = some (kind, .number info n, rest)

/-- A head that is as short as its kind and number allow. What is compared are all heads that the
reader takes, so the rule does not mention the writer. -/
structure Shortest (bytes : List UInt8) (kind n : Nat) : Prop where
  announces : Announces bytes kind n
  least : ∀ other, Announces other kind n → bytes.length ≤ other.length

/-- How long a head is that is written for a number. -/
theorem length_head (kind n : Nat) :
    (head kind n).length =
      if n < 24 then 1 else if n < 0x100 then 2 else if n < 0x10000 then 3
      else if n < 0x100000000 then 5 else 9 := by
  unfold head
  split
  · rfl
  split
  · rfl
  split
  · rfl
  split <;> rfl

theorem length_head_bounds (kind n : Nat) :
    1 ≤ (head kind n).length ∧ (head kind n).length ≤ 9 := by
  rw [length_head]
  split_ifs <;> decide

/-- What a head takes: a byte for a small number, and otherwise a byte and the bytes of the number.
No number fits into fewer bytes than that. -/
theorem readHead_inv {input rest : List UInt8} {kind info n : Nat}
    (h : readHead input = some (kind, .number info n, rest)) :
    (n < 24 ∧ input.length = 1 + rest.length) ∨
      ∃ width, numberWidth info = some width ∧ n < 256 ^ width ∧
        input.length = 1 + width + rest.length := by
  cases input with
  | nil => simp [readHead] at h
  | cons first tail =>
      simp only [readHead] at h
      split at h
      · rename_i hsmall
        simp only [Option.some.injEq, Prod.mk.injEq, Extent.number.injEq] at h
        obtain ⟨-, ⟨-, rfl⟩, rfl⟩ := h
        exact .inl ⟨hsmall, by rw [List.length_cons, Nat.add_comm]⟩
      · split at h
        · simp at h
        · simp only [Option.bind_eq_bind, Option.bind_eq_some_iff, Option.pure_def,
            Option.some.injEq, Prod.mk.injEq, Extent.number.injEq] at h
          obtain ⟨width, hwidth, ⟨field, after⟩, hcut, -, ⟨rfl, rfl⟩, rfl⟩ := h
          obtain ⟨rfl, rfl⟩ := takeExact_eq_some hcut
          refine .inr ⟨field.length, hwidth, bigEndian_lt field, ?_⟩
          simp only [List.length_cons, List.length_append]
          omega

theorem numberWidth_cases {info width : Nat} (h : numberWidth info = some width) :
    width = 1 ∨ width = 2 ∨ width = 4 ∨ width = 8 := by
  unfold numberWidth at h
  split at h <;> simp_all

/-- The head that is written is the shortest that is read. -/
theorem shortest_head {kind n : Nat} (hkind : kind < 8) (hn : n < 256 ^ 8) :
    Shortest (head kind n) kind n where
  announces := readHead_head hkind hn
  least := by
    intro other hother
    obtain ⟨info, hread⟩ := hother []
    rw [length_head]
    rcases readHead_inv hread with ⟨hsmall, hlength⟩ | ⟨width, hwidth, hless, hlength⟩
    · rw [if_pos hsmall]
      simp at hlength
      omega
    · rw [List.append_nil, List.length_nil] at hlength
      rcases numberWidth_cases hwidth with rfl | rfl | rfl | rfl <;> split_ifs <;> omega

/-! ### Canonical form -/

/-- The order of the keys of a canonical map: shorter ones first, and then by their bytes. It is
strict, so no key comes twice. -/
def KeyBefore (key next : List UInt8) : Prop :=
  key.length < next.length ∨ key.length = next.length ∧ key < next

mutual

/-- The canonical spelling of an item. Texts come in one piece, and there is no case for lengths
that are not announced. -/
inductive Canonical : Item → List UInt8 → Prop
  | unsigned {n : Nat} {bytes : List UInt8} : Shortest bytes 0 n → Canonical (.unsigned n) bytes
  | negative {n : Nat} {bytes : List UInt8} : Shortest bytes 1 n → Canonical (.negative n) bytes
  | bytes {front content : List UInt8} : Shortest front 2 content.length →
      Canonical (.bytes content) (front ++ content)
  | text {front content : List UInt8} : Shortest front 3 content.length →
      Canonical (.text [content]) (front ++ content)
  | map {front body : List UInt8} {pairs : List (Item × Item)} {keys : List (List UInt8)} :
      Shortest front 5 pairs.length → CanonicalPairs pairs keys body → keys.Pairwise KeyBefore →
      Canonical (.map pairs) (front ++ body)

/-- The canonical spelling of keys and values in a row, with the spellings of the keys. -/
inductive CanonicalPairs : List (Item × Item) → List (List UInt8) → List UInt8 → Prop
  | nil : CanonicalPairs [] [] []
  | cons {key value : Item} {pairs : List (Item × Item)} {keys : List (List UInt8)}
      {keyBytes valueBytes body : List UInt8} :
      Canonical key keyBytes → Canonical value valueBytes → CanonicalPairs pairs keys body →
      CanonicalPairs ((key, value) :: pairs) (keyBytes :: keys) (keyBytes ++ (valueBytes ++ body))

end

/-- Integers of up to eight bytes are written canonically, negative ones under a kind of their
own. -/
theorem canonical_writeInt {n : Int} (hlow : -(256 ^ 8 : Int) ≤ n) (hhigh : n < 256 ^ 8) :
    Canonical (intItem n) (writeInt n) := by
  cases n with
  | ofNat n =>
      rw [Int.ofNat_eq_natCast] at hhigh
      exact .unsigned (shortest_head (by decide) (by omega))
  | negSucc n => exact .negative (shortest_head (by decide) (by omega))

theorem canonical_writeBytes {content : List UInt8} (h : content.length < 256 ^ 8) :
    Canonical (.bytes content) (writeBytes content) :=
  .bytes (shortest_head (by decide) h)

theorem canonical_writeText {text : String} (h : text.utf8ByteSize < 256 ^ 8) :
    Canonical (.text [Text.Utf8.bytes text]) (writeText text) :=
  .text (shortest_head (by decide) h)

/-! ### Reading in order -/

/-- The first of several items is read before the others. -/
theorem readItems_cons {fuel depth : Nat} {input rest : List UInt8} {item : Item}
    (h : readItem fuel depth input = some (item, rest)) (count : Nat) :
    readItems (fuel + 1) depth (count + 1) input =
      (readItems fuel depth count rest).map fun found => (item :: found.1, found.2) := by
  rw [readItems, h]

theorem readItem_of_read {input : List UInt8} {item : Item} (h : read input = some item) :
    readItem (2 * input.length + 2) maxDepth input = some (item, []) := by
  unfold read at h
  split at h
  · rename_i hread
    rw [hread, Option.some.inj h]
  · cases h

end Cbor

namespace Entry

open Cbor (Item intItem)

/-- What an entry is written as is the canonical spelling of its keys and values. The three keys are
one byte each and come in the order of their numbers. -/
theorem canonical_bytes {e : Entry} (h : e.name.utf8ByteSize < 256 ^ 8) :
    Cbor.Canonical (.map e.pairs) e.bytes := by
  have hkey (n : Nat) (hn : n < 24) : Cbor.Canonical (.unsigned n) (Cbor.writeInt n) :=
    .unsigned (Cbor.shortest_head (by decide) (by omega))
  obtain ⟨hlow, hhigh⟩ := toInt_bounds e.size
  have hdigest : e.digest.toList.length < 256 ^ 8 := by
    rw [Digest.length_toList]
    decide
  have hpairs : Cbor.CanonicalPairs e.pairs [Cbor.writeInt 1, Cbor.writeInt 2, Cbor.writeInt 3]
      (e.parts.map Prod.fst).flatten :=
    .cons (hkey 1 (by decide)) (Cbor.canonical_writeText h)
      (.cons (hkey 2 (by decide)) (Cbor.canonical_writeInt hlow hhigh)
        (.cons (hkey 3 (by decide)) (Cbor.canonical_writeBytes hdigest) .nil))
  have hordered : [Cbor.writeInt 1, Cbor.writeInt 2, Cbor.writeInt 3].Pairwise Cbor.KeyBefore := by
    unfold Cbor.KeyBefore
    decide
  rw [bytes_eq]
  exact .map (Cbor.shortest_head (by decide) (by decide)) hpairs hordered

/-! ### How long a name may be -/

/-- Whatever the bytes of an entry are read as, it is a map that starts with as much of the name as
the head in front of it can say. A name that is longer is cut there, and the rest of it is taken for
what comes next. -/
theorem read_bytes_name {e : Entry} {item : Item} (h : Cbor.read e.bytes = some item) :
    let content := Text.Utf8.bytes e.name
    ∃ others,
      item = .map ((.unsigned 1, .text [content.take (content.length % 256 ^ 8)]) :: others) := by
  intro content
  have hlength : 2 ≤ e.bytes.length := by
    have hdigest : e.digest.toList.length = 32 := e.digest.length_toList
    simp only [bytes, Cbor.writeBytes, List.length_append, hdigest]
    omega
  obtain ⟨fuel, hfuel⟩ : ∃ fuel, 2 * e.bytes.length = fuel + 2 :=
    Nat.exists_eq_add_of_le' (by omega)
  let after := ((e.parts.drop 2).map Prod.fst).flatten
  have hparts : (e.parts.map Prod.fst).flatten =
      Cbor.writeInt 1 ++ (Cbor.writeText e.name ++ after) := rfl
  obtain ⟨info, hhead⟩ :=
    Cbor.readHead_head (show 5 < 8 by decide) (show 3 < 256 ^ 8 by decide)
      (e.parts.map Prod.fst).flatten
  -- the key and the name come first, whatever is read after them
  have hkey : Cbor.readItem (fuel + 2) 31 (e.parts.map Prod.fst).flatten =
      some (.unsigned 1, Cbor.writeText e.name ++ after) := by
    rw [hparts]
    exact Cbor.reads_writeInt (by decide) (by decide) (fuel + 1) 31 _
  have hname := Cbor.readItem_writeText e.name fuel 31 after
  have hitem : Cbor.readItem (2 * e.bytes.length + 2) Cbor.maxDepth e.bytes =
      (Cbor.readItems (fuel + 3) 31 6 (e.parts.map Prod.fst).flatten).bind fun found =>
        (Cbor.pairUp found.1).map fun pairs => (.map pairs, found.2) := by
    rw [Cbor.readItem, bytes_eq, hhead, ← bytes_eq, hfuel]
    rfl
  rw [Cbor.readItems_cons hkey, Cbor.readItems_cons hname] at hitem
  have hread := Cbor.readItem_of_read h
  rw [hitem, Option.bind_eq_some_iff] at hread
  obtain ⟨found, hfound, hpairs⟩ := hread
  simp only [Option.map_eq_some_iff] at hfound hpairs
  obtain ⟨_, ⟨later, -, rfl⟩, rfl⟩ := hfound
  obtain ⟨pairs, hpairs, hitem⟩ := hpairs
  obtain ⟨others, -, rfl⟩ := Option.map_eq_some_iff.mp hpairs
  exact ⟨others, (Prod.mk.inj hitem).1.symm⟩

theorem textValue?_single {content : List UInt8} {text : String}
    (h : textValue? (.text [content]) = some text) : content = Text.Utf8.bytes text := by
  simp only [textValue?, Option.map_eq_some_iff, List.mapM_cons, List.mapM_nil, Option.bind_eq_bind,
    Option.bind_eq_some_iff, Option.pure_def, Option.some.injEq] at h
  obtain ⟨texts, ⟨piece, hpiece, others, rfl, rfl⟩, rfl⟩ := h
  rw [Text.Utf8.text?_eq_some_iff] at hpiece
  simpa [String.join] using hpiece

/-- A name that reads back is no longer than a head can say: of a longer one only a part is left. -/
theorem size_lt_of_ofBytes? {e : Entry} (h : ofBytes? e.bytes = some e) :
    e.name.utf8ByteSize < 256 ^ 8 := by
  rw [← Text.Utf8.length_bytes]
  unfold ofBytes? at h
  cases hread : Cbor.read e.bytes with
  | none => simp [hread] at h
  | some item =>
      obtain ⟨others, rfl⟩ := read_bytes_name hread
      simp only [hread, Option.bind_eq_bind, Option.bind_eq_some_iff, Option.pure_def,
        Option.some.injEq] at h
      obtain ⟨name, hname, size, -, digest, -, hentry⟩ := h
      obtain rfl : name = e.name := congrArg Entry.name hentry
      have hcontent := textValue?_single hname
      have hlength := congrArg List.length hcontent
      rw [List.length_take] at hlength
      have hless := Nat.mod_lt (Text.Utf8.bytes e.name).length (show 0 < 256 ^ 8 by decide)
      omega

/-! ### Different entries are written differently -/

/-- Two texts of nearly one length that are written alike in front of something are the same text.
The head gives the length but for multiples of what it can say, and lengths so close cannot differ
by such a multiple. -/
theorem writeText_append_inj {a b : String} {rest rest' : List UInt8}
    (h : Cbor.writeText a ++ rest = Cbor.writeText b ++ rest')
    (hrest : rest.length < rest'.length + 256 ^ 8) (hrest' : rest'.length < rest.length + 256 ^ 8) :
    a = b ∧ rest = rest' := by
  have hreadA := Cbor.readHead_head_mod (show 3 < 8 by decide) (Text.Utf8.bytes a).length
    (Text.Utf8.bytes a ++ rest)
  have hreadB := Cbor.readHead_head_mod (show 3 < 8 by decide) (Text.Utf8.bytes b).length
    (Text.Utf8.bytes b ++ rest')
  rw [Cbor.writeText, Cbor.writeText, List.append_assoc, List.append_assoc] at h
  rw [h] at hreadA
  obtain ⟨info, hinfo⟩ := hreadA
  obtain ⟨info', hinfo'⟩ := hreadB
  rw [hinfo, Option.some.injEq, Prod.mk.injEq, Prod.mk.injEq, Cbor.Extent.number.injEq] at hinfo'
  obtain ⟨-, ⟨-, hmod⟩, hbody⟩ := hinfo'
  have htotal := congrArg List.length hbody
  rw [List.length_append, List.length_append] at htotal
  have hlength : (Text.Utf8.bytes a).length = (Text.Utf8.bytes b).length := by omega
  obtain ⟨hbytes, hrests⟩ := List.append_inj hbody hlength
  exact ⟨Text.Utf8.bytes_injective hbytes, hrests⟩

/-- What an entry is written as behind its name. Its length is nearly fixed, whatever the size and
the digest are. -/
def afterName (e : Entry) : List UInt8 :=
  Cbor.writeInt 2 ++
    (Cbor.writeInt e.size.toInt ++ (Cbor.writeInt 3 ++ Cbor.writeBytes e.digest.toList))

theorem bytes_eq_afterName (e : Entry) :
    e.bytes = Cbor.writeMapHead 3 ++ Cbor.writeInt 1 ++ (Cbor.writeText e.name ++ e.afterName) := by
  simp only [bytes, afterName, List.append_assoc]

/-- Behind the name there are between 37 and 45 bytes, so the names of entries that are written
alike have nearly one length. -/
theorem length_afterName_bounds (e : Entry) :
    37 ≤ e.afterName.length ∧ e.afterName.length ≤ 45 := by
  have hsize : 1 ≤ (Cbor.writeInt e.size.toInt).length ∧
      (Cbor.writeInt e.size.toInt).length ≤ 9 := by
    unfold Cbor.writeInt
    split <;> exact Cbor.length_head_bounds _ _
  have hfixed : (Cbor.writeInt 2).length = 1 ∧ (Cbor.writeInt 3).length = 1 := by decide
  have hdigest : (Cbor.writeBytes e.digest.toList).length = 34 := by
    rw [Cbor.writeBytes, List.length_append, Digest.length_toList, Cbor.length_head]
    rfl
  simp only [afterName, List.length_append]
  omega

theorem afterName_inj {e e' : Entry} (h : e.afterName = e'.afterName) :
    e.size = e'.size ∧ e.digest = e'.digest := by
  obtain ⟨hlow, hhigh⟩ := toInt_bounds e.size
  obtain ⟨hlow', hhigh'⟩ := toInt_bounds e'.size
  have hbody := List.append_cancel_left h
  -- both sizes are read from the same bytes
  have hread :=
    Cbor.reads_writeInt hlow hhigh 0 0 (Cbor.writeInt 3 ++ Cbor.writeBytes e.digest.toList)
  have hread' := Cbor.reads_writeInt hlow' hhigh' 0 0
    (Cbor.writeInt 3 ++ Cbor.writeBytes e'.digest.toList)
  rw [hbody, hread', Option.some.injEq, Prod.mk.injEq] at hread
  obtain ⟨hitem, hrest⟩ := hread
  have hvalue := intValue?_intItem e'.size
  rw [hitem, intValue?_intItem] at hvalue
  have hdigest := List.append_cancel_left hrest
  rw [Cbor.writeBytes, Cbor.writeBytes, Digest.length_toList, Digest.length_toList] at hdigest
  refine ⟨Option.some.inj hvalue, ?_⟩
  exact Digest.toList_injective (List.append_cancel_left hdigest).symm

/-- No two entries are written alike, not even with names that do not read back. -/
theorem bytes_injective : Function.Injective bytes := by
  intro e e' h
  rw [bytes_eq_afterName, bytes_eq_afterName] at h
  obtain ⟨hlow, hhigh⟩ := length_afterName_bounds e
  obtain ⟨hlow', hhigh'⟩ := length_afterName_bounds e'
  obtain ⟨hname, hrest⟩ := writeText_append_inj (List.append_cancel_left h) (by omega) (by omega)
  obtain ⟨hsize, hdigest⟩ := afterName_inj hrest
  obtain ⟨name, size, digest⟩ := e
  simp only at hname hsize hdigest
  rw [hname, hsize, hdigest]

/-- The codec of entries is faithful. What is written of an entry reads back as that entry just if a
head can say how long the name is, which it can below `2 ^ 64` bytes; the size may be any number of
64 bits and the digest any digest. It is then the canonical CBOR map of name, size and digest under
the keys 1, 2 and 3. Whatever the names are, no other entry is written alike.

Reading back does not carry the last part, which also speaks of names that are too long for it; that
part rests on the lengths instead (`writeText_append_inj`). -/
theorem bytes_faithful (e : Entry) :
    (e.name.utf8ByteSize < 2 ^ 64 ↔ ofBytes? e.bytes = some e) ∧
    (e.name.utf8ByteSize < 2 ^ 64 →
      Cbor.Canonical (.map [(.unsigned 1, .text [Text.Utf8.bytes e.name]),
        (.unsigned 2, intItem e.size.toInt), (.unsigned 3, .bytes e.digest.toList)]) e.bytes) ∧
    ∀ e' : Entry, e'.bytes = e.bytes → e' = e := by
  refine ⟨⟨fun h => ofBytes?_bytes h, fun h => size_lt_of_ofBytes? h⟩, fun h =>
    canonical_bytes h, ?_⟩
  intro e' h
  exact bytes_injective h

example : ({ name := "", size := -0x8000000000000000 } : Entry).bytes.take 14 =
    [0xA3, 0x01, 0x60, 0x02, 0x3B, 0x7F, 0xFF, 0xFF, 0xFF, 0xFF, 0xFF, 0xFF, 0xFF, 0x03] := by
  decide

end Entry

end RegisterVM.Library
