import RegisterVM.Proofs.DigestText
import RegisterVM.Library.Entry

/-!
# Entries read back

The bytes of an entry spell that entry. `Reads` says of bytes that they spell one item whatever
follows them; what an entry is written of has this property, part by part, and so has the whole.
-/

namespace RegisterVM

/-! ### Text -/

namespace Text.Utf8

/-- Bytes are the text that is written as them. There is no other way to write it, since only the
shortest form of a character is accepted. -/
theorem text?_eq_some_iff {content : List UInt8} {text : String} :
    text? content = some text ↔ content = bytes text := by
  rw [text?, String.fromUTF8?]
  constructor
  · intro h
    split at h
    · cases h
      rfl
    · cases h
  · rintro rfl
    have hvalid : (ByteArray.mk (bytes text).toArray).IsValidUTF8 := text.isValidUTF8
    rw [dif_pos hvalid]
    rfl

@[simp] theorem text?_bytes (text : String) : text? (bytes text) = some text :=
  text?_eq_some_iff.mpr rfl

theorem bytes_injective : Function.Injective bytes := by
  intro a b h
  have htext : text? (bytes a) = some b := text?_eq_some_iff.mpr h
  rw [text?_bytes] at htext
  exact Option.some.inj htext

theorem length_bytes (text : String) : (bytes text).length = text.utf8ByteSize := rfl

end Text.Utf8

/-! ### Items -/

namespace Library.Cbor

/-- A small number stands in the first byte of its head. -/
theorem readHead_cons {kind info : Nat} (hkind : kind < 8) (hinfo : info < 24) (rest : List UInt8) :
    readHead (UInt8.ofNat (kind * 32 + info) :: rest) = some (kind, .number info info, rest) := by
  have hfirst : (UInt8.ofNat (kind * 32 + info)).toNat = kind * 32 + info := by
    rw [UInt8.toNat_ofNat', Nat.mod_eq_of_lt (by omega)]
  have hdiv : (kind * 32 + info) / 32 = kind := by omega
  have hmod : (kind * 32 + info) % 32 = info := by omega
  simp only [readHead, hfirst, hdiv, hmod]
  rw [if_pos hinfo]

/-- A head whose number stands in bytes of its own says as much of it as they hold. -/
theorem readHead_wide {kind info width : Nat} (hkind : kind < 8) (hinfo : 24 ≤ info ∧ info < 31)
    (hwidth : numberWidth info = some width) (n : Nat) (rest : List UInt8) :
    readHead (UInt8.ofNat (kind * 32 + info) :: (toBigEndian width n ++ rest)) =
      some (kind, .number info (n % 256 ^ width), rest) := by
  have hfirst : (UInt8.ofNat (kind * 32 + info)).toNat = kind * 32 + info := by
    rw [UInt8.toNat_ofNat', Nat.mod_eq_of_lt (by omega)]
  have hdiv : (kind * 32 + info) / 32 = kind := by omega
  have hmod : (kind * 32 + info) % 32 = info := by omega
  simp only [readHead, hfirst, hdiv, hmod, hwidth]
  rw [if_neg (by omega), if_neg (by omega)]
  simp only [Option.bind_eq_bind, Option.bind_some, takeExact_append (length_toBigEndian width n),
    bigEndian_toBigEndian]
  rfl

/-- A head reads back, in front of any rest, as far as eight bytes can say its number. The kind is
always found again. -/
theorem readHead_head_mod {kind : Nat} (hkind : kind < 8) (n : Nat) (rest : List UInt8) :
    ∃ info, readHead (head kind n ++ rest) = some (kind, .number info (n % 256 ^ 8), rest) := by
  -- where the number is less than the width can say, both remainders are the number itself
  have hwide {info width : Nat} (hinfo : 24 ≤ info ∧ info < 31)
      (hwidth : numberWidth info = some width) (hn : n % 256 ^ width = n % 256 ^ 8) :
      readHead (UInt8.ofNat (kind * 32 + info) :: (toBigEndian width n ++ rest)) =
        some (kind, .number info (n % 256 ^ 8), rest) := by
    rw [readHead_wide hkind hinfo hwidth, hn]
  unfold head
  split
  · refine ⟨n, ?_⟩
    rw [Nat.mod_eq_of_lt (by omega)]
    exact readHead_cons hkind ‹_› rest
  split
  · exact ⟨24, hwide (by decide) rfl (by omega)⟩
  split
  · exact ⟨25, hwide (by decide) rfl (by omega)⟩
  split
  · exact ⟨26, hwide (by decide) rfl (by omega)⟩
  · exact ⟨27, hwide (by decide) rfl rfl⟩

theorem readHead_head {kind n : Nat} (hkind : kind < 8) (hn : n < 256 ^ 8) (rest : List UInt8) :
    ∃ info, readHead (head kind n ++ rest) = some (kind, .number info n, rest) := by
  have h := readHead_head_mod hkind n rest
  rwa [Nat.mod_eq_of_lt hn] at h

/-- Bytes spell an item, whatever follows them and wherever they stand. The rest is quantified over,
so that spellings can be put one after the other. -/
def Reads (bytes : List UInt8) (item : Item) : Prop :=
  ∀ fuel depth rest, readItem (fuel + 1) depth (bytes ++ rest) = some (item, rest)

/-- The item of an integer. Negative ones are kept as their distance below -1. -/
def intItem : Int → Item
  | .ofNat n => .unsigned n
  | .negSucc n => .negative n

theorem reads_writeInt {n : Int} (hlow : -(256 ^ 8 : Int) ≤ n) (hhigh : n < 256 ^ 8) :
    Reads (writeInt n) (intItem n) := by
  intro fuel depth rest
  cases n with
  | ofNat n =>
      have hn : n < 256 ^ 8 := by
        rw [Int.ofNat_eq_natCast] at hhigh
        omega
      obtain ⟨info, hhead⟩ := readHead_head (show 0 < 8 by decide) hn rest
      rw [readItem, writeInt, hhead]
      rfl
  | negSucc n =>
      have hn : n < 256 ^ 8 := by omega
      obtain ⟨info, hhead⟩ := readHead_head (show 1 < 8 by decide) hn rest
      rw [readItem, writeInt, hhead]
      rfl

theorem reads_writeBytes {content : List UInt8} (h : content.length < 256 ^ 8) :
    Reads (writeBytes content) (.bytes content) := by
  intro fuel depth rest
  obtain ⟨info, hhead⟩ := readHead_head (show 2 < 8 by decide) h (content ++ rest)
  rw [readItem, writeBytes, List.append_assoc, hhead]
  simp only [takeExact_append rfl, Option.map_some]

/-- A text is read as far as its head can say how long it is. What is left over stays in the
input. -/
theorem readItem_writeText (text : String) (fuel depth : Nat) (rest : List UInt8) :
    let content := Text.Utf8.bytes text
    let size := content.length % 256 ^ 8
    readItem (fuel + 1) depth (writeText text ++ rest) =
      some (.text [content.take size], content.drop size ++ rest) := by
  intro content size
  have hsize : size ≤ content.length := Nat.mod_le _ _
  obtain ⟨info, hhead⟩ := readHead_head_mod (show 3 < 8 by decide) content.length (content ++ rest)
  have hcut : takeExact size (content ++ rest) =
      some (content.take size, content.drop size ++ rest) := by
    rw [← List.take_append_drop size content, List.append_assoc, List.take_append_drop]
    exact takeExact_append (List.length_take_of_le hsize)
  rw [readItem, writeText, List.append_assoc, hhead]
  simp only [size, hcut, Option.map_some]

theorem reads_writeText {text : String} (h : text.utf8ByteSize < 256 ^ 8) :
    Reads (writeText text) (.text [Text.Utf8.bytes text]) := by
  intro fuel depth rest
  rw [← Text.Utf8.length_bytes] at h
  rw [readItem_writeText, Nat.mod_eq_of_lt h, List.take_length, List.drop_length, List.nil_append]

/-- A sequence of items reads back item by item. The induction is on the items, each of which leaves
the rest as it was. -/
theorem readItems_flatten {parts : List (List UInt8 × Item)}
    (h : ∀ part ∈ parts, Reads part.1 part.2) {fuel : Nat} (hfuel : parts.length < fuel)
    (depth : Nat) (rest : List UInt8) :
    readItems fuel depth parts.length ((parts.map Prod.fst).flatten ++ rest) =
      some (parts.map Prod.snd, rest) := by
  induction parts generalizing fuel with
  | nil =>
      rw [List.length_nil, readItems]
      rfl
  | cons part others ih =>
      obtain ⟨fuel, rfl⟩ : ∃ n, fuel = n + 2 := ⟨fuel - 2, by rw [List.length_cons] at hfuel; omega⟩
      have hfirst := h part List.mem_cons_self fuel depth ((others.map Prod.fst).flatten ++ rest)
      have hothers :=
        ih (fun p hp => h p (List.mem_cons_of_mem part hp)) (Nat.lt_of_succ_lt_succ hfuel)
      rw [List.length_cons, readItems, List.map_cons, List.flatten_cons, List.append_assoc, hfirst]
      simp only [hothers, Option.map_some]
      rfl

end Library.Cbor

/-! ### Entries -/

namespace Library.Entry

open Cbor (Item Reads intItem)

/-- What follows the head of an entry: keys and values with the items they spell. -/
def parts (e : Entry) : List (List UInt8 × Item) :=
  [(Cbor.writeInt 1, .unsigned 1), (Cbor.writeText e.name, .text [Text.Utf8.bytes e.name]),
    (Cbor.writeInt 2, .unsigned 2), (Cbor.writeInt e.size.toInt, intItem e.size.toInt),
    (Cbor.writeInt 3, .unsigned 3), (Cbor.writeBytes e.digest.toList, .bytes e.digest.toList)]

/-- The keys and values of an entry. -/
def pairs (e : Entry) : List (Item × Item) :=
  [(.unsigned 1, .text [Text.Utf8.bytes e.name]), (.unsigned 2, intItem e.size.toInt),
    (.unsigned 3, .bytes e.digest.toList)]

theorem bytes_eq (e : Entry) : e.bytes = Cbor.head 5 3 ++ (e.parts.map Prod.fst).flatten := by
  simp [bytes, parts, Cbor.writeMapHead]

theorem toInt_bounds (n : Int64) : -(256 ^ 8 : Int) ≤ n.toInt ∧ n.toInt < 256 ^ 8 := by
  have hlow := n.le_toInt
  have hhigh := n.toInt_lt
  omega

/-- Every part spells its item, if the head of the name can say how long it is. -/
theorem reads_parts {e : Entry} (h : e.name.utf8ByteSize < 256 ^ 8) :
    ∀ part ∈ e.parts, Reads part.1 part.2 := by
  have hkey (n : Nat) (hn : n < 24) : Reads (Cbor.writeInt n) (.unsigned n) :=
    Cbor.reads_writeInt (by omega) (by omega)
  obtain ⟨hlow, hhigh⟩ := toInt_bounds e.size
  have hdigest : e.digest.toList.length < 256 ^ 8 := by
    rw [Digest.length_toList]
    decide
  intro part hpart
  simp only [parts, List.mem_cons, List.not_mem_nil, or_false] at hpart
  rcases hpart with rfl | rfl | rfl | rfl | rfl | rfl
  · exact hkey 1 (by decide)
  · exact Cbor.reads_writeText h
  · exact hkey 2 (by decide)
  · exact Cbor.reads_writeInt hlow hhigh
  · exact hkey 3 (by decide)
  · exact Cbor.reads_writeBytes hdigest

/-- The bytes of an entry spell its keys and values, and nothing is left over. -/
theorem read_bytes {e : Entry} (h : e.name.utf8ByteSize < 256 ^ 8) :
    Cbor.read e.bytes = some (.map e.pairs) := by
  have hlength : 3 ≤ e.bytes.length := by
    have hdigest : e.digest.toList.length = 32 := e.digest.length_toList
    simp only [bytes, Cbor.writeBytes, List.length_append, hdigest]
    omega
  -- Three pairs are six items, and every item has a byte of its own, so the fuel is enough.
  have hfuel : e.parts.length < 2 * e.bytes.length + 1 := by
    show 6 < _
    omega
  obtain ⟨info, hhead⟩ :=
    Cbor.readHead_head (show 5 < 8 by decide) (show 3 < 256 ^ 8 by decide)
      (e.parts.map Prod.fst).flatten
  have hitems := Cbor.readItems_flatten (reads_parts h) hfuel 31 []
  rw [List.append_nil] at hitems
  have hitem : Cbor.readItem (2 * e.bytes.length + 2) Cbor.maxDepth e.bytes =
      some (.map e.pairs, []) := by
    rw [Cbor.readItem, bytes_eq, hhead, ← bytes_eq]
    show (if Cbor.maxDepth = 0 then none else _) = _
    rw [if_neg (by decide)]
    show (Cbor.readItems (2 * e.bytes.length + 1) 31 e.parts.length _).bind _ = _
    rw [hitems]
    rfl
  rw [Cbor.read, hitem]

/-- A size is found again from its item, negative or not. -/
theorem intValue?_intItem (n : Int64) : intValue? (intItem n.toInt) = some n := by
  have hlow := n.le_toInt
  have hhigh := n.toInt_lt
  cases hn : n.toInt with
  | ofNat k =>
      rw [hn, Int.ofNat_eq_natCast] at hhigh
      rw [intItem, intValue?, if_pos (by omega), ← Int64.ofInt_eq_ofNat, ← Int.ofNat_eq_natCast,
        ← hn, Int64.ofInt_toInt]
  | negSucc k =>
      rw [hn] at hlow
      -- A negative number is kept as its distance below `-1`.
      have hvalue : (-1 - k : Int) = n.toInt := by omega
      rw [intItem, intValue?, if_pos (by omega), hvalue, Int64.ofInt_toInt]

theorem isNull_intItem (n : Int) : isNull (intItem n) = false := by
  cases n <;> rfl

/-- The bytes of an entry spell that entry. Each field is found under its own key. -/
theorem ofBytes?_bytes {e : Entry} (h : e.name.utf8ByteSize < 256 ^ 8) :
    ofBytes? e.bytes = some e := by
  have hname : field e.pairs 1 "" textValue? = some e.name := by
    show textValue? (.text [Text.Utf8.bytes e.name]) = some e.name
    simp [textValue?, String.join]
  have hsize : field e.pairs 2 0 intValue? = some e.size := by
    show (if isNull (intItem e.size.toInt) then _ else _) = _
    rw [isNull_intItem, intValue?_intItem]
    rfl
  have hdigest : field e.pairs 3 (.ofBytes []) digestValue? = some e.digest := by
    show some (Digest.ofBytes e.digest.toList) = some e.digest
    rw [Digest.ofBytes_toList]
  rw [ofBytes?, read_bytes h]
  simp only [hname, hsize, hdigest]
  rfl

end Library.Entry

end RegisterVM
