import RegisterVM.Proofs.DebugTables
import RegisterVM.Proofs.MemoryExtension
import RegisterVM.Proofs.StreamReads
import RegisterVM.Proofs.TextRoundTrip

/-!
# Names read back

The names of a method are stored one after the other behind its header, each of them up to 65535
bytes long. The reader looks at 1024 bytes of them and no further. So the names that end within
these bytes are found as they were written, and with the first that does not, reading stops: that
name and those after it are left empty, and the header is reported as incomplete.

A stream with a limit is a source that supplies what stands in memory as far as the limit goes and
then ends, which `Offers` says. What one name takes away from it leaves a stream that offers the
rest, so the three names are three uses of one lemma.
-/

namespace RegisterVM

/-- The contents of a region that may be read are read from its base on. -/
theorem Memory.read_ofBytes (name : String) (base : UInt32) (bytes : List UInt8)
    {permission : Permission} (hread : permission.allows .read = true) :
    (Memory.region (.ofBytes name base bytes permission)).read base bytes.length = .ok bytes := by
  let r := Region.ofBytes name base bytes permission
  have hcovers : r.covers base bytes.length = true := by
    rw [Region.covers_iff, Region.size_ofBytes]
    exact ⟨Nat.le_refl _, Nat.le_refl _⟩
  have hcheck : r.check .read base bytes.length = .ok () := by
    rw [Region.check, hcovers]
    simp [r, Region.ofBytes, hread]
  have hslice : r.slice base bytes.length = bytes := by
    rw [Region.slice_eq, Region.offset]
    simp [r, Region.ofBytes]
  change r.read base bytes.length = .ok bytes
  rw [Region.read, hcheck, ok_bind, hslice]
  rfl

namespace Debug

/-! ### Stored names -/

/-- How many bytes the stored form of a name takes: two for the length, and its modified UTF-8. -/
def nameSize (name : List Char) : Nat := 2 + (name.map storedSize).sum

/-- The stored form of a name is its length and its bytes. The two bytes of the length bound it. -/
theorem encodeText_inv {name : List Char} {code : List UInt8} (h : encodeText name = .ok code) :
    ∃ high low, code = high :: low :: storedBody name ∧
      (storedBody name).length = high.toNat * 256 + low.toNat := by
  have hfits : (storedBody name).length ≤ 0xFFFF := by
    by_contra hlong
    rw [encodeText_eq, if_pos (Nat.lt_of_not_le hlong)] at h
    cases h
  obtain ⟨high, low, hcode, hlength⟩ := encodeText_of_le name hfits
  rw [hcode] at h
  exact ⟨high, low, (Except.ok.inj h).symm, hlength⟩

theorem length_of_encodeText {name : List Char} {code : List UInt8}
    (h : encodeText name = .ok code) : code.length = nameSize name := by
  obtain ⟨high, low, rfl, -⟩ := encodeText_inv h
  rw [List.length_cons, List.length_cons, length_storedBody, nameSize]
  omega

/-- Names are appended in their stored forms, one after the other with nothing in between. -/
theorem appendNames_inv {front bytes : List UInt8} {names : List (List Char)}
    (h : appendNames front names = .ok bytes) :
    ∃ codes, List.Forall₂ (fun name code => encodeText name = .ok code) names codes ∧
      bytes = front ++ codes.flatten := by
  induction names generalizing front with
  | nil =>
      refine ⟨[], .nil, ?_⟩
      rw [List.flatten_nil, List.append_nil]
      exact (Except.ok.inj h).symm
  | cons name rest ih =>
      rw [appendNames, appendText] at h
      cases hcode : encodeText name with
      | error e => simp [hcode] at h
      | ok code =>
          rw [hcode] at h
          obtain ⟨codes, hcodes, rfl⟩ := ih h
          exact ⟨code :: codes, .cons hcode hcodes, by rw [List.flatten_cons, List.append_assoc]⟩

/-- Behind the six bytes of its header, the information of a method starts with its names. The
tables come after them. -/
theorem bytes_names {method : Method} {bytes : List UInt8} (h : method.bytes = .ok bytes) :
    ∃ front first second third tables, front.length = headerSize ∧
      bytes = front ++ (first ++ (second ++ (third ++ tables))) ∧
      encodeText method.className = .ok first ∧ encodeText method.methodName = .ok second ∧
      encodeText method.descriptor = .ok third := by
  obtain ⟨names, hnames, hrest⟩ := bind_eq_ok h
  obtain ⟨⟨offsets, tables⟩, hlayout, hlast⟩ := bind_eq_ok hrest
  obtain ⟨codes, hcodes, rfl⟩ := appendNames_inv hnames
  simp only [List.forall₂_cons_left_iff, List.forall₂_nil_left_iff] at hcodes
  obtain ⟨first, _, hfirst, ⟨second, _, hsecond, ⟨third, _, hthird, rfl, rfl⟩, rfl⟩, rfl⟩ := hcodes
  obtain _ | ⟨-, _ | ⟨-, _ | ⟨-, ⟨⟩⟩⟩⟩ := layoutTables_laidAt hlayout
  rename_i line instruction address
  refine ⟨[line, instruction, address].flatMap (toBigEndian 2), first, second, third, tables, rfl,
    ?_, hfirst, hsecond, hthird⟩
  cases hlast
  simp only [List.flatten_cons, List.flatten_nil, List.nil_append, List.append_nil,
    List.append_assoc]

/-! ### Streams with a limit -/

/-- A stream supplies a block of bytes as far as its limit goes. The block may be longer than
that. -/
def Offers (m : Memory) (s : Stream) (block : List UInt8) : Prop :=
  ∀ n : Nat, n ≤ block.length → n ≤ s.remaining →
    Supplies (Stream.readByte m) s (block.take n) (s.advance n)

theorem supplies_of_gives {m : Memory} {s : Stream} {bytes : List UInt8} (h : Gives m s bytes) :
    Supplies (Stream.readByte m) s bytes (s.advance bytes.length) := by
  induction bytes generalizing s with
  | nil =>
      rw [List.length_nil, Stream.advance_zero]
      exact .nil s
  | cons b rest ih =>
      have hrest := ih h.2
      rw [Stream.advance_advance, Nat.add_comm, ← List.length_cons] at hrest
      exact .cons h.1 hrest

/-- Bytes that stand in memory are offered from each of their offsets. -/
theorem offers_placed {m : Memory} (hm : m.Ordered) {w : UInt32} {bytes : List UInt8}
    (hread : m.read w bytes.length = .ok bytes) (hroom : w.toNat + bytes.length ≤ 2 ^ 32) {o : Nat}
    (ho : o < bytes.length) (limit : Int) :
    Offers m ⟨w + UInt32.ofNat o, limit⟩ (bytes.drop o) := by
  intro n hn hlimit
  obtain ⟨more, hmore⟩ := Memory.readableFrom_placed hm hread hroom ho
  have hto : (w + UInt32.ofNat o).toNat = w.toNat + o := by
    rw [UInt32.toNat_add, UInt32.toNat_ofNat']
    omega
  rw [List.length_drop] at hn
  have hlength : ((bytes.drop o).take n).length = n := by
    rw [List.length_take, List.length_drop]
    omega
  have hprefix : m.readableFrom (w + UInt32.ofNat o) =
      (bytes.drop o).take n ++ ((bytes.drop o).drop n ++ more) := by
    rw [hmore, ← List.append_assoc, List.take_append_drop]
  have hgives : Gives m ⟨w + UInt32.ofNat o, limit⟩ ((bytes.drop o).take n) :=
    gives_of_readableFrom hm hprefix (by omega) (by rw [hlength]; exact hlimit)
  have hsupplies := supplies_of_gives hgives
  rwa [hlength] at hsupplies

section

variable {m : Memory} {s : Stream} {name : List Char} {code rest : List UInt8}

/-- A name that ends within the limit is read, and what comes after it is offered then. This is the
step from one name to the next. -/
theorem readText_within (hoffers : Offers m s (code ++ rest)) (hcode : encodeText name = .ok code)
    (hlimit : nameSize name ≤ s.remaining) :
    readText (Stream.readByte m) s = (.ok (String.ofList name), s.advance (nameSize name)) ∧
      Offers m (s.advance (nameSize name)) rest := by
  have hsize := length_of_encodeText hcode
  have hsupplies := hoffers code.length (by simp) (by omega)
  rw [List.take_left] at hsupplies
  rw [← hsize]
  constructor
  · obtain ⟨high, low, rfl, hlength⟩ := encodeText_inv hcode
    exact readText_of_supplies hlength hsupplies
  · intro n hn hleft
    have hleft' : ((code.length + n : Nat) : Int) ≤ s.remaining := by
      rw [Stream.remaining_advance] at hleft
      omega
    have hall := hoffers (code.length + n) (by rw [List.length_append]; omega) hleft'
    rw [List.take_length_add_append, ← Stream.advance_advance] at hall
    obtain ⟨more, hmore, hrest⟩ := hsupplies.split hall (by simp)
    rwa [List.append_cancel_left hmore]

/-- A source that ends before the length it declares gives no text, wherever in it the source
ends. -/
theorem readText_of_short {σ : Type} {next : ByteSource σ} {s t : σ} {bytes : List UInt8}
    (h : Supplies next s bytes t) (hend : next t = .error .endOfStream)
    (hshort : bytes.length < 2 + declaredLength bytes) :
    ∃ e u, readText next s = (.error e, u) := by
  rcases h with _ | ⟨hhigh, _ | ⟨hlow, hrest⟩⟩
  · exact ⟨_, _, by rw [readText, hend]⟩
  · exact ⟨_, _, by rw [readText, hhigh]; dsimp only; rw [hend]⟩
  · have hreads := readText_reads_of_header hhigh hlow hrest hend
    rcases hresult : readText next s with ⟨e | text, u⟩
    · exact ⟨e, u, rfl⟩
    · have haccepted := hreads.accepts.mp ⟨text, by rw [hresult]⟩
      exact absurd haccepted.1 (Nat.not_le.mpr hshort)

/-- A name that does not end within the limit is not read. Its length may still be within, or not
even that. -/
theorem readText_beyond (hoffers : Offers m s (code ++ rest)) (hcode : encodeText name = .ok code)
    (hlimit : s.remaining < nameSize name) :
    ∃ e t, readText (Stream.readByte m) s = (.error e, t) := by
  have hsize := length_of_encodeText hcode
  let left := s.remaining.toNat
  by_cases hended : s.remaining ≤ 0
  · have hend : Stream.readByte m s = .error .endOfStream := by rw [Stream.readByte, if_pos hended]
    exact ⟨_, _, by rw [readText, hend]⟩
  · have hshort : left < code.length := by omega
    have hsupplies := hoffers left (by rw [List.length_append]; omega) (by omega)
    rw [List.take_append_of_le_length (Nat.le_of_lt hshort)] at hsupplies
    have hend : Stream.readByte m (s.advance left) = .error .endOfStream := by
      rw [Stream.readByte, if_pos]
      rw [Stream.remaining_advance]
      omega
    refine readText_of_short hsupplies hend ?_
    -- what there is of the name declares its whole length, once it gets as far as that
    obtain ⟨high, low, rfl, hbody⟩ := encodeText_inv hcode
    rw [List.length_take_of_le (Nat.le_of_lt hshort)]
    rcases Nat.lt_or_ge left 2 with hone | htwo
    · omega
    · obtain ⟨more, hmore⟩ := Nat.exists_eq_add_of_le htwo
      rw [hmore, take_header, declaredLength_cons, ← hbody]
      simp only [List.length_cons] at hshort
      omega

end

/-! ### Headers -/

section

variable {method : Method} {bytes : List UInt8} {m : Memory} {w : UInt32}

/-- The offsets of a header that stands in memory can be read, so an incomplete header is one whose
names are. -/
theorem readOffset_readable (hm : m.Ordered) (hroom : w.toNat + bytes.length ≤ 2 ^ 32)
    (hread : m.read w bytes.length = .ok bytes) (skip : Nat) (hskip : skip + 2 ≤ bytes.length) :
    ∃ offset, readOffset m w (UInt32.ofNat skip) = .ok offset := by
  rw [readOffset, readNat_placed hm hread hroom (by decide) hskip]
  exact ⟨_, rfl⟩

/-- The stream that a reader takes the names from offers their stored forms one after the other. -/
theorem offers_names (hbytes : method.bytes = .ok bytes) (hm : m.Ordered)
    (hroom : w.toNat + bytes.length ≤ 2 ^ 32) (hread : m.read w bytes.length = .ok bytes) :
    headerSize < bytes.length ∧ ∃ first second third tables,
      encodeText method.className = .ok first ∧ encodeText method.methodName = .ok second ∧
      encodeText method.descriptor = .ok third ∧
      Offers m ⟨w + UInt32.ofNat headerSize, nameLimit⟩
        (first ++ (second ++ (third ++ tables))) := by
  obtain ⟨front, first, second, third, tables, hfront, hsplit, hfirst, hsecond, hthird⟩ :=
    bytes_names hbytes
  have hlength : headerSize < bytes.length := by
    rw [hsplit, List.length_append, List.length_append, hfront,
      length_of_encodeText hfirst, nameSize]
    omega
  have hoffers := offers_placed hm hread hroom hlength nameLimit
  have hdrop : bytes.drop headerSize = first ++ (second ++ (third ++ tables)) := by
    rw [hsplit]
    exact List.drop_left' hfront
  rw [hdrop] at hoffers
  exact ⟨hlength, first, second, third, tables, hfirst, hsecond, hthird, hoffers⟩

/-- What a header that stands in memory is read as: the names that end within 1024 bytes, and an
error unless all of them do. A name that is not read ends the reading, so none after it is found,
short as it may be. -/
theorem readHeader_names (hbytes : method.bytes = .ok bytes) (hm : m.Ordered)
    (hroom : w.toNat + bytes.length ≤ 2 ^ 32) (hread : m.read w bytes.length = .ok bytes) :
    let first := nameSize method.className
    let second := first + nameSize method.methodName
    let third := second + nameSize method.descriptor
    ((readHeader m w).2 = none ↔ third ≤ 1024) ∧
      (readHeader m w).1.className = (if first ≤ 1024 then String.ofList method.className else "") ∧
      (readHeader m w).1.methodName =
        (if second ≤ 1024 then String.ofList method.methodName else "") ∧
      (readHeader m w).1.descriptor =
        (if third ≤ 1024 then String.ofList method.descriptor else "") := by
  intro first second third
  obtain ⟨hlength, c, n, d, tables, hc, hn, hd, hoffers⟩ := offers_names hbytes hm hroom hread
  rw [headerSize] at hlength
  obtain ⟨x, hx⟩ := readOffset_readable hm hroom hread 0 (by omega)
  obtain ⟨y, hy⟩ := readOffset_readable hm hroom hread 2 (by omega)
  obtain ⟨z, hz⟩ := readOffset_readable hm hroom hread 4 (by omega)
  unfold readHeader
  simp only [show (0 : UInt32) = UInt32.ofNat 0 from rfl,
    show (2 : UInt32) = UInt32.ofNat 2 from rfl,
    show (4 : UInt32) = UInt32.ofNat 4 from rfl, hx, hy, hz]
  generalize hstream : (⟨w + UInt32.ofNat headerSize, nameLimit⟩ : Stream) = s at hoffers ⊢
  have hleft : s.remaining = 1024 := by
    rw [← hstream]
    rfl
  by_cases hfirst : first ≤ 1024
  · obtain ⟨hclass, hoffers⟩ := readText_within hoffers hc (by omega)
    have hleft : (s.advance (nameSize method.className)).remaining = 1024 - first := by
      rw [Stream.remaining_advance, hleft]
    rw [hclass]
    dsimp only
    by_cases hsecond : second ≤ 1024
    · obtain ⟨hmethod, hoffers⟩ := readText_within hoffers hn (by omega)
      have hleft : ((s.advance (nameSize method.className)).advance
          (nameSize method.methodName)).remaining = 1024 - second := by
        rw [Stream.remaining_advance, hleft]
        omega
      rw [hmethod]
      dsimp only
      by_cases hthird : third ≤ 1024
      · obtain ⟨hdescriptor, -⟩ := readText_within hoffers hd (by omega)
        rw [hdescriptor]
        simp [hfirst, hsecond, hthird]
      · obtain ⟨e, t, hfail⟩ := readText_beyond hoffers hd (by omega)
        rw [hfail]
        simp [hfirst, hsecond, hthird]
    · have hthird : ¬ third ≤ 1024 := by omega
      obtain ⟨e, t, hfail⟩ := readText_beyond hoffers hn (by omega)
      rw [hfail]
      simp [hfirst, hsecond, hthird]
  · have hsecond : ¬ second ≤ 1024 := by omega
    have hthird : ¬ third ≤ 1024 := by omega
    obtain ⟨e, t, hfail⟩ := readText_beyond hoffers hc (by omega)
    rw [hfail]
    simp [hfirst, hsecond, hthird]

end

/-- Names that were written are found again as far as the reader looks: a header whose bytes were
placed where they can be read is complete just if its names take 1024 bytes at most, and each name
that ends within them is the one that was written, whatever address is resolved.

The proof reads the three names in turn. Each ends within the limit or beyond it (`readText_within`,
`readText_beyond`), and what it leaves is the stream for the next. -/
theorem resolve_names_within_limit {method : Method} {bytes : List UInt8}
    (hbytes : method.bytes = .ok bytes) {m : Memory} (hm : m.Built) {w : UInt32} (hw : 0 < w)
    (hroom : w.toNat + bytes.length ≤ 2 ^ 32) (hread : m.read w bytes.length = .ok bytes) :
    let first := nameSize method.className
    let second := first + nameSize method.methodName
    let third := second + nameSize method.descriptor
    ((readHeader m w).2 = none ↔ third ≤ 1024) ∧
      ∀ pc, (resolve m w pc).className =
            (if first ≤ 1024 then String.ofList method.className else "") ∧
          (resolve m w pc).methodName =
            (if second ≤ 1024 then String.ofList method.methodName else "") ∧
          (resolve m w pc).descriptor =
            (if third ≤ 1024 then String.ofList method.descriptor else "") := by
  intro first second third
  obtain ⟨hcomplete, hnames⟩ := readHeader_names hbytes hm.ordered hroom hread
  refine ⟨hcomplete, ?_⟩
  intro pc
  rw [resolve, if_neg (UInt32.ne_of_lt hw).symm]
  exact hnames

/-- Names of characters that take one, two, three and six bytes. -/
def accented : Method where
  className := ['Z', 'ä', 'h', 'l', 'e', 'r']
  methodName := ['€', '\x00']
  descriptor := ['(', '😀', ')', 'V']

/-- The debug information of `accented`, without tables. -/
def accentedBytes : List UInt8 :=
  [0, 0, 0, 0, 0, 0, 0, 7, 90, 195, 164, 104, 108, 101, 114, 0, 5, 226, 130, 172, 192, 128,
    0, 9, 40, 237, 160, 189, 237, 184, 128, 41, 86]

def accentedMemory : Memory := .region (.ofBytes "debug" 0x1000 accentedBytes ⟨true, false⟩)

theorem resolve_names_within_limit_accented :
    accented.bytes = .ok accentedBytes ∧ (readHeader accentedMemory 0x1000).2 = none ∧
      ∀ pc, (resolve accentedMemory 0x1000 pc).className = "Zähler" ∧
        (resolve accentedMemory 0x1000 pc).methodName = "€\x00" ∧
        (resolve accentedMemory 0x1000 pc).descriptor = "(😀)V" := by
  have hbytes : accented.bytes = .ok accentedBytes := by cbv
  have hbuilt : accentedMemory.Built := .region _
  have hplace : 0 < (0x1000 : UInt32) := by decide
  obtain ⟨hcomplete, hnames⟩ :=
    resolve_names_within_limit hbytes hbuilt hplace (by decide) (by decide)
  refine ⟨hbytes, hcomplete.mpr (by decide), ?_⟩
  intro pc
  obtain ⟨hclass, hmethod, hdescriptor⟩ := hnames pc
  exact ⟨hclass, hmethod, hdescriptor⟩

/-- A method without tables is written if its names can be stored. -/
theorem bytes_of_names {className methodName descriptor : List Char}
    {first second third : List UInt8} (hfirst : encodeText className = .ok first)
    (hsecond : encodeText methodName = .ok second) (hthird : encodeText descriptor = .ok third) :
    Method.bytes { className, methodName, descriptor } =
      .ok ([0, 0, 0, 0, 0, 0] ++ (first ++ (second ++ third))) := by
  have hnames : appendNames [] [className, methodName, descriptor] =
      .ok (first ++ (second ++ third)) := by
    simp [appendNames, appendText, hfirst, hsecond, hthird]
  simp only [Method.bytes, hnames, ok_bind]
  simp [layoutTables, toBigEndian]

/-- A class name that can be written and is longer than what is looked at. -/
def longNamed : Method where
  className := List.replicate 1100 'a'

/-- A name that was written is not always found again: the writer takes names that the reader gives
up on. -/
theorem written_name_not_found :
    ∃ bytes, longNamed.bytes = .ok bytes ∧
      let m : Memory := .region (.ofBytes "debug" 0x1000 bytes ⟨true, false⟩)
      m.read 0x1000 bytes.length = .ok bytes ∧ (readHeader m 0x1000).2 ≠ none ∧
        ∀ pc, (resolve m 0x1000 pc).className = "" := by
  have hbody : (storedBody longNamed.className).length = 1100 := by
    rw [length_storedBody, longNamed, List.map_replicate, List.sum_replicate]
    rfl
  obtain ⟨high, low, hname, -⟩ := encodeText_of_le longNamed.className (by omega)
  have hempty : encodeText [] = .ok [0, 0] := rfl
  have hsize : nameSize longNamed.className = 1102 := by rw [nameSize, ← length_storedBody, hbody]
  obtain ⟨bytes, hbytes, hlength⟩ : ∃ bytes, longNamed.bytes = .ok bytes ∧ bytes.length = 1112 := by
    refine ⟨_, bytes_of_names hname hempty hempty, ?_⟩
    simp only [List.length_append, List.length_cons, List.length_nil, hbody]
  refine ⟨bytes, hbytes, ?_⟩
  intro m
  have hread : m.read 0x1000 bytes.length = .ok bytes :=
    Memory.read_ofBytes "debug" 0x1000 bytes rfl
  have hroom : (0x1000 : UInt32).toNat + bytes.length ≤ 2 ^ 32 := by
    rw [hlength]
    decide
  have hbuilt : m.Built := .region _
  obtain ⟨hcomplete, hclass, -⟩ := readHeader_names hbytes hbuilt.ordered hroom hread
  simp only [hsize] at hcomplete hclass
  refine ⟨hread, ?_, fun _ => hclass⟩
  intro hnone
  have hlong := hcomplete.mp hnone
  omega

end Debug

end RegisterVM
