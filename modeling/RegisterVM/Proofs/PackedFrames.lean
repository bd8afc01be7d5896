import RegisterVM.Proofs.Bytes
import RegisterVM.Compression.Zstandard

/-!
# Packed data reads back

`pack` writes one frame of plain blocks, and `unpack` gives back what went in. Each reader is shown
to take what the writer of the same part puts in front of any rest; the blocks of a frame follow by
induction on how many of them are full.
-/

namespace RegisterVM.Compression.Zstandard

/-! ### Numbers and cuts -/

theorem length_toLittleEndian (width n : Nat) : (toLittleEndian width n).length = width := by
  rw [toLittleEndian, List.length_reverse, length_toBigEndian]

/-- A number that fits reads back. -/
theorem littleEndian_toLittleEndian {width n : Nat} (h : n < 256 ^ width) :
    littleEndian (toLittleEndian width n) = n := by
  rw [littleEndian, toLittleEndian, List.reverse_reverse, bigEndian_toBigEndian, Nat.mod_eq_of_lt h]

/-- Cutting off as many bytes as there are in front gives these. -/
theorem cut_append {count : Nat} {front : List UInt8} (h : front.length = count)
    (back : List UInt8) : cut count (front ++ back) = .ok (front, back) := by
  rw [cut, takeExact_append h]

/-! ### Blocks -/

/-- A plain block that fits reads back, in front of any rest. It has to fit twice, by the format and
into the window. -/
theorem readBlock_plainBlock {window : Nat} {content : List UInt8}
    (hblock : content.length ≤ maxBlock) (hwindow : content.length ≤ window) (last : Bool)
    (rest : List UInt8) :
    readBlock window (plainBlock last content ++ rest) = .ok (last, content, rest) := by
  have hmax : maxBlock = 131072 := rfl
  obtain ⟨number, hnumber⟩ : ∃ n, n = content.length * 8 + if last then 1 else 0 := ⟨_, rfl⟩
  have hflag : (if last then 1 else 0) < 2 := by cases last <;> decide
  have hread : littleEndian (toLittleEndian 3 number) = number :=
    littleEndian_toLittleEndian (by norm_num; omega)
  have hlast : decide (number % 2 = 1) = last := by
    cases last <;> simp at hnumber <;> simp <;> omega
  -- The lowest bit says whether the block is the last, the next two its kind, and the rest its
  -- size.
  have hkind : number / 2 % 4 = 0 := by omega
  have hsize : number / 8 = content.length := by omega
  have hfits : ¬(decide (maxBlock < content.length) || decide (window < content.length)) =
      true := by
    rw [Bool.or_eq_true, decide_eq_true_eq, decide_eq_true_eq]
    omega
  rw [plainBlock, ← hnumber, List.append_assoc, readBlock,
    cut_append (length_toLittleEndian 3 number), ok_bind]
  simp only [hread, hkind, hsize, hlast]
  rw [if_neg hfits, cut_append rfl, ok_bind]
  rfl

/-- There are more bytes than full blocks, so a reader with fuel for the bytes has enough. -/
theorem length_plainBlocks (full : Nat) (content : List UInt8) :
    full < (plainBlocks full content).length := by
  have hblock (last : Bool) (part : List UInt8) : 3 ≤ (plainBlock last part).length := by
    rw [plainBlock, List.length_append, length_toLittleEndian]
    omega
  induction full generalizing content with
  | zero =>
      have hlast := hblock true content
      rw [plainBlocks]
      omega
  | succ full ih =>
      have hfirst := hblock false (content.take maxBlock)
      have hrest := ih (content.drop maxBlock)
      rw [plainBlocks, List.length_append]
      omega

/-- The blocks of a frame read back, in front of any rest. The induction is on how many blocks are
full; the last one may have any length up to that, also none. -/
theorem readBlocks_plainBlocks {header : Header} {total : Nat}
    (hsize : header.contentSize = some total) (hwindow : total ≤ header.window)
    {full count fuel : Nat} {content : List UInt8} (hcount : count + content.length = total)
    (hblocks : content.length ≤ (full + 1) * maxBlock) (hfuel : full < fuel) (rest : List UInt8) :
    readBlocks header count fuel (plainBlocks full content ++ rest) = .ok (content, rest) := by
  have hwithin {n : Nat} (h : n ≤ total) : ¬header.exceeded n = true := by
    rw [Header.exceeded, hsize]
    simpa using h
  induction full generalizing count content fuel with
  | zero =>
      obtain ⟨fuel, rfl⟩ : ∃ n, fuel = n + 1 := ⟨fuel - 1, by omega⟩
      have hall : ¬(header.contentSize.any (· != count + content.length)) = true := by
        rw [hsize, hcount]
        simp
      rw [plainBlocks, readBlocks, readBlock_plainBlock (by omega) (by omega), ok_bind]
      simp only [if_neg (hwithin hcount.le), if_true, if_neg hall]
      rfl
  | succ full ih =>
      obtain ⟨fuel, rfl⟩ : ∃ n, fuel = n + 1 := ⟨fuel - 1, by omega⟩
      -- The first block is full, and the rest has one full block less.
      have hpart : (content.take maxBlock).length ≤ maxBlock := List.length_take_le ..
      have hsplit : (content.take maxBlock).length + (content.drop maxBlock).length =
          content.length := by
        rw [← List.length_append, List.take_append_drop]
      have hleft : (content.drop maxBlock).length ≤ (full + 1) * maxBlock := by
        rw [Nat.succ_mul] at hblocks
        rw [List.length_drop]
        omega
      have hdone : count + (content.take maxBlock).length +
          (content.drop maxBlock).length = total := by
        omega
      have hrest := ih hdone hleft (Nat.lt_of_succ_lt_succ hfuel)
      rw [plainBlocks, List.append_assoc, readBlocks,
        readBlock_plainBlock hpart (by omega), ok_bind]
      have hsofar : count + (content.take maxBlock).length ≤ total := by omega
      simp only [if_neg (hwithin hsofar)]
      rw [if_neg (by decide), hrest, ok_bind]
      show Except.ok (content.take maxBlock ++ content.drop maxBlock, rest) = _
      rw [List.take_append_drop]

/-! ### Frames -/

/-- The header that `pack` writes announces the size of the content, which is the window as well. -/
theorem readHeader_packed {size : Nat} (h : size < 256 ^ 8) (rest : List UInt8) :
    readHeader ([0xE0] ++ (toLittleEndian 8 size ++ rest)) =
        .ok (⟨max size minWindow, some size⟩, rest) := by
  have hflags : littleEndian [0xE0] = 224 := rfl
  have hfield : contentSizeOf (toLittleEndian 8 size) = some size := by
    rw [contentSizeOf, length_toLittleEndian]
    simp only [littleEndian_toLittleEndian h]
  have hfirst : cut 1 ([0xE0] ++ (toLittleEndian 8 size ++ rest)) =
      .ok ([0xE0], toLittleEndian 8 size ++ rest) := cut_append (List.length_singleton ..) _
  have hdescriptor : cut 0 (toLittleEndian 8 size ++ rest) =
      .ok ([], toLittleEndian 8 size ++ rest) :=
    cut_append List.length_nil _
  have hwidth : sizeFieldWidth (224 / 64) true = 8 := rfl
  rw [readHeader, hfirst, ok_bind]
  simp only [hflags, if_true, decide_true, hdescriptor, ok_bind]
  rw [if_neg (by decide), if_neg (by decide), hwidth,
    cut_append (length_toLittleEndian 8 size), ok_bind]
  simp only [hfield]
  rfl

/-- A packed frame reads back, in front of any rest. The size that was announced is the size that is
found. -/
theorem readFrame_pack {content : List UInt8} (h : content.length < 256 ^ 8) (rest : List UInt8) :
    readFrame (pack content ++ rest) = .ok (content, rest) := by
  obtain ⟨full, hfull⟩ : ∃ n, n = (content.length - 1) / maxBlock := ⟨_, rfl⟩
  have hpos : 0 < maxBlock := by decide
  have hblocks : content.length ≤ (full + 1) * maxBlock := by
    have hlt := Nat.lt_mul_div_succ (content.length - 1) hpos
    rw [← hfull, Nat.mul_comm] at hlt
    omega
  have hfuel : full < (plainBlocks full content ++ rest).length := by
    rw [List.length_append]
    exact Nat.lt_add_right _ (length_plainBlocks full content)
  have hmark : cut 4 (pack content ++ rest) =
      .ok (frameMark,
        [0xE0] ++ (toLittleEndian 8 content.length ++ (plainBlocks full content ++ rest))) := by
    have hlength : frameMark.length = 4 := rfl
    rw [pack, ← hfull, List.append_assoc, List.append_assoc, List.append_assoc, cut_append hlength]
  rw [readFrame, hmark, ok_bind]
  simp only []
  rw [if_neg (by decide), if_true, readHeader_packed h, ok_bind]
  exact readBlocks_plainBlocks rfl (le_max_left ..) (Nat.zero_add _) hblocks hfuel rest

/-- What packed data stands for is what was packed. There is one frame and nothing after it. -/
theorem unpack_pack {content : List UInt8} (h : content.length < 256 ^ 8) :
    unpack (pack content) = .ok content := by
  obtain ⟨fuel, hfuel⟩ : ∃ n, (pack content).length = n + 1 := by
    refine ⟨(pack content).length - 1, ?_⟩
    rw [pack, List.append_assoc, List.append_assoc, List.length_append]
    have hmark : frameMark.length = 4 := rfl
    omega
  have hframe : readFrame (pack content) = .ok (content, []) := by
    have hread := readFrame_pack h []
    rwa [List.append_nil] at hread
  have hnonempty : pack content ≠ [] := by
    intro hnil
    rw [hnil] at hfuel
    cases hfuel
  rw [unpack, hfuel, readFrames, hframe, ok_bind]
  · cases fuel <;> exact congrArg Except.ok (List.append_nil content)
  · exact hnonempty

end RegisterVM.Compression.Zstandard
