/-!
# Lenient UTF-8

Byte sequences read as UTF-8 text without ever failing: a byte that starts no well-formed
character stands for itself and counts as one character. `split` cuts a sequence into such
pieces, so lengths, columns and replacement text all follow from one rule.
-/

namespace RegisterVM.Text.Utf8

/-- A piece of a byte sequence: a well-formed character with its bytes, or a byte that starts
none. -/
inductive Piece where
  /-- A well-formed character. -/
  | char (c : Char) (bytes : List UInt8)
  /-- A byte outside every well-formed character. -/
  | stray (byte : UInt8)

/-- The bytes a piece covers. -/
def Piece.bytes : Piece → List UInt8
  | .char _ bytes => bytes
  | .stray byte => [byte]

/-- Whether `b` continues a character. -/
def isContinuation (b : UInt8) : Bool := 0x80 ≤ b && b ≤ 0xBF

/-- The bounds that the byte after lead byte `lead` keeps. They exclude overlong spellings,
surrogates and values past the last code point. -/
def secondBounds (lead : UInt8) : UInt8 × UInt8 :=
  if lead = 0xE0 then (0xA0, 0xBF)
  else if lead = 0xED then (0x80, 0x9F)
  else if lead = 0xF0 then (0x90, 0xBF)
  else if lead = 0xF4 then (0x80, 0x8F)
  else (0x80, 0xBF)

/-- Whether `second` may follow `lead`. -/
def follows (lead second : UInt8) : Bool :=
  (secondBounds lead).1 ≤ second && second ≤ (secondBounds lead).2

/-- The six low bits that a continuation byte carries. -/
def payload (b : UInt8) : Nat := b.toNat % 64

/-- The first piece of a non-empty sequence. -/
def firstPiece (lead : UInt8) (rest : List UInt8) : Piece :=
  if lead < 0x80 then .char (Char.ofNat lead.toNat) [lead]
  else if 0xC2 ≤ lead && lead ≤ 0xDF then
    match rest with
    | b :: _ =>
        if isContinuation b then
          .char (Char.ofNat (lead.toNat % 32 * 64 + payload b)) [lead, b]
        else .stray lead
    | _ => .stray lead
  else if 0xE0 ≤ lead && lead ≤ 0xEF then
    match rest with
    | b :: c :: _ =>
        if follows lead b && isContinuation c then
          .char (Char.ofNat (lead.toNat % 16 * 4096 + payload b * 64 + payload c)) [lead, b, c]
        else .stray lead
    | _ => .stray lead
  else if 0xF0 ≤ lead && lead ≤ 0xF4 then
    match rest with
    | b :: c :: d :: _ =>
        if follows lead b && isContinuation c && isContinuation d then
          .char
            (Char.ofNat (lead.toNat % 8 * 262144 + payload b * 4096 + payload c * 64 + payload d))
            [lead, b, c, d]
        else .stray lead
    | _ => .stray lead
  else .stray lead

/-- The pieces of a sequence; `fuel` bounds their number. -/
def splitWith : (fuel : Nat) → List UInt8 → List Piece
  | 0, _ => []
  | _ + 1, [] => []
  | fuel + 1, lead :: rest =>
      let piece := firstPiece lead rest
      piece :: splitWith fuel (rest.drop (piece.bytes.length - 1))

/-- The pieces of a sequence, in order. -/
def split (bytes : List UInt8) : List Piece := splitWith bytes.length bytes

/-- How many characters a sequence shows, a stray byte counting as one. -/
def length (bytes : List UInt8) : Nat := (split bytes).length

/-- The characters of a sequence, with U+FFFD for each stray byte. -/
def chars (bytes : List UInt8) : List Char :=
  (split bytes).map fun
    | .char c _ => c
    | .stray _ => Char.ofNat 0xFFFD

/-- The text of a sequence, if it is well formed throughout. -/
def text? (bytes : List UInt8) : Option String := String.fromUTF8? ⟨bytes.toArray⟩

/-- The bytes of a text. -/
def bytes (text : String) : List UInt8 := text.toUTF8.data.toList

/-- The first `count` characters of a sequence. -/
def truncate (count : Nat) (bytes : List UInt8) : List UInt8 :=
  ((split bytes).take count).flatMap Piece.bytes

/-- A right-aligned column: at most `width` characters, blanks in front of fewer. -/
def columnRight (width : Nat) (bytes : List UInt8) : List UInt8 :=
  let shown := truncate width bytes
  List.replicate (width - length shown) 0x20 ++ shown

end RegisterVM.Text.Utf8
