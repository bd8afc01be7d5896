import RegisterVM.Bytes
import RegisterVM.Memory.Stream
/-!
# Modified UTF-8

A stored text is a two-byte length followed by that many bytes. They spell UTF-16 units: a unit
takes one byte from `1` to `0x7F`, two bytes for zero and up to `0x7FF`, and three bytes above. A
character outside the basic plane is thus spelled as its two surrogates.

Reading works over any source of bytes, and leaves the source where reading stopped.
-/

namespace RegisterVM.Debug

/-- What makes stored bytes no text. -/
inductive Malformed where
  /-- A character reaches past the declared length. -/
  | cut
  /-- The second byte of a two-byte character is no continuation. -/
  | continuation (byte : UInt8)
  /-- A later byte of a three-byte character is no continuation. -/
  | continuations
  /-- A byte that starts no character. -/
  | lead (byte : UInt8)
  deriving DecidableEq, Repr

/-- Why no text could be read. -/
inductive TextError where
  /-- The source was at its end. -/
  | endOfStream
  /-- The source ended inside the text. -/
  | unexpectedEnd
  /-- A byte could not be read. -/
  | access (cause : AccessError)
  /-- The bytes are not modified UTF-8. -/
  | malformed (detail : Malformed)
  deriving DecidableEq, Repr

/-- The wording of a malformation. -/
def Malformed.message : Malformed → String
  | .cut => ErrorCode.malformedText.wording
  | .continuation byte => ErrorCode.malformedText.wording ++ ": bad continuation " ++ Text.byte byte
  | .continuations => ErrorCode.malformedText.wording ++ ": bad continuation"
  | .lead byte => ErrorCode.malformedText.wording ++ ": bad lead byte " ++ Text.byte byte

/-- The wording of a text error. -/
def TextError.message : TextError → String
  | .endOfStream => ErrorCode.endOfStream.wording
  | .unexpectedEnd => ErrorCode.unexpectedEnd.wording
  | .access cause => cause.message
  | .malformed detail => detail.message

/-- The code of a text error. -/
def TextError.code : TextError → ErrorCode
  | .endOfStream => .endOfStream
  | .unexpectedEnd => .unexpectedEnd
  | .access cause => cause.code
  | .malformed _ => .malformedText

instance : Failure TextError := ⟨TextError.message, fun e => some e.code⟩

/-- A text whose stored form is longer than its length field can say. -/
structure TextTooLong where
  bytes : Nat
  deriving DecidableEq, Repr

/-- The wording of a text that is too long. -/
def TextTooLong.message (e : TextTooLong) : String :=
  "string of " ++ Text.nat e.bytes ++ " bytes too long"

instance : Failure TextTooLong := ⟨TextTooLong.message, fun _ => none⟩

/-! ### UTF-16 -/

/-- The UTF-16 units of a character. -/
def unitsOfChar (c : Char) : List Nat :=
  if c.toNat < 0x10000 then [c.toNat]
  else [0xD800 + (c.toNat - 0x10000) / 0x400, 0xDC00 + (c.toNat - 0x10000) % 0x400]

/-- The characters that UTF-16 units spell; a surrogate without its partner becomes U+FFFD. -/
def charsOfUnits : List Nat → List Char
  | [] => []
  | [u] => [if 0xD800 ≤ u && u < 0xE000 then Char.ofNat 0xFFFD else Char.ofNat u]
  | u :: v :: rest =>
      if 0xD800 ≤ u && u < 0xDC00 && 0xDC00 ≤ v && v < 0xE000 then
        Char.ofNat (0x10000 + (u - 0xD800) * 0x400 + (v - 0xDC00)) :: charsOfUnits rest
      else if 0xD800 ≤ u && u < 0xE000 then Char.ofNat 0xFFFD :: charsOfUnits (v :: rest)
      else Char.ofNat u :: charsOfUnits (v :: rest)

/-! ### Writing -/

/-- The bytes of a unit. -/
def bytesOfUnit (u : Nat) : List UInt8 :=
  if u != 0 && u < 0x80 then [UInt8.ofNat u]
  else if u < 0x800 then [UInt8.ofNat (0xC0 + u / 64), UInt8.ofNat (0x80 + u % 64)]
  else
    [UInt8.ofNat (0xE0 + u / 4096), UInt8.ofNat (0x80 + u / 64 % 64), UInt8.ofNat (0x80 + u % 64)]

/-- The stored form of a text. -/
def encodeText (text : List Char) : Except TextTooLong (List UInt8) :=
  let body := (text.flatMap unitsOfChar).flatMap bytesOfUnit
  if 0xFFFF < body.length then .error ⟨body.length⟩
  else .ok (toBigEndian 2 body.length ++ body)

/-- Appends the stored form of a text to bytes: the bytes then, and why none were added if it is too
long. -/
def appendText (bytes : List UInt8) (text : List Char) : List UInt8 × Option TextTooLong :=
  match encodeText text with
  | .error e => (bytes, some e)
  | .ok code => (bytes ++ code, none)

/-! ### Reading -/

/-- A source of bytes with state `σ`: the next byte, or why there is none. -/
abbrev ByteSource (σ : Type) := σ → Except StreamError (UInt8 × σ)

/-- A list of bytes as a source. -/
def listSource : ByteSource (List UInt8)
  | [] => .error .endOfStream
  | b :: rest => .ok (b, rest)

/-- A missing byte at the start of a text. -/
def missingFirst : StreamError → TextError
  | .endOfStream => .endOfStream
  | .access cause => .access cause

/-- A missing byte inside a text. -/
def missingLater : StreamError → TextError
  | .endOfStream => .unexpectedEnd
  | .access cause => .access cause

/-- The value of a continuation byte, if it is one. -/
def continuation? (b : UInt8) : Option Nat :=
  if b &&& 0xC0 = 0x80 then some (b.toNat % 64) else none

/-- Puts a unit in front of those that were read after it. -/
def consUnit {σ : Type} (u : Nat) (r : Except TextError (List Nat) × σ) :
    Except TextError (List Nat) × σ :=
  (r.1.map (u :: ·), r.2)

/-- Reads the units in the next `count` bytes. -/
def readUnits {σ : Type} (next : ByteSource σ) :
    (count : Nat) → σ → Except TextError (List Nat) × σ
  | 0, s => (.ok [], s)
  | count + 1, s =>
      match next s with
      | .error e => (.error (missingLater e), s)
      | .ok (a, s) =>
          if a &&& 0x80 = 0 then consUnit a.toNat (readUnits next count s)
          else if a &&& 0xE0 = 0xC0 then
            match count with
            | 0 => (.error (.malformed .cut), s)
            | count + 1 =>
                match next s with
                | .error e => (.error (missingLater e), s)
                | .ok (b, s) =>
                    match continuation? b with
                    | none => (.error (.malformed (.continuation b)), s)
                    | some low => consUnit (a.toNat % 32 * 64 + low) (readUnits next count s)
          else if a &&& 0xF0 = 0xE0 then
            match count with
            | 0 | 1 => (.error (.malformed .cut), s)
            | count + 2 =>
                match next s with
                | .error e => (.error (missingLater e), s)
                | .ok (b, s) =>
                    match next s with
                    | .error e => (.error (missingLater e), s)
                    | .ok (c, s) =>
                        match continuation? b, continuation? c with
                        | some mid, some low =>
                            consUnit (a.toNat % 16 * 4096 + mid * 64 + low) (readUnits next count s)
                        | _, _ => (.error (.malformed .continuations), s)
          else (.error (.malformed (.lead a)), s)

/-- Reads a stored text. -/
def readText {σ : Type} (next : ByteSource σ) (s : σ) : Except TextError String × σ :=
  match next s with
  | .error e => (.error (missingFirst e), s)
  | .ok (high, s) =>
      match next s with
      | .error e => (.error (missingLater e), s)
      | .ok (low, s) =>
          let (units, s) := readUnits next (high.toNat * 256 + low.toNat) s
          (units.map fun us => String.ofList (charsOfUnits us), s)

end RegisterVM.Debug
