import RegisterVM.Bytes
import RegisterVM.Text.Utf8
/-!
# CBOR items

Records are kept as CBOR items: numbers, byte and text strings, arrays, maps, tagged items and
simple values. An item starts with a head, which gives its kind and a number; the number is the
value itself, a length or a count. Strings, arrays and maps may also come in pieces up to a break
mark.

Writing uses the shortest head and announces every length. Reading accepts any well-formed item, up
to 32 levels of nesting.
-/

namespace RegisterVM.Library.Cbor

/-- A CBOR item. -/
inductive Item where
  /-- A number from zero up. -/
  | unsigned (n : Nat)
  /-- The number `-1 - n`. -/
  | negative (n : Nat)
  | bytes (content : List UInt8)
  /-- A text in the pieces in which it came; each has to be a text of its own. -/
  | text (pieces : List (List UInt8))
  | array (items : List Item)
  | map (pairs : List (Item × Item))
  | tag (n : Nat) (item : Item)
  /-- Neither true, false, null and the like, nor a floating-point number, is told apart further
  than by its head. -/
  | simple (info n : Nat)

/-! ### Writing -/

/-- The head of an item of kind `kind` with number `n` in the shortest form. -/
def head (kind n : Nat) : List UInt8 :=
  let first (info : Nat) : UInt8 := UInt8.ofNat (kind * 32 + info)
  if n < 24 then [first n]
  else if n < 0x100 then first 24 :: toBigEndian 1 n
  else if n < 0x10000 then first 25 :: toBigEndian 2 n
  else if n < 0x100000000 then first 26 :: toBigEndian 4 n
  else first 27 :: toBigEndian 8 n

/-- An integer. -/
def writeInt (n : Int) : List UInt8 :=
  match n with
  | .ofNat n => head 0 n
  | .negSucc n => head 1 n

/-- A byte string. -/
def writeBytes (content : List UInt8) : List UInt8 := head 2 content.length ++ content

/-- A text string. -/
def writeText (text : String) : List UInt8 :=
  let content := Text.Utf8.bytes text
  head 3 content.length ++ content

/-- The start of a map of `count` pairs. -/
def writeMapHead (count : Nat) : List UInt8 := head 5 count

/-! ### Reading -/

/-- What a head says: a number, or that pieces up to a break mark follow. -/
inductive Extent where
  | number (info n : Nat)
  | pieces
  deriving DecidableEq, Repr

/-- The width of the number after a first byte with the low bits `info`. -/
def numberWidth (info : Nat) : Option Nat :=
  match info with
  | 24 => some 1
  | 25 => some 2
  | 26 => some 4
  | 27 => some 8
  | _ => none

/-- Reads a head: the kind, its extent and the rest. -/
def readHead : List UInt8 → Option (Nat × Extent × List UInt8)
  | [] => none
  | first :: rest =>
      let kind := first.toNat / 32
      let info := first.toNat % 32
      if info < 24 then some (kind, .number info info, rest)
      else if info = 31 then some (kind, .pieces, rest)
      else do
        let (field, rest) ← takeExact (← numberWidth info) rest
        return (kind, .number info (bigEndian field), rest)

/-- Whether a break mark comes next: what follows it. -/
def breakMark? : List UInt8 → Option (List UInt8)
  | 0xFF :: rest => some rest
  | _ => none

/-- Reads pieces of a string of kind `kind` up to the break mark; `fuel` bounds their number. -/
def readPieces (kind : Nat) : (fuel : Nat) → List UInt8 → Option (List (List UInt8) × List UInt8)
  | 0, _ => none
  | fuel + 1, input =>
      match breakMark? input with
      | some rest => some ([], rest)
      | none => do
          let (pieceKind, extent, rest) ← readHead input
          match extent with
          | .pieces => none
          | .number _ size =>
              if pieceKind ≠ kind then none
              else
                let (piece, rest) ← takeExact size rest
                let (pieces, rest) ← readPieces kind fuel rest
                return (piece :: pieces, rest)

/-- Pairs up the items of a map. -/
def pairUp : List Item → Option (List (Item × Item))
  | [] => some []
  | [_] => none
  | key :: value :: rest => (pairUp rest).map ((key, value) :: ·)

mutual

/-- Reads an item that may nest `depth` levels deeper; `fuel` bounds the reading. -/
def readItem (fuel depth : Nat) (input : List UInt8) : Option (Item × List UInt8) :=
  match fuel with
  | 0 => none
  | fuel + 1 =>
      match readHead input with
      | none => none
      | some (0, .number _ n, rest) => some (.unsigned n, rest)
      | some (1, .number _ n, rest) => some (.negative n, rest)
      | some (2, .number _ n, rest) =>
          (takeExact n rest).map fun (content, rest) => (.bytes content, rest)
      | some (2, .pieces, rest) =>
          (readPieces 2 fuel rest).map fun (pieces, rest) => (.bytes pieces.flatten, rest)
      | some (3, .number _ n, rest) =>
          (takeExact n rest).map fun (content, rest) => (.text [content], rest)
      | some (3, .pieces, rest) =>
          (readPieces 3 fuel rest).map fun (pieces, rest) => (.text pieces, rest)
      | some (4, .number _ n, rest) =>
          if depth = 0 then none
          else (readItems fuel (depth - 1) n rest).map fun (items, rest) => (.array items, rest)
      | some (4, .pieces, rest) =>
          if depth = 0 then none
          else (readUntilBreak fuel (depth - 1) rest).map fun (items, rest) => (.array items, rest)
      | some (5, .number _ n, rest) =>
          if depth = 0 then none
          else (readItems fuel (depth - 1) (2 * n) rest).bind fun (items, rest) =>
            (pairUp items).map fun pairs => (.map pairs, rest)
      | some (5, .pieces, rest) =>
          if depth = 0 then none
          else (readUntilBreak fuel (depth - 1) rest).bind fun (items, rest) =>
            (pairUp items).map fun pairs => (.map pairs, rest)
      | some (6, .number _ n, rest) =>
          if depth = 0 then none
          else (readItem fuel (depth - 1) rest).map fun (item, rest) => (.tag n item, rest)
      | some (7, .number info n, rest) =>
          if info = 24 ∧ n < 32 then none else some (.simple info n, rest)
      | some _ => none

/-- Reads `count` items. -/
def readItems (fuel depth count : Nat) (input : List UInt8) : Option (List Item × List UInt8) :=
  match fuel, count with
  | _, 0 => some ([], input)
  | 0, _ + 1 => none
  | fuel + 1, count + 1 =>
      match readItem fuel depth input with
      | none => none
      | some (item, rest) =>
          (readItems fuel depth count rest).map fun (items, rest) => (item :: items, rest)

/-- Reads items up to the break mark. -/
def readUntilBreak (fuel depth : Nat) (input : List UInt8) : Option (List Item × List UInt8) :=
  match fuel with
  | 0 => none
  | fuel + 1 =>
      match breakMark? input with
      | some rest => some ([], rest)
      | none =>
          match readItem fuel depth input with
          | none => none
          | some (item, rest) =>
              (readUntilBreak fuel depth rest).map fun (items, rest) => (item :: items, rest)

end

/-- How deep items may nest. -/
def maxDepth : Nat := 32

/-- The item that bytes spell, with nothing after it. -/
def read (input : List UInt8) : Option Item :=
  match readItem (2 * input.length + 2) maxDepth input with
  | some (item, []) => some item
  | _ => none

end RegisterVM.Library.Cbor
