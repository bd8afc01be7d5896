import RegisterVM.Text.Digits
/-!
# TOML text

Texts and keys of TOML documents. A text stands between quotation marks: double ones, inside which
escapes are replaced, or single ones, inside which everything stands for itself. Tripled marks hold
texts of several lines. A key is a sequence of parts divided by dots; a part is bare or quoted.

Readers take the characters that are left and give what they read and the rest.
-/

namespace RegisterVM.Toml

/-- A key: its parts from the outside in. -/
abbrev Key := List String

/-- Whether a character divides words inside a line. -/
def isBlank (c : Char) : Bool := c == ' ' || c == '\t'

/-- Whether a character ends a line. -/
def isNewline (c : Char) : Bool := c == '\n' || c == '\r'

/-- Leaves out blanks. -/
def skipBlanks (chars : List Char) : List Char := chars.dropWhile isBlank

/-- Reads a character given by `count` hexadecimal digits. -/
def readCodePoint (count : Nat) (chars : List Char) : Option (Char × List Char) := do
  let digits ← (chars.take count).mapM Text.hexValue?
  if digits.length ≠ count then none
  else
    let n := digits.foldl (fun n d => n * 16 + d) 0
    if n.isValidChar then some (Char.ofNat n, chars.drop count) else none

/-- Reads an escape after its backslash. -/
def readEscape : List Char → Option (Char × List Char)
  | 'b' :: rest => some (Char.ofNat 8, rest)
  | 't' :: rest => some ('\t', rest)
  | 'n' :: rest => some ('\n', rest)
  | 'f' :: rest => some (Char.ofNat 12, rest)
  | 'r' :: rest => some ('\r', rest)
  | 'e' :: rest => some (Char.ofNat 27, rest)
  | '"' :: rest => some ('"', rest)
  | '\\' :: rest => some ('\\', rest)
  | 'x' :: rest => readCodePoint 2 rest
  | 'u' :: rest => readCodePoint 4 rest
  | 'U' :: rest => readCodePoint 8 rest
  | _ => none

/-- Reads a text in double marks after the opening one; `fuel` bounds its length. -/
def readBasic : (fuel : Nat) → List Char → Option (List Char × List Char)
  | 0, _ => none
  | _ + 1, [] => none
  | _ + 1, '"' :: rest => some ([], rest)
  | fuel + 1, '\\' :: rest => do
      let (c, rest) ← readEscape rest
      let (text, rest) ← readBasic fuel rest
      return (c :: text, rest)
  | fuel + 1, c :: rest =>
      if isNewline c then none
      else do
        let (text, rest) ← readBasic fuel rest
        return (c :: text, rest)

/-- Reads a text in single marks after the opening one. -/
def readLiteral (chars : List Char) : Option (List Char × List Char) :=
  let text := chars.takeWhile (· != '\'')
  match chars.dropWhile (· != '\'') with
  | [] => none
  | _ :: rest => if text.any isNewline then none else some (text, rest)

/-- The run of marks that starts with the mark just read: three of them close a text of several
lines, up to two more in front belong to it. Gives the marks that belong to the text and whether it
ends. -/
def closingRun (mark : Char) (following : Nat) : Option (List Char × Bool) :=
  let run := following + 1
  if run < 3 then some (List.replicate run mark, false)
  else if run ≤ 5 then some (List.replicate (run - 3) mark, true)
  else none

/-- Reads a text of several lines in double marks. A backslash at the end of a line leaves out the
line's end and all blanks and empty lines after it. -/
def readLongBasic : (fuel : Nat) → List Char → Option (List Char × List Char)
  | 0, _ => none
  | _ + 1, [] => none
  | fuel + 1, '"' :: rest => do
      let (marks, ends) ← closingRun '"' (rest.takeWhile (· == '"')).length
      let rest := rest.dropWhile (· == '"')
      if ends then return (marks, rest)
      let (text, rest) ← readLongBasic fuel rest
      return (marks ++ text, rest)
  | fuel + 1, '\\' :: rest =>
      let isGap (c : Char) : Bool := isBlank c || isNewline c
      let gap := rest.takeWhile isGap
      if gap.isEmpty then do
        let (c, rest) ← readEscape rest
        let (text, rest) ← readLongBasic fuel rest
        return (c :: text, rest)
      else if gap.contains '\n' then readLongBasic fuel (rest.dropWhile isGap)
      else none
  | fuel + 1, c :: rest => do
      let (text, rest) ← readLongBasic fuel rest
      return (c :: text, rest)

/-- Reads a text of several lines in single marks. -/
def readLongLiteral : (fuel : Nat) → List Char → Option (List Char × List Char)
  | 0, _ => none
  | _ + 1, [] => none
  | fuel + 1, '\'' :: rest => do
      let (marks, ends) ← closingRun '\'' (rest.takeWhile (· == '\'')).length
      let rest := rest.dropWhile (· == '\'')
      if ends then return (marks, rest)
      let (text, rest) ← readLongLiteral fuel rest
      return (marks ++ text, rest)
  | fuel + 1, c :: rest => do
      let (text, rest) ← readLongLiteral fuel rest
      return (c :: text, rest)

/-- Leaves out a line's end that directly follows an opening mark. -/
def skipFirstNewline : List Char → List Char
  | '\n' :: rest => rest
  | '\r' :: '\n' :: rest => rest
  | chars => chars

/-- Reads a text of any form. -/
def readText (chars : List Char) : Option (String × List Char) := do
  let (text, rest) ←
    match chars with
    | '"' :: '"' :: '"' :: rest => readLongBasic (rest.length + 1) (skipFirstNewline rest)
    | '\'' :: '\'' :: '\'' :: rest => readLongLiteral (rest.length + 1) (skipFirstNewline rest)
    | '"' :: rest => readBasic (rest.length + 1) rest
    | '\'' :: rest => readLiteral rest
    | _ => none
  return (String.ofList text, rest)

/-- Whether a character may stand in a bare part of a key. -/
def isBare (c : Char) : Bool := c.isAlphanum || c == '_' || c == '-'

/-- Reads a part of a key. -/
def readPart (chars : List Char) : Option (String × List Char) := do
  let (part, rest) ←
    match chars with
    | '"' :: rest => readBasic (rest.length + 1) rest
    | '\'' :: rest => readLiteral rest
    | _ =>
        let part := chars.takeWhile isBare
        if part.isEmpty then none else some (part, chars.dropWhile isBare)
  return (String.ofList part, rest)

/-- Reads a key, with blanks around its parts; `fuel` bounds the parts. -/
def readParts : (fuel : Nat) → List Char → Option (Key × List Char)
  | 0, _ => none
  | fuel + 1, chars => do
      let (part, rest) ← readPart (skipBlanks chars)
      match skipBlanks rest with
      | '.' :: rest => do
          let (parts, rest) ← readParts fuel rest
          return (part :: parts, rest)
      | rest => return ([part], rest)

/-- Reads a key. -/
def readKey (chars : List Char) : Option (Key × List Char) := readParts (chars.length + 1) chars

/-- The text of a part inside double marks. -/
def quotePart (part : String) : String :=
  let hex (n : Nat) : List Char := (Nat.toDigits 16 n)
  let escape (c : Char) : List Char :=
    match c.toNat with
    | 8 => ['\\', 'b']
    | 9 => ['\\', 't']
    | 10 => ['\\', 'n']
    | 12 => ['\\', 'f']
    | 13 => ['\\', 'r']
    | n =>
        if c = '"' || c = '\\' then ['\\', c]
        else if n < 16 then "\\u000".toList ++ hex n
        else if n < 32 || n = 127 then "\\u00".toList ++ hex n
        else [c]
  "\"" ++ String.ofList (part.toList.flatMap escape) ++ "\""

/-- The text of a key: bare parts as they are, others quoted, divided by dots. -/
def keyText (key : Key) : String :=
  ".".intercalate (key.map fun part =>
    if !part.isEmpty && part.toList.all isBare then part else quotePart part)

end RegisterVM.Toml
