import RegisterVM.Text.Utf8
import RegisterVM.Toml.Scalar
/-!
# TOML documents

A document is a sequence of lines: headers of tables and of array elements, and assignments. A value
is a scalar, an array or an inline table. Arrays and inline tables may stretch over lines and end
with a comma.
-/

namespace RegisterVM.Toml

/-- A value as it is written. -/
inductive Expr where
  | scalar (s : Scalar)
  | array (items : List Expr)
  /-- An inline table: keys and their values in order. -/
  | inline (keys : List Key) (values : List Expr)

/-- A line that says something. -/
inductive Statement where
  /-- The header of a table, or of an element of an array of tables. -/
  | header (isElement : Bool) (key : Key)
  | assign (key : Key) (value : Expr)

/-- Leaves out blanks, line ends and comments. -/
def skipFiller (inComment : Bool) : List Char → List Char
  | [] => []
  | c :: rest =>
      if inComment then skipFiller (!isNewline c) rest
      else if isBlank c || isNewline c then skipFiller false rest
      else if c == '#' then skipFiller true rest
      else c :: rest

mutual

/-- Reads a value; `fuel` bounds the reading. -/
def readExpr (fuel : Nat) (chars : List Char) : Option (Expr × List Char) :=
  match fuel with
  | 0 => none
  | fuel + 1 =>
      match chars with
      | '[' :: rest =>
          (readItems fuel (skipFiller false rest)).map fun (items, rest) => (.array items, rest)
      | '\x7b' :: rest =>
          (readMembers fuel (skipFiller false rest)).map fun (keys, values, rest) =>
            (.inline keys values, rest)
      | _ => (readScalar chars).map fun (s, rest) => (.scalar s, rest)

/-- Reads the items of an array up to its end. -/
def readItems (fuel : Nat) (chars : List Char) : Option (List Expr × List Char) :=
  match fuel with
  | 0 => none
  | fuel + 1 =>
      match chars with
      | ']' :: rest => some ([], rest)
      | _ =>
          match readExpr fuel chars with
          | none => none
          | some (item, rest) =>
              match skipFiller false rest with
              | ']' :: rest => some ([item], rest)
              | ',' :: rest =>
                  (readItems fuel (skipFiller false rest)).map fun (items, rest) =>
                    (item :: items, rest)
              | _ => none

/-- Reads the members of an inline table up to its end. -/
def readMembers (fuel : Nat) (chars : List Char) : Option (List Key × List Expr × List Char) :=
  match fuel with
  | 0 => none
  | fuel + 1 =>
      match chars with
      | '\x7d' :: rest => some ([], [], rest)
      | _ =>
          match readKey chars with
          | some (key, '=' :: rest) =>
              match readExpr fuel (skipBlanks rest) with
              | none => none
              | some (value, rest) =>
                  match skipFiller false rest with
                  | '\x7d' :: rest => some ([key], [value], rest)
                  | ',' :: rest =>
                      (readMembers fuel (skipFiller false rest)).map fun (keys, values, rest) =>
                        (key :: keys, value :: values, rest)
                  | _ => none
          | _ => none

end

/-- What follows a line that ends here: only blanks and a comment may come before its end. -/
def afterLine (chars : List Char) : Option (List Char) :=
  let chars :=
    match skipBlanks chars with
    | '#' :: rest => rest.dropWhile fun c => !isNewline c
    | rest => rest
  match chars with
  | [] => some []
  | c :: rest => if isNewline c then some rest else none

/-- Reads a header after its opening bracket. -/
def readHeader (chars : List Char) : Option (Statement × List Char) :=
  match chars with
  | '[' :: rest =>
      match readKey rest with
      | some (key, ']' :: ']' :: rest) => some (.header true key, rest)
      | _ => none
  | _ =>
      match readKey chars with
      | some (key, ']' :: rest) => some (.header false key, rest)
      | _ => none

/-- Reads a statement. -/
def readStatement (chars : List Char) : Option (Statement × List Char) :=
  match chars with
  | '[' :: rest => readHeader rest
  | _ =>
      match readKey chars with
      | some (key, '=' :: rest) =>
          (readExpr (chars.length + 1) (skipBlanks rest)).map fun (value, rest) =>
            (.assign key value, rest)
      | _ => none

/-- Reads statements to the end; `fuel` bounds their number. -/
def readStatements : (fuel : Nat) → List Char → Option (List Statement)
  | 0, _ => some []
  | fuel + 1, chars =>
      match skipFiller false chars with
      | [] => some []
      | chars => do
          let (statement, rest) ← readStatement chars
          let statements ← readStatements fuel (← afterLine rest)
          return statement :: statements

/-- Whether a document holds only characters that may occur: no control characters but tabs and line
ends, and no carriage return on its own. -/
def charactersOk : List Char → Bool
  | [] => true
  | '\r' :: '\n' :: rest => charactersOk rest
  | c :: rest => (c == '\t' || c == '\n' || (32 ≤ c.toNat && c.toNat != 127)) && charactersOk rest

/-- Leaves out a byte order mark at the front. -/
def skipMark : List Char → List Char
  | c :: rest => if c.toNat = 0xFEFF then rest else c :: rest
  | [] => []

/-- The statements of a document. -/
def readDocument (text : String) : Option (List Statement) :=
  let chars := skipMark text.toList
  if charactersOk chars then readStatements (chars.length + 1) chars else none

end RegisterVM.Toml
