import RegisterVM.Text.Digits
import RegisterVM.Text.Printable
/-!
# Quoted text

Text between quotation marks, as messages show names: the mark itself and the backslash are
escaped, control characters with a short spelling use it, and every other character that is not
printable is given by its code point.
-/

namespace RegisterVM.Text

/-- The letter that spells a control character after a backslash. -/
def controlLetter? (c : Char) : Option Char :=
  match c.toNat with
  | 7 => some 'a'
  | 8 => some 'b'
  | 9 => some 't'
  | 10 => some 'n'
  | 11 => some 'v'
  | 12 => some 'f'
  | 13 => some 'r'
  | _ => none

/-- A character inside quotation marks `mark`. -/
def escapeChar (mark c : Char) : String :=
  if c = mark || c = '\\' then String.ofList ['\\', c]
  else if isPrintable c then String.singleton c
  else
    match controlLetter? c with
    | some letter => String.ofList ['\\', letter]
    | none =>
        if c.toNat < 0x80 then "\\x" ++ hex 2 c.toNat
        else if c.toNat < 0x10000 then "\\u" ++ hex 4 c.toNat
        else "\\U" ++ hex 8 c.toNat

/-- Text in double quotation marks. -/
def quote (text : String) : String :=
  "\"" ++ String.join (text.toList.map (escapeChar '"')) ++ "\""

/-- A character in single quotation marks. -/
def quoteChar (c : Char) : String := "'" ++ escapeChar '\'' c ++ "'"

end RegisterVM.Text
