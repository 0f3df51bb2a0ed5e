import RandomDerivation.Json.Basic
import RandomDerivation.Decimal.Notation
import RandomDerivation.Text.Integer

/-!
# Writing JSON

Documents are written with two spaces of indentation a level, one item or member a line, and
every character that JSON does not force to be escaped as itself.
-/

namespace RandomDerivation.Json

/-- Doubles in documents: not-a-number and the infinities are spelled as words. -/
def numberStyle : Decimal.Style := { nan := "NaN", infinity := "Infinity" }

/-- How a character is written in a string: the two marks and the control characters are
escaped, by a letter where there is one. -/
def escape (c : Char) : List Char :=
  match c with
  | '"' => ['\\', '"']
  | '\\' => ['\\', '\\']
  | '\n' => ['\\', 'n']
  | '\r' => ['\\', 'r']
  | '\t' => ['\\', 't']
  | '\x08' => ['\\', 'b']
  | '\x0c' => ['\\', 'f']
  | c =>
    if c.toNat < 0x20 then
      ['\\', 'u', '0', '0', Nat.digitChar (c.toNat / 16), Nat.digitChar (c.toNat % 16)]
    else [c]

/-- A string between quotes. -/
def quoted (s : String) : List Char := '"' :: (s.toList.flatMap escape ++ ['"'])

/-- A line end and the indentation of a level. -/
def newline (level : Nat) : List Char := '\n' :: List.replicate (2 * level) ' '

/-- The text of a value that is neither an array nor an object. -/
def scalarText : Json → List Char
  | .null => "null".toList
  | .bool true => "true".toList
  | .bool false => "false".toList
  | .int n => (Integer.write n).toList
  | .float x => (numberStyle.write x).toList
  | .str s => quoted s
  | .arr _ => []
  | .obj _ => []

mutual

/-- The text of a value that stands at the given level. -/
def text (level : Nat) : Json → List Char
  | .arr [] => ['[', ']']
  | .arr (x :: xs) =>
    '[' :: (newline (level + 1) ++ text (level + 1) x ++ itemsText (level + 1) xs ++
      newline level ++ [']'])
  | .obj [] => ['\x7b', '\x7d']
  | .obj ((k, x) :: ms) =>
    '\x7b' :: (newline (level + 1) ++ quoted k ++ [':', ' '] ++ text (level + 1) x ++
      membersText (level + 1) ms ++ newline level ++ ['\x7d'])
  | v => scalarText v

/-- The items behind the first, each with the comma in front of it. -/
def itemsText (level : Nat) : List Json → List Char
  | [] => []
  | x :: xs => ',' :: (newline level ++ text level x ++ itemsText level xs)

/-- The members behind the first, each with the comma in front of it. -/
def membersText (level : Nat) : List (String × Json) → List Char
  | [] => []
  | (k, x) :: ms =>
    ',' :: (newline level ++ quoted k ++ [':', ' '] ++ text level x ++ membersText level ms)

end

/-- The text of a value. -/
def write (v : Json) : String := String.ofList (text 0 v)

end RandomDerivation.Json
