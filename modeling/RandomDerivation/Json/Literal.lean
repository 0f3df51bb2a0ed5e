import RandomDerivation.Json.Basic
import RandomDerivation.Decimal.Notation
import RandomDerivation.Text.Integer
import RandomDerivation.Text.Quoted

/-!
# Values on one line

The short form of a value, as outlines and messages show it: strings are quoted text, the
constants are words with a capital, and arrays and objects stay on the line.
-/

namespace RandomDerivation.Json

/-- Doubles on a line: not-a-number and the infinities are spelled in lower case. -/
def literalStyle : Decimal.Style := { nan := "nan", infinity := "inf" }

/-- The short form of a value that is neither an array nor an object. -/
def scalarLiteral : Json → List Char
  | .null => "None".toList
  | .bool true => "True".toList
  | .bool false => "False".toList
  | .int n => (Integer.write n).toList
  | .float x => (literalStyle.write x).toList
  | .str s => Quoted.quoteChars s.toList
  | .arr _ => []
  | .obj _ => []

mutual

/-- The characters of the short form of a value. -/
def literalChars : Json → List Char
  | .arr [] => ['[', ']']
  | .arr (x :: xs) => '[' :: (literalChars x ++ literalItems xs ++ [']'])
  | .obj [] => ['\x7b', '\x7d']
  | .obj ((k, x) :: ms) =>
    '\x7b' :: (Quoted.quoteChars k.toList ++ [':', ' '] ++ literalChars x ++ literalMembers ms ++
      ['\x7d'])
  | v => scalarLiteral v

/-- The items behind the first, each with the comma in front of it. -/
def literalItems : List Json → List Char
  | [] => []
  | x :: xs => ',' :: ' ' :: (literalChars x ++ literalItems xs)

/-- The members behind the first, each with the comma in front of it. -/
def literalMembers : List (String × Json) → List Char
  | [] => []
  | (k, x) :: ms =>
    ',' :: ' ' :: (Quoted.quoteChars k.toList ++ [':', ' '] ++ literalChars x ++ literalMembers ms)

end

/-- The short form of a value. -/
def literal (v : Json) : String := String.ofList (literalChars v)

mutual

/-- Whether every whole number in a value has few enough digits to be written. -/
def isWritable : Json → Bool
  | .int n => Integer.isWritable n
  | .arr xs => areWritable xs
  | .obj ms => membersWritable ms
  | _ => true

/-- Whether all of several values can be written. -/
def areWritable : List Json → Bool
  | [] => true
  | x :: xs => isWritable x && areWritable xs

/-- Whether the values of all of several members can be written. -/
def membersWritable : List (String × Json) → Bool
  | [] => true
  | (_, x) :: ms => isWritable x && membersWritable ms

end

end RandomDerivation.Json
