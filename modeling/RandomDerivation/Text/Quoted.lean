import RandomDerivation.Text.Printable

/-!
# Quoted text

A string between single quotes, or between double quotes when it holds a single quote and no
double one. The quote in use and the backslash get a backslash, the three common blanks have a
letter, and every other character that is not printable is written in hexadecimal, with as many
digits as its code point needs: two, four or eight.
-/

namespace RandomDerivation.Quoted

/-- The lower case hexadecimal digits of `n`, zeros in front up to `width`. -/
def hex (width n : Nat) : List Char :=
  let digits := Nat.toDigits 16 n
  List.replicate (width - digits.length) '0' ++ digits

/-- The hexadecimal form of a character. -/
def escapeCode (c : Char) : List Char :=
  let n := c.toNat
  if n < 0x100 then '\\' :: 'x' :: hex 2 n
  else if n < 0x10000 then '\\' :: 'u' :: hex 4 n
  else '\\' :: 'U' :: hex 8 n

/-- How a character is written between quotes of the given kind. -/
def escape (mark c : Char) : List Char :=
  if c = mark ∨ c = '\\' then ['\\', c]
  else if c = '\n' then ['\\', 'n']
  else if c = '\r' then ['\\', 'r']
  else if c = '\t' then ['\\', 't']
  else if Printable.isPrintable c then [c]
  else escapeCode c

/-- The kind of quotes around a text. -/
def markOf (s : List Char) : Char := if '\'' ∈ s ∧ '"' ∉ s then '"' else '\''

/-- The characters of the quoted text. -/
def quoteChars (s : List Char) : List Char :=
  let mark := markOf s
  mark :: (s.flatMap (escape mark) ++ [mark])

/-- The quoted text of a string. -/
def quote (s : String) : String := String.ofList (quoteChars s.toList)

end RandomDerivation.Quoted
