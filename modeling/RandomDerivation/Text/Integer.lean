/-!
# Whole numbers as text

A whole number is read from an argument generously: blanks around it are dropped, one sign may
stand in front, single underscores may stand between digits, and the decimal digits of every
script count. A limit on the number of digits keeps reading and writing quick.
-/

namespace RandomDerivation.Integer

/-- The zeros of the scripts that have decimal digits, in Unicode 14; the nine other digits of a
script follow its zero. -/
def zeros : List Nat := [
  0x30, 0x660, 0x6f0, 0x7c0, 0x966, 0x9e6, 0xa66, 0xae6, 0xb66, 0xbe6, 0xc66, 0xce6, 0xd66, 0xde6,
  0xe50, 0xed0, 0xf20, 0x1040, 0x1090, 0x17e0, 0x1810, 0x1946, 0x19d0, 0x1a80, 0x1a90, 0x1b50,
  0x1bb0, 0x1c40, 0x1c50, 0xa620, 0xa8d0, 0xa900, 0xa9d0, 0xa9f0, 0xaa50, 0xabf0, 0xff10, 0x104a0,
  0x10d30, 0x11066, 0x110f0, 0x11136, 0x111d0, 0x112f0, 0x11450, 0x114d0, 0x11650, 0x116c0, 0x11730,
  0x118e0, 0x11950, 0x11c50, 0x11d50, 0x11da0, 0x16a60, 0x16ac0, 0x16b50, 0x1d7ce, 0x1d7d8, 0x1d7e2,
  0x1d7ec, 0x1d7f6, 0x1e140, 0x1e2f0, 0x1e950, 0x1fbf0]

/-- The value of a decimal digit of any script. -/
def digitValue? (c : Char) : Option Nat :=
  (zeros.find? fun z => z ≤ c.toNat && c.toNat < z + 10).map (c.toNat - ·)

/-- A blank that may stand around a number: an ASCII one, or a separator of another script. -/
def isBlank (c : Char) : Bool :=
  let n := c.toNat
  n == 0x20 || (0x09 ≤ n && n ≤ 0x0D) || n == 0x85 || n == 0xA0 || n == 0x1680 ||
    (0x2000 ≤ n && n ≤ 0x200A) || n == 0x2028 || n == 0x2029 || n == 0x202F || n == 0x205F ||
    n == 0x3000

/-- Without the blanks at both ends. -/
def trim (s : List Char) : List Char :=
  ((s.dropWhile isBlank).reverse.dropWhile isBlank).reverse

/-- The digits of `s`, with single underscores between them; at least one digit. -/
def digits? : List Char → Option (List Nat)
  | [] => none
  | c :: rest => do
    let d ← digitValue? c
    match rest with
    | [] => return [d]
    | '_' :: rest => return d :: (← digits? rest)
    | rest => return d :: (← digits? rest)

/-- The number with the given digits, the first one leading. -/
def ofDigits (digits : List Nat) : Nat := digits.foldl (fun n d => 10 * n + d) 0

/-- How many digits a number may have that is read or written. -/
def maxDigits : Nat := 4300

/-- The whole number that a text denotes. -/
def read? (s : String) : Option Int := do
  let (negative, body) :=
    match trim s.toList with
    | '-' :: rest => (true, rest)
    | '+' :: rest => (false, rest)
    | body => (false, body)
  let digits ← digits? body
  if maxDigits < digits.length then none
  else
    let n := ofDigits digits
    some (if negative then -(n : Int) else n)

/-- Whether a whole number has no more digits than may be written. -/
def isWritable (n : Int) : Bool := (Nat.toDigits 10 n.natAbs).length ≤ maxDigits

/-- The decimal text of a whole number. -/
def write (n : Int) : String :=
  let digits := String.ofList (Nat.toDigits 10 n.natAbs)
  if n < 0 then "-" ++ digits else digits

end RandomDerivation.Integer
