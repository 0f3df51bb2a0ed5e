import RandomDerivation.Decimal.Shortest

/-!
# Writing a double

The digits of a double are laid out by a record of decisions: from which power of ten to which
the point is written in its place, how wide an exponent is, and how the values without digits are
spelled. The digits themselves are the fewest that read back.
-/

namespace RandomDerivation.Decimal

/-- How doubles are laid out. -/
structure Style where
  /-- The least exponent of the first digit that is written with the point in its place. -/
  positionalFrom : Int := -4
  /-- The least exponent above those that is written with an exponent again. -/
  scientificFrom : Int := 16
  /-- The least number of digits of an exponent. -/
  exponentWidth : Nat := 2
  nan : String
  infinity : String

/-- Digits with the point after the first `whole` of them, zeros filling what is missing on
either side; at least one digit stands on both sides of the point. -/
def positional (digits : List Char) (whole : Int) : List Char :=
  if whole ≤ 0 then '0' :: '.' :: (List.replicate (-whole).toNat '0' ++ digits)
  else
    let w := whole.toNat
    let fraction := digits.drop w
    digits.take w ++ List.replicate (w - digits.length) '0' ++
      '.' :: (if fraction.isEmpty then ['0'] else fraction)

/-- Digits with the point after the first and a power of ten behind an `e`. -/
def scientific (width : Nat) (digits : List Char) (exponent : Int) : List Char :=
  let power := Nat.toDigits 10 exponent.natAbs
  let fraction := digits.drop 1
  digits.take 1 ++ (if fraction.isEmpty then [] else '.' :: fraction) ++
    'e' :: (if exponent < 0 then '-' else '+') ::
      (List.replicate (width - power.length) '0' ++ power)

namespace Style

/-- Lay out `c · 10^e`. -/
def layout (style : Style) (c : Nat) (e : Int) : List Char :=
  let digits := Nat.toDigits 10 c
  let exponent := e + digits.length - 1
  if style.positionalFrom ≤ exponent ∧ exponent < style.scientificFrom then
    positional digits (exponent + 1)
  else scientific style.exponentWidth digits exponent

/-- The text of a double. -/
def write (style : Style) (x : Float) : String :=
  let signed (negative : Bool) (s : String) : String := if negative then "-" ++ s else s
  match partsOf x with
  | .nan => style.nan
  | .infinite negative => signed negative style.infinity
  | .finite negative m q =>
    signed negative (String.ofList
      (if m = 0 then ['0', '.', '0'] else
        let (c, e) := shortest m q
        style.layout c e))

end Style

end RandomDerivation.Decimal
