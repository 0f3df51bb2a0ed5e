import RandomDerivation.Decimal.Nearest

/-!
# The fewest digits that read back

A positive double is the nearest one to every real of an interval around it. `shortest` finds the
decimal with the fewest digits in that interval and, among those, the one nearest to the double
itself. It tries one, two, … digits; on the grid of a given number of digits the only candidates
are the two neighbours of the value.
-/

namespace RandomDerivation.Decimal

/-- The reals from `low · 2^exponent` to `high · 2^exponent` round to `value · 2^exponent`; the
two ends do so when `closed` holds. -/
structure Interval where
  low : Nat
  value : Nat
  high : Nat
  exponent : Int
  closed : Bool

/-- The interval of `m · 2^e`. Below a power of two the doubles lie twice as close, except at the
least exponent; ties round to even mantissas. -/
def Interval.around (m : Nat) (e : Int) : Interval where
  low := if m = leadingBit ∧ e ≠ leastExponent then 4 * m - 1 else 4 * m - 2
  value := 4 * m
  high := 4 * m + 2
  exponent := e - 2
  closed := m % 2 = 0

/-- The exponent of the first decimal digit of `num / den`, for positive `num` and `den`. -/
def decimalOrder (num den : Nat) : Int :=
  if den ≤ num then (digitCount (num / den) : Int) - 1
  else
    let d := digitCount (den / num)
    if den = num * Nat.pow 10 (d - 1) then -((d - 1 : Nat) : Int) else -(d : Int)

/-- Choose among the two neighbours of `num / den` on the grid of multiples of `10^e`: one that
the interval `low / den` to `high / den` holds, of two the nearer, of two equally near the even. -/
def chooseOnGrid (low num high den : Nat) (closed : Bool) (e : Int) : Option Nat :=
  let (up, down) : Nat × Nat :=
    if 0 ≤ e then (1, Nat.pow 10 e.toNat) else (Nat.pow 10 (-e).toNat, 1)
  let inside (c : Nat) : Bool :=
    let v := c * down * den
    if closed then low * up ≤ v && v ≤ high * up else low * up < v && v < high * up
  let below := num * up / (den * down)
  let above := below + 1
  match inside below, inside above with
  | true, false => some below
  | false, true => some above
  | false, false => none
  | true, true =>
    let toBelow := num * up - below * down * den
    let toAbove := above * down * den - num * up
    if toBelow < toAbove then some below
    else if toAbove < toBelow then some above
    else if below % 2 = 0 then some below
    else some above

/-- Try `count`, `count + 1`, … digits, `fuel` times in all. -/
def chooseDigits (low num high den : Nat) (closed : Bool) (order : Int) :
    (fuel : Nat) → (count : Nat) → Nat × Int
  | 0, _ => (num / den, 0)
  | fuel + 1, count =>
    let e := order + 1 - count
    match chooseOnGrid low num high den closed e with
    | some c => (c, e)
    | none => chooseDigits low num high den closed order fuel (count + 1)

/-- Drop the last digits of `c` that are zeros, raising the power of ten instead. -/
def dropZeros : (fuel : Nat) → Nat → Int → Nat × Int
  | 0, c, e => (c, e)
  | fuel + 1, c, e => if c % 10 = 0 ∧ c ≠ 0 then dropZeros fuel (c / 10) (e + 1) else (c, e)

/-- Digits `c` and power `e` such that `c · 10^e` reads back as `m · 2^q` and no decimal with
fewer digits does, for a positive `m`. Seventeen digits always suffice. -/
def shortest (m : Nat) (q : Int) : Nat × Int :=
  let i := Interval.around m q
  let (lift, den) : Nat × Nat :=
    if 0 ≤ i.exponent then (Nat.pow 2 i.exponent.toNat, 1) else (1, Nat.pow 2 (-i.exponent).toNat)
  let num := i.value * lift
  let (c, e) := chooseDigits (i.low * lift) num (i.high * lift) den i.closed
    (decimalOrder num den) 17 1
  dropZeros 17 c e

end RandomDerivation.Decimal
