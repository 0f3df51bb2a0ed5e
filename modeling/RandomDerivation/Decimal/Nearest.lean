/-!
# Rounding to double precision

A double is taken apart into a sign, a whole mantissa and a power of two, and a quotient of two
naturals is rounded to the nearest double, a half going to the even neighbour. All arithmetic is
exact: nothing here computes with floating point.
-/

namespace RandomDerivation.Decimal

/-- A double read off its bits: a finite one is `mantissa · 2^exponent` up to its sign. -/
inductive Parts where
  | nan
  | infinite (negative : Bool)
  | finite (negative : Bool) (mantissa : Nat) (exponent : Int)
  deriving DecidableEq, Repr

/-- The least exponent of a finite double, shared by all subnormal ones. -/
def leastExponent : Int := -1074

/-- The mantissas of normal doubles lie from this power of two, the 52nd, up to its double. -/
def leadingBit : Nat := 0x10000000000000

/-- The bit of the sign, the 63rd. -/
def signBit : Nat := 0x8000000000000000

/-- The parts that a word of 64 bits encodes. -/
def partsOfBits (bits : Nat) : Parts :=
  let negative := signBit ≤ bits
  let field := bits / leadingBit % 2048
  let fraction := bits % leadingBit
  if field = 2047 then
    if fraction = 0 then .infinite negative else .nan
  else if field = 0 then .finite negative fraction leastExponent
  else .finite negative (leadingBit + fraction) (leastExponent + (field - 1 : Nat))

/-- The parts of a double. -/
def partsOf (x : Float) : Parts := partsOfBits x.toBits.toNat

/-- The whole number nearest to `num / den`, a half going to the even neighbour. -/
def roundHalfEven (num den : Nat) : Nat :=
  let q := num / den
  let twice := 2 * (num % den)
  if twice < den then q
  else if den < twice then q + 1
  else if q % 2 = 0 then q
  else q + 1

/-- The quotient `num / den` divided by `2^e`, as numerator and denominator. -/
def scale (num den : Nat) (e : Int) : Nat × Nat :=
  if 0 ≤ e then (num, den * Nat.pow 2 e.toNat) else (num * Nat.pow 2 (-e).toNat, den)

/-- The largest `e` with `2^e ≤ num / den`, for positive `num` and `den`. -/
def binaryOrder (num den : Nat) : Int :=
  let guess : Int := (num.log2 : Int) - (den.log2 : Int)
  let (n, d) := scale num den guess
  if n < d then guess - 1 else guess

/-- The bits of positive infinity, above those of every finite double. -/
def infinityBits : Nat := 2047 * leadingBit

/-- The bits of the positive double nearest to `num / den`. Consecutive doubles have consecutive
bits, so a mantissa rounded up to the next power of two needs no case of its own, and a result of
at least `infinityBits` is an overflow. -/
def nearestBits (num den : Nat) : Nat :=
  if num = 0 then 0
  else
    let q := max (binaryOrder num den - 52) leastExponent
    let (n, d) := scale num den q
    (q - leastExponent).toNat * leadingBit + roundHalfEven n d

/-- The double of a sign and the bits of its magnitude. -/
def ofMagnitude (negative : Bool) (bits : Nat) : Float :=
  Float.ofBits (UInt64.ofNat (if negative then signBit + bits else bits))

/-- The double nearest to `num / den` with the given sign, infinite when that is too large. -/
def nearest (negative : Bool) (num den : Nat) : Float :=
  ofMagnitude negative (min (nearestBits num den) infinityBits)

/-- The double nearest to a whole number, if it is not too large for one. -/
def ofInt? (n : Int) : Option Float :=
  let bits := nearestBits n.natAbs 1
  if bits < infinityBits then some (ofMagnitude (n < 0) bits) else none

/-- How many decimal digits a natural has. -/
def digitCount (n : Nat) : Nat := (Nat.toDigits 10 n).length

/-- The double nearest to `m · 10^e` with the given sign. A value that is far outside the range
of doubles is settled by its order alone, so that no power of ten grows without need. -/
def ofDecimal (negative : Bool) (m : Nat) (e : Int) : Float :=
  let order := e + digitCount m
  if m = 0 ∨ order < -400 then ofMagnitude negative 0
  else if 400 < order then ofMagnitude negative infinityBits
  else if 0 ≤ e then nearest negative (m * Nat.pow 10 e.toNat) 1
  else nearest negative m (Nat.pow 10 (-e).toNat)

/-- A finite double that is a whole number, as that number. -/
def toInt? (x : Float) : Option Int :=
  match partsOf x with
  | .finite negative m e =>
    let magnitude? : Option Nat :=
      if 0 ≤ e then some (m * Nat.pow 2 e.toNat)
      else if m % Nat.pow 2 (-e).toNat = 0 then some (m / Nat.pow 2 (-e).toNat)
      else none
    magnitude?.map fun k => if negative then -(k : Int) else (k : Int)
  | _ => none

end RandomDerivation.Decimal
