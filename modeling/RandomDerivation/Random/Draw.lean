import RandomDerivation.Random.Source

/-!
# Draws

What is drawn from the words of a source: bits, numbers below a bound, whole numbers of a range,
reals of the unit interval and of others, and normal values.
-/

namespace RandomDerivation.Draw

/-- A number of `k` bits. The first bits of one word serve up to 32 of them; more take whole
words, the least significant first. -/
def bits (k : Nat) : Draw Nat :=
  if k = 0 then pure 0
  else if k ≤ 32 then return (← Source.word).toNat >>> (32 - k)
  else do
    let low ← Source.word
    let high ← bits (k - 32)
    return high <<< 32 ||| low.toNat
termination_by k

/-- How many bits a number needs. -/
def bitLength (n : Nat) : Nat := if n = 0 then 0 else n.log2 + 1

/-- Draw `k` bits until they make a number below `n`, at most `fuel` times. -/
def attempts (n k : Nat) : (fuel : Nat) → Draw (Fin n)
  | 0 => throw .exhausted
  | fuel + 1 => do
    let r ← bits k
    if h : r < n then pure ⟨r, h⟩ else attempts n k fuel

/-- A number below `n`, every one with the same share: as many bits as `n` has are drawn until
they make one. Each attempt takes a word, so a source that has not given an answer when its reach
is spent will never give one. -/
def below (n : Nat) : Draw (Fin n) := fun s => attempts n (bitLength n) s.reach s

/-- A whole number from `low` to `high`. -/
def range (low high : Int) : Draw Int :=
  return low + ((← below (high - low + 1).toNat).val : Int)

/-- One of the elements of a list. -/
def member {α : Type} (first : α) (others : List α) : Draw α :=
  return (first :: others).get (← below (others.length + 1))

/-- A numerator over `2^53`: 27 bits of one word and 26 of the next. -/
def unitNumerator : Draw Nat := do
  let a ← Source.word
  let b ← Source.word
  return (a >>> 5).toNat * 67108864 + (b >>> 6).toNat

/-- The double that is a numerator over `2^53`. -/
def unitOf (k : Nat) : Float := k.toUInt64.toFloat / 9007199254740992.0

/-- A real of the unit interval, one excluded. -/
def unit : Draw Float := return unitOf (← unitNumerator)

/-- A real between `low` and `high`. -/
def uniform (low high : Float) : Draw Float := return low + (high - low) * (← unit)

/-- Half the circumference of the unit circle, as a double. -/
def pi : Float := 3.141592653589793

/-- The radius that belongs to a positive real of the unit interval. -/
def radius (x : Float) : Float := Float.sqrt (-2.0 * Float.log x)

/-- Two standard normal values from an angle and a radius. One is given out, and the other one is
kept in the source for the next call. -/
def normalPair : Draw Float := do
  let angle := (← unit) * (2.0 * pi)
  let radius := radius (1.0 - (← unit))
  modify fun s => { s with spare := some (Float.sin angle * radius) }
  return Float.cos angle * radius

/-- A standard normal value: the one that is kept in the source, or one of two new ones. -/
def normal : Draw Float := do
  let s ← get
  match s.spare with
  | some z =>
    set { s with spare := none }
    return z
  | none => normalPair

/-- A normal value with the given mean and deviation. -/
def gauss (mu sigma : Float) : Draw Float := return mu + (← normal) * sigma

end RandomDerivation.Draw
