/-!
# A Mersenne twister

The generator of 32-bit words with 624 words of state. The state is kept as a ring: each draw
renews one word of it from three others and gives the renewed word, tempered. Renewing the words
one at a time gives the same sequence as renewing all of them every 624 draws, since a word is
read by the renewal of a later one either before both are renewed or after the earlier one is.
-/

namespace RandomDerivation

/-- The state of the generator: a ring of words and the place of the one to be renewed next. -/
structure Twister where
  words : Vector UInt32 624
  place : Fin 624

namespace Twister

/-- The number of states, an upper bound for how long a sequence of draws can go on without
coming back to where it was. -/
def stateCount : Nat := 624 * Nat.pow 2 (32 * 624)

/-- The word that takes the place of `current`, from the one behind it and one further on. -/
def renewed (current following distant : UInt32) : UInt32 :=
  let y := (current &&& 0x80000000) ||| (following &&& 0x7FFFFFFF)
  distant ^^^ (y >>> 1) ^^^ (if y &&& 1 = 0 then 0 else 0x9908B0DF)

/-- Spread the bits of a word of the state. -/
def temper (y : UInt32) : UInt32 :=
  let y := y ^^^ (y >>> 11)
  let y := y ^^^ ((y <<< 7) &&& 0x9D2C5680)
  let y := y ^^^ ((y <<< 15) &&& 0xEFC60000)
  y ^^^ (y >>> 18)

/-- The next word, and the state behind it. -/
def next (t : Twister) : UInt32 × Twister :=
  let word := renewed t.words[t.place] t.words[t.place + 1] t.words[t.place + 397]
  (temper word, ⟨t.words.set t.place word, t.place + 1⟩)

/-- A word that depends on every bit of the one before it. -/
def blend (factor before : UInt32) : UInt32 := (before ^^^ (before >>> 30)) * factor

/-- The ring that grows out of a single word. -/
def ofWord (seed : UInt32) : Vector UInt32 624 :=
  (Nat.fold 623 (fun i hi (ring : Vector UInt32 624) =>
    ring.set (i + 1) (blend 1812433253 ring[i] + (i + 1).toUInt32))
    ((Vector.replicate 624 0).set 0 seed))

/-- A ring being stirred, with the place of the word stirred last. Place zero is only ever a copy
of the last place. -/
structure Stirring where
  ring : Vector UInt32 624
  last : Fin 624

/-- Stir the next word: it is combined with what the last one blends into and then changed by
`change`. -/
def Stirring.step (factor : UInt32) (change : UInt32 → Fin 624 → UInt32) (s : Stirring) :
    Stirring :=
  let here := s.last + 1
  let ring := s.ring.set here (change (s.ring[here] ^^^ blend factor s.ring[s.last]) here)
  if here = 623 then ⟨ring.set 0 ring[here], 0⟩ else ⟨ring, here⟩

/-- The state that grows out of several words. -/
def ofWords (key : Array UInt32) : Twister :=
  let start : Stirring := ⟨ofWord 19650218, 0⟩
  let mixed := Nat.fold (max 624 key.size) (fun i _ s =>
    let j := i % key.size
    s.step 1664525 fun word _ => word + key.getD j 0 + j.toUInt32) start
  let settled := Nat.fold 623 (fun _ _ s =>
    s.step 1566083941 fun word here => word - here.val.toUInt32) mixed
  ⟨settled.ring.set 0 0x80000000, 0⟩

/-- The digits of a natural in base 2 to the 32, least first; `fuel` bounds their number. -/
def digits : (fuel : Nat) → Nat → List UInt32
  | 0, _ => []
  | fuel + 1, n => n.toUInt32 :: (if n < 0x100000000 then [] else digits fuel (n / 0x100000000))

/-- The state that belongs to a whole number; the sign does not matter. -/
def ofSeed (seed : Int) : Twister :=
  ofWords (digits (seed.natAbs.log2 / 32 + 1) seed.natAbs).toArray

end Twister

end RandomDerivation
