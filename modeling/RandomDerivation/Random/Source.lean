import RandomDerivation.Random.Twister
import RandomDerivation.Fault

/-!
# Random sources

A source gives words of 32 bits: those of a Mersenne twister, or those of a list until it ends.
It also keeps the second of two normal values that are made at a time.
-/

namespace RandomDerivation

/-- Where the words of a source come from. -/
inductive Words where
  | seeded (twister : Twister)
  | listed (left : List UInt32)

/-- The state of a random source. -/
structure Source where
  words : Words
  /-- A normal value made together with one that was given out. -/
  spare : Option Float := none

/-- A computation that draws from a random source and may fail. What was drawn before a fault
stays drawn. -/
abbrev Draw (α : Type) := EStateM Fault Source α

namespace Source

/-- The source that belongs to a whole number. -/
def ofSeed (seed : Int) : Source := { words := .seeded (.ofSeed seed) }

/-- The source that gives the words of a list. -/
def ofList (words : List UInt32) : Source := { words := .listed words }

/-- The next word. -/
def word : Draw UInt32 := fun s =>
  match s.words with
  | .seeded twister =>
    let (w, twister) := twister.next
    .ok w { s with words := .seeded twister }
  | .listed [] => .error .exhausted s
  | .listed (w :: left) => .ok w { s with words := .listed left }

/-- How many words can be drawn before the source ends or is back at an earlier state. -/
def reach (s : Source) : Nat :=
  match s.words with
  | .seeded _ => Twister.stateCount
  | .listed left => left.length

/-- What can be seen of a source without drawing from it. -/
inductive Outlook where
  | next (word : UInt32)
  | left (count : Nat)

/-- Where a source stands. -/
def outlook (s : Source) : Outlook :=
  match s.words with
  | .seeded twister => .next twister.next.1
  | .listed left => .left left.length

@[simp] theorem word_listed_nil (spare : Option Float) :
    word ⟨.listed [], spare⟩ = .error .exhausted ⟨.listed [], spare⟩ := rfl

end Source

end RandomDerivation
