import RandomDerivation.Random.Draw

/-!
# Leaf values

A producer makes the values of a leaf from a random source; it is one of five kinds that a
configuration can describe. More generally a leaf generator may keep a memory of its own between
its calls, and may fail.
-/

namespace RandomDerivation

/-- A way to make the values of a leaf from a random source. -/
inductive Producer where
  /-- Always the same value. -/
  | const (value : Json)
  /-- A real between two others. -/
  | uniform (low high : Float)
  /-- A whole number between two others, both included. -/
  | randint (low high : Int) (low_le_high : low ≤ high)
  /-- One of several values, each with the same share. -/
  | choice (first : Json) (others : List Json)
  /-- A normal value. -/
  | gauss (mu sigma : Float)

/-- Make one value. -/
def Producer.draw : Producer → Draw Json
  | .const value => pure value
  | .uniform low high => return .float (← Draw.uniform low high)
  | .randint low high _ => return .int (← Draw.range low high)
  | .choice first others => Draw.member first others
  | .gauss mu sigma => return .float (← Draw.gauss mu sigma)

/-- What leaf generators work on: the random source, and the memory that they share. -/
structure World (μ : Type) where
  source : Source
  memory : μ

/-- A computation that draws, keeps a memory and may fail. What it did before a fault stays
done. -/
abbrev Action (μ α : Type) := EStateM Fault (World μ) α

/-- Draw from the source of the world. -/
def draw {μ α : Type} (d : Draw α) : Action μ α := fun w =>
  match d w.source with
  | .ok a s => .ok a { w with source := s }
  | .error f s => .error f { w with source := s }

/-- A type of leaf generators that share a memory of type `μ`. -/
class Produces (ρ : Type) (μ : outParam Type) where
  /-- Make one value. -/
  produce : ρ → Action μ Json

instance : Produces Producer Unit := ⟨fun p => draw p.draw⟩

/-- Any action can serve as a leaf generator. -/
instance {μ : Type} : Produces (Action μ Json) μ := ⟨id⟩

end RandomDerivation
