import RandomDerivation.Producer

/-!
# Generators with counters

Leaf generators beyond those of configurations: one that counts its calls, one for bits, one for
reals of the unit interval and one that always gives up. Counters live in a memory that all
generators share, so that they go on counting from one derivation to the next.
-/

namespace RandomDerivation

/-- The values of the counters, by number. -/
abbrev Counters := List Int

/-- A way to make the values of a leaf. -/
inductive Generator where
  /-- As a configuration describes it. -/
  | producer (producer : Producer)
  /-- The value of a counter, which goes up by one. -/
  | counter (index : Nat)
  /-- A real of the unit interval. -/
  | unit
  /-- A number of the given number of bits. -/
  | bits (count : Int)
  /-- No value, but a fault. -/
  | failing (message : String)

namespace Generator

/-- The value of a counter, which goes up by one. -/
def count (index : Nat) : Action Counters Json := fun w =>
  let n := w.memory.getD index 0
  .ok (.int n) { w with memory := w.memory.set index (n + 1) }

/-- Make one value. -/
def produce : Generator → Action Counters Json
  | .producer p => draw p.draw
  | .counter index => count index
  | .unit => return .float (← draw Draw.unit)
  | .bits k => do
    if k < 0 then throw .negativeBits
    return .int ((← draw (Draw.bits k.toNat)) : Nat)
  | .failing message => throw (.raised message)

instance : Produces Generator Counters := ⟨produce⟩

end Generator

/-- A generator with a new counter that starts at the given value. -/
def Counters.fresh (start : Int) (counters : Counters) : Generator × Counters :=
  (.counter counters.length, counters ++ [start])

end RandomDerivation
