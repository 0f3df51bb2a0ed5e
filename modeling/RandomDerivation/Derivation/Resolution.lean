import RandomDerivation.Grammar.Basic
import RandomDerivation.Tree.Basic
import RandomDerivation.Producer

/-!
# Filling a slot

A leaf slot is filled at once by a new value. A node slot stays a reference, since it depends on
the depth whether the node is expanded or cut off. A choice draws one of its alternatives, which
may be a choice again.
-/

namespace RandomDerivation
variable {ρ μ : Type} [Produces ρ μ]

/-- What a slot is filled by. -/
inductive Filling where
  | tree (tree : Tree)
  /-- A reference that is still to be derived. -/
  | pending (reference : Reference)

namespace Grammar

/-- A new value of a leaf, as a tree. -/
def produceLeaf (g : Grammar ρ) (name : String) : Action μ Tree :=
  match g.leaves.find? name with
  | none => throw (.undefined name)
  | some leaf => return .node name (← Produces.produce leaf.generator) []

/-- Fill one slot. Each choice on the way draws once. -/
def resolve (g : Grammar ρ) (s : Slot) : Action μ Filling :=
  match s with
  | .leaf name => return .tree (← g.produceLeaf name)
  | .node name => return .pending ⟨.node, name⟩
  | .choice first others => do
    let i ← draw (Draw.below (others.length + 1))
    g.resolve ((first :: others).get i)
  | .foreign value => throw (.notSlot value)
termination_by s
decreasing_by
  have := List.sizeOf_get (first :: others) i
  simp only [List.cons.sizeOf_spec] at this
  simp only [Slot.choice.sizeOf_spec]
  omega

/-- Fill the slots of a node, all of them before any child is derived. -/
def resolveAll (g : Grammar ρ) : List Slot → Action μ (List Filling)
  | [] => return []
  | s :: rest => do
    let filling ← g.resolve s
    return filling :: (← g.resolveAll rest)

/-- There is one filling for each slot. -/
theorem length_of_resolveAll {g : Grammar ρ} {slots : List Slot} {w w' : World μ}
    {fillings : List Filling} (h : g.resolveAll slots w = .ok fillings w') :
    fillings.length = slots.length := by
  induction slots generalizing w w' fillings with
  | nil =>
    simp only [resolveAll, pure, EStateM.pure, EStateM.Result.ok.injEq] at h
    simp [← h.1]
  | cons s rest ih =>
    simp only [resolveAll, bind, EStateM.bind] at h
    split at h
    · split at h
      · rename_i heq
        simp only [pure, EStateM.pure, EStateM.Result.ok.injEq] at h
        simp [← h.1, ih heq]
      · cases h
    · cases h

end Grammar

end RandomDerivation
