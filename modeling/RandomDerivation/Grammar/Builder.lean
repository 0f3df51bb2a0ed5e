import RandomDerivation.Grammar.Grounding

/-!
# Building a grammar

A builder collects nodes, leaves and a root, in any order. A name is registered once as a node
and once as a leaf; the root is set once. References are only checked when the grammar is built,
so a node may refer to one that is registered later.
-/

namespace RandomDerivation

/-- What has been registered so far. -/
structure Builder (ρ : Type) where
  root : Option String := none
  nodes : Table NodeDefinition := .empty
  leaves : Table (LeafGenerator ρ) := .empty

namespace Builder
variable {ρ : Type}

/-- Register a node. Its slots are only looked at when the name is free; when they turn out to be
faulty the name stays free. -/
def registerNode (b : Builder ρ) (name : String) (slots : Except Fault (List Slot)) :
    Recorded (Builder ρ) := do
  if b.nodes.contains name then throw (.grammar (.duplicate .node name))
  let slots ← Recorded.ofExcept slots
  note (.registeredNode name slots.length)
  return { b with nodes := b.nodes.insert name ⟨name, slots⟩ }

/-- Register a leaf. -/
def registerLeaf (b : Builder ρ) (name : String) (generator : ρ) : Recorded (Builder ρ) := do
  if b.leaves.contains name then throw (.grammar (.duplicate .leaf name))
  note (.registeredLeaf name)
  return { b with leaves := b.leaves.insert name ⟨name, generator⟩ }

/-- Set the root, unless it is set. Setting it to nothing leaves it unset. -/
def setRoot (b : Builder ρ) (root : Option String) : Recorded (Builder ρ) :=
  match b.root with
  | some known => throw (.grammar (.rootAlreadySet known))
  | none => return { b with root }

/-- The grammar of what has been registered. -/
def build (b : Builder ρ) : Recorded (Grammar ρ) := Grammar.ofTables b.root b.nodes b.leaves

end Builder

end RandomDerivation
