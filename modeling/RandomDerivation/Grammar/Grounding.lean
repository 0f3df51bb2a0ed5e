import RandomDerivation.Grammar.Basic
import RandomDerivation.Log

/-!
# Grounding

A node is grounded if some derivation of it reaches a leaf or a node without slots. The grounded
nodes are found by passing over the table again and again, as long as a pass finds another one.
A grammar may have nodes that are not grounded; building it records each of them.
-/

namespace RandomDerivation
variable {ρ : Type}

mutual

/-- Whether a slot can be filled by a leaf or by a node known to be grounded. Only the slots of
grammars are asked, and no foreign value stands among those. -/
def Slot.isGrounded (grounded : List String) : Slot → Bool
  | .leaf _ => true
  | .node name => grounded.contains name
  | .choice first others => first.isGrounded grounded || Slot.anyGrounded grounded others
  | .foreign _ => false

/-- Whether one of several slots can be filled so. -/
def Slot.anyGrounded (grounded : List String) : List Slot → Bool
  | [] => false
  | s :: rest => s.isGrounded grounded || Slot.anyGrounded grounded rest

end

/-- Whether a node is grounded, given some that are known to be so. -/
def NodeDefinition.isGrounded (grounded : List String) (d : NodeDefinition) : Bool :=
  d.slots.isEmpty || Slot.anyGrounded grounded d.slots

/-- Add the nodes of a table that are seen to be grounded, in order. -/
def groundingPass (entries : List (String × NodeDefinition)) (grounded : List String) :
    List String :=
  entries.foldl (fun known (name, d) =>
    if !known.contains name && d.isGrounded known then name :: known else known) grounded

/-- Pass over the table as long as a pass adds a node, at most `fuel` times. -/
def groundingRounds (entries : List (String × NodeDefinition)) :
    (fuel : Nat) → (grounded : List String) → List String
  | 0, grounded => grounded
  | fuel + 1, grounded =>
    let next := groundingPass entries grounded
    if next.length = grounded.length then grounded else groundingRounds entries fuel next

/-- The names of the grounded nodes. Each pass but the last adds one, so there are no more passes
than nodes and one. -/
def groundedNames (nodes : Table NodeDefinition) : List String :=
  groundingRounds nodes.entries (nodes.size + 1) []

namespace Grammar

/-- The names of the nodes that are not grounded, in order. -/
def ungrounded (g : Grammar ρ) : List String :=
  let grounded := groundedNames g.nodes
  g.nodes.names.filter fun name => !grounded.contains name

/-- The grammar of a root and two tables. Every node that is not grounded is recorded. -/
def ofTables (root : Option String) (nodes : Table NodeDefinition)
    (leaves : Table (LeafGenerator ρ)) : Recorded (Grammar ρ) := do
  let g ← Recorded.ofExcept (check root nodes leaves)
  g.ungrounded.forM fun name => note (.ungrounded name)
  return g

end Grammar

end RandomDerivation
