import RandomDerivation.Table
import RandomDerivation.Fault

/-!
# Grammars

A grammar has a root, a table of nodes and a table of leaves. Node names and leaf names do not
interfere. Every grammar is checked: its root and every reference in the slots of its nodes, at
any depth of nested choices, are defined, and no foreign value stands among the slots.

## Main definitions

* `NodeDefinition`, `LeafGenerator`: the entries of the two tables.
* `checkReferences`: the first bad reference of two tables.
* `Grammar`: checked grammars.
* `Grammar.check`: the grammar of two tables.
-/

namespace RandomDerivation
variable {ρ : Type}

/-- A node with its slots. The name is for messages; what counts in derivations is the name under
which a table holds the definition. -/
structure NodeDefinition where
  name : String
  slots : List Slot

namespace NodeDefinition

/-- What the slots are made of, from left to right. -/
def items (d : NodeDefinition) : List Slot.Item := Slot.itemsOfAll d.slots

/-- The references of the slots, up to the first foreign value. -/
def references (d : NodeDefinition) : List Reference := (Slot.split d.items).1

end NodeDefinition

/-- A leaf with what makes its values. -/
structure LeafGenerator (ρ : Type) where
  name : String
  generator : ρ

/-- Whether a reference is defined. -/
def isDefined (nodes : Table NodeDefinition) (leaves : Table (LeafGenerator ρ)) (r : Reference) :
    Bool :=
  match r.kind with
  | .node => nodes.contains r.name
  | .leaf => leaves.contains r.name

/-- A reference has to be defined, and nothing foreign may stand among the slots of `site`. -/
def checkItem (nodes : Table NodeDefinition) (leaves : Table (LeafGenerator ρ)) (site : String) :
    Slot.Item → Except Fault Unit
  | .reference r =>
    if isDefined nodes leaves r then .ok () else .error (.grammar (.unresolved r (.node site)))
  | .foreign value => .error (.notSlot value)

/-- The root has to be a node or a leaf, and everything found in the slots of the nodes, in
order, has to be a defined reference. The first fault counts. -/
def checkReferences (root : String) (nodes : Table NodeDefinition)
    (leaves : Table (LeafGenerator ρ)) : Except Fault Unit := do
  if !nodes.contains root && !leaves.contains root then
    throw (.grammar (.unresolved ⟨.node, root⟩ .root))
  nodes.values.forM fun d => d.items.forM (checkItem nodes leaves d.name)

/-- A checked grammar. -/
structure Grammar (ρ : Type) where
  root : String
  nodes : Table NodeDefinition
  leaves : Table (LeafGenerator ρ)
  checked : checkReferences root nodes leaves = .ok ()

namespace Grammar

/-- The grammar of a root and two tables, if its references are defined. -/
def check (root : Option String) (nodes : Table NodeDefinition)
    (leaves : Table (LeafGenerator ρ)) : Except Fault (Grammar ρ) :=
  match root with
  | none => .error (.grammar .rootNotSet)
  | some root =>
    match h : checkReferences root nodes leaves with
    | .ok () => .ok ⟨root, nodes, leaves, h⟩
    | .error f => .error f

/-- The check of a grammar once more, which gives the grammar itself. -/
def recheck (g : Grammar ρ) : Except Fault (Grammar ρ) := check (some g.root) g.nodes g.leaves

theorem recheck_eq (g : Grammar ρ) : g.recheck = .ok g := by
  simp only [recheck, check]
  split
  · rfl
  · rename_i f h
    rw [g.checked] at h
    cases h

/-- What the root is: a node if a node has its name, otherwise a leaf. -/
def rootKind (g : Grammar ρ) : Kind := if g.nodes.contains g.root then .node else .leaf

/-- The reference that derivations of the grammar start from. -/
def start (g : Grammar ρ) : Reference := ⟨g.rootKind, g.root⟩

end Grammar

end RandomDerivation
