import Mathlib.Data.List.Forall2
import RandomDerivation.Proofs.Tree.Walk

/-!
# Trees cut at a depth

What is left of a tree without the positions deeper than some depth. A position at this depth
keeps its kind and value and loses its children; all others stay as they are.
-/

namespace RandomDerivation.Tree

/-- The tree without the positions deeper than the given depth. -/
def truncate : (depth : Nat) → Tree → Tree
  | 0, .node kind value _ => .node kind value []
  | depth + 1, .node kind value children => .node kind value (children.map (truncate depth))

@[simp] theorem truncate_zero (kind : String) (value : Json) (children : List Tree) :
    truncate 0 (.node kind value children) = .node kind value [] := rfl

@[simp] theorem truncate_succ (depth : Nat) (kind : String) (value : Json)
    (children : List Tree) :
    truncate (depth + 1) (.node kind value children) =
      .node kind value (children.map (truncate depth)) := rfl

@[simp] theorem truncate_childless (depth : Nat) (kind : String) (value : Json) :
    truncate depth (.node kind value []) = .node kind value [] := by
  cases depth <;> rfl

/-- The positions that are left are those down to the depth, each with what is left below it. -/
theorem walk_truncate (depth : Nat) (t : Tree) :
    (t.truncate depth).walk =
      (t.walk.filter fun p => p.1 ≤ depth).map fun p => (p.1, p.2.truncate (depth - p.1)) := by
  induction depth generalizing t with
  | zero =>
    obtain ⟨kind, value, children⟩ := t
    simp [walk_node, List.filter_flatMap, List.filter_map, Function.comp_def]
  | succ depth ih =>
    obtain ⟨kind, value, children⟩ := t
    simp [walk_node, List.filter_flatMap, List.filter_map, Function.comp_def, List.flatMap_map,
      List.map_flatMap, ih]

/-- The second tree is the first one with more below it. Only childless positions for which
`grows` holds, with their depths, get children; all others keep those that they have. -/
inductive Extends (grows : Nat → Tree → Prop) : Nat → Tree → Tree → Prop where
  | grown {depth : Nat} {kind : String} {value : Json} {children : List Tree} :
    grows depth (.node kind value []) →
      Extends grows depth (.node kind value []) (.node kind value children)
  | kept {depth : Nat} {kind : String} {value : Json} {children children' : List Tree} :
    children.length = children'.length →
      (∀ p ∈ children.zip children', Extends grows (depth + 1) p.1 p.2) →
      Extends grows depth (.node kind value children) (.node kind value children')

theorem Extends.of_forall₂ {grows : Nat → Tree → Prop} {depth : Nat} {kind : String}
    {value : Json} {children children' : List Tree}
    (h : List.Forall₂ (Extends grows (depth + 1)) children children') :
    Extends grows depth (.node kind value children) (.node kind value children') := by
  obtain ⟨hlength, hzip⟩ := List.forall₂_iff_zip.1 h
  exact .kept hlength fun p hp => hzip hp

end RandomDerivation.Tree
