import RandomDerivation.Proofs.Tree.Walk

/-!
# Trees family by family

The positions of a tree, the root first and then the children of one position after those of
another. The parents come in the order of a walk, but all children of a parent come before the
children of the first of them. Every position is listed once, as in a walk.
-/

namespace RandomDerivation.Tree

/-- The positions below the root: the children of each position, in the order of a walk. -/
def descendants (t : Tree) : List Tree := t.walk.flatMap fun p => p.2.children

/-- The positions family by family: the root, and then the children of each position. -/
def families (t : Tree) : List Tree := t :: t.descendants

/-- How many positions have the given kind. -/
def occurrences (kind : String) (t : Tree) : Nat := t.walk.countP fun p => p.2.kind == kind

/-- The first family are the children of the root. The others are those below the first child,
then those below the next one. -/
theorem descendants_node (kind : String) (value : Json) (children : List Tree) :
    (node kind value children).descendants = children ++ children.flatMap descendants := by
  have hlater : children.flatMap (fun t => (t.walk.map fun p => (p.1 + 1, p.2)).flatMap
      fun p => p.2.children) = children.flatMap descendants := by
    simp only [List.flatMap_map]
    rfl
  rw [descendants, walk_node, List.flatMap_cons, List.flatMap_assoc, hlater, children_node]

@[simp] theorem descendants_childless (kind : String) (value : Json) :
    (node kind value []).descendants = [] := descendants_node kind value []

/-- What a walk visits is what was on the stack, and the children of what it visits. -/
theorem walkFrom_perm (stack : List (Nat × Tree)) :
    ((walkFrom stack).map Prod.snd).Perm
      (stack.map Prod.snd ++ (walkFrom stack).flatMap fun p => p.2.children) := by
  induction stack using walkFrom.induct with
  | case1 => simp [walkFrom]
  | case2 depth t stack ih =>
    have hchildren : (t.children.map fun c => (depth + 1, c)).map Prod.snd = t.children := by
      simp [Function.comp_def]
    rw [List.map_append, hchildren, List.append_assoc] at ih
    rw [walkFrom, List.map_cons, List.flatMap_cons, List.map_cons, List.cons_append]
    exact (ih.trans (List.perm_append_comm_assoc _ _ _)).cons t

/-- The families are made of the positions of the walk, each of them once. -/
theorem families_perm (t : Tree) : t.families.Perm (t.walk.map Prod.snd) :=
  (walkFrom_perm [(0, t)]).symm

theorem countP_families (kind : String) (t : Tree) :
    t.families.countP (fun u => u.kind == kind) = t.occurrences kind := by
  rw [t.families_perm.countP_eq, List.countP_map]
  rfl

end RandomDerivation.Tree
