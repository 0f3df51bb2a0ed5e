import RandomDerivation.Tree.Basic

/-!
# Walks of trees

The walk of a tree goes over its root and then over the walks of its children, one after the
other and one level deeper. The stack of the walk holds what is still to be visited: the walk of
two stacks on top of each other is the walk of the upper one followed by that of the lower one.
-/

namespace RandomDerivation.Tree

/-- What lies deeper on the stack is visited later. -/
theorem walkFrom_append (upper lower : List (Nat × Tree)) :
    walkFrom (upper ++ lower) = walkFrom upper ++ walkFrom lower := by
  induction upper using walkFrom.induct with
  | case1 => simp [walkFrom]
  | case2 depth t stack ih =>
    rw [List.cons_append, walkFrom, walkFrom, List.cons_append, ← ih, List.append_assoc]

/-- The depths of a walk are counted from those on the stack. -/
theorem walkFrom_map_add (k : Nat) (stack : List (Nat × Tree)) :
    walkFrom (stack.map fun p => (p.1 + k, p.2)) =
      (walkFrom stack).map fun p => (p.1 + k, p.2) := by
  induction stack using walkFrom.induct with
  | case1 => simp [walkFrom]
  | case2 depth t stack ih =>
    rw [List.map_cons, walkFrom, walkFrom, List.map_cons, ← ih, List.map_append, List.map_map]
    simp only [Function.comp_def, Nat.add_right_comm]

/-- The trees on a stack are walked one after the other. -/
theorem walkFrom_map (depth : Nat) (ts : List Tree) :
    walkFrom (ts.map fun t => (depth, t)) =
      ts.flatMap fun t => t.walk.map fun p => (p.1 + depth, p.2) := by
  induction ts with
  | nil => simp [walkFrom]
  | cons t ts ih =>
    have hsplit : (t :: ts).map (fun t => (depth, t)) =
        [(0, t)].map (fun p => (p.1 + depth, p.2)) ++ ts.map fun t => (depth, t) := by
      simp
    rw [hsplit, walkFrom_append, walkFrom_map_add, ih, List.flatMap_cons, walk]

/-- A walk starts at the root and goes on with the walks of the children, one level deeper. -/
theorem walk_node (kind : String) (value : Json) (children : List Tree) :
    (node kind value children).walk =
      (0, node kind value children) ::
        children.flatMap fun t => t.walk.map fun p => (p.1 + 1, p.2) := by
  rw [walk, walkFrom, children_node, List.append_nil, ← walkFrom_map]

theorem mem_walk_node {kind : String} {value : Json} {children : List Tree} {p : Nat × Tree} :
    p ∈ (node kind value children).walk ↔
      p = (0, node kind value children) ∨
        ∃ t ∈ children, ∃ q ∈ t.walk, p = (q.1 + 1, q.2) := by
  rw [walk_node, List.mem_cons, List.mem_flatMap]
  simp only [List.mem_map, eq_comm (b := p)]

@[simp] theorem root_mem_walk (t : Tree) : (0, t) ∈ t.walk := by
  obtain ⟨kind, value, children⟩ := t
  exact mem_walk_node.2 (.inl rfl)

end RandomDerivation.Tree
