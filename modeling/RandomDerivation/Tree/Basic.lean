import RandomDerivation.Json.Basic

/-!
# Derivation trees

A position of a tree has a kind, the name it was derived from; a value, which only positions of
leaf generators have; and children. A tree is walked with an explicit stack, from the root down
and from left to right, so that deep trees are no harder than wide ones.
-/

namespace RandomDerivation

/-- A derived tree. A position without children is a leaf of the tree even when its kind names a
node of the grammar: a node that is cut off at the depth bound keeps its kind. -/
inductive Tree where
  | node (kind : String) (value : Json) (children : List Tree)

namespace Tree

instance : Inhabited Tree := ⟨.node "" .null []⟩

/-- The name that the root was derived from. -/
def kind : Tree → String
  | .node kind _ _ => kind

/-- The value at the root. -/
def value : Tree → Json
  | .node _ value _ => value

/-- The subtrees below the root, from left to right. -/
def children : Tree → List Tree
  | .node _ _ children => children

@[simp] theorem kind_node (k : String) (v : Json) (cs : List Tree) : (node k v cs).kind = k := rfl
@[simp] theorem value_node (k : String) (v : Json) (cs : List Tree) :
    (node k v cs).value = v := rfl
@[simp] theorem children_node (k : String) (v : Json) (cs : List Tree) :
    (node k v cs).children = cs := rfl

/-- Whether the root has no children. -/
def isLeaf (t : Tree) : Bool := t.children.isEmpty

mutual

/-- How many steps a walk of a tree takes. -/
def weight : Tree → Nat
  | .node _ _ children => weightAll children + 1

/-- How many steps a walk of several trees takes. -/
def weightAll : List Tree → Nat
  | [] => 0
  | t :: rest => t.weight + weightAll rest

end

theorem weightAll_append (xs ys : List Tree) :
    weightAll (xs ++ ys) = weightAll xs + weightAll ys := by
  induction xs with
  | nil => simp [weightAll]
  | cons x xs ih => simp only [List.cons_append, weightAll, ih]; omega

/-- The positions of the trees on a stack, each with its depth, one tree after the other. -/
def walkFrom : (stack : List (Nat × Tree)) → List (Nat × Tree)
  | [] => []
  | (depth, t) :: stack =>
    (depth, t) :: walkFrom (t.children.map (fun c => (depth + 1, c)) ++ stack)
termination_by stack => weightAll (stack.map Prod.snd)
decreasing_by
  obtain ⟨k, v, cs⟩ := t
  simp only [children_node, List.map_append, List.map_map, Function.comp_def, List.map_id',
    weightAll_append, List.map_cons, weightAll, weight]
  omega

/-- The positions of a tree in order, each with its depth and the subtree that starts there. -/
def walk (t : Tree) : List (Nat × Tree) := walkFrom [(0, t)]

/-- How many positions a tree has. -/
def size (t : Tree) : Nat := t.walk.length

/-- How far the deepest position lies below the root. -/
def height (t : Tree) : Nat := t.walk.foldl (fun deepest p => max deepest p.1) 0

theorem foldl_max_le_iff {α : Type} (f : α → Nat) (xs : List α) (start n : Nat) :
    xs.foldl (fun greatest x => max greatest (f x)) start ≤ n ↔ start ≤ n ∧ ∀ x ∈ xs, f x ≤ n := by
  induction xs generalizing start with
  | nil => simp
  | cons x xs ih =>
    rw [List.foldl_cons, ih]
    simp only [List.mem_cons, forall_eq_or_imp, Nat.max_le, and_assoc]

/-- The height is the greatest depth of a position. -/
theorem height_le_iff {t : Tree} {n : Nat} : t.height ≤ n ↔ ∀ p ∈ t.walk, p.1 ≤ n := by
  rw [height, foldl_max_le_iff]
  simp

/-- Equality of trees, values being compared as numbers. -/
def same : Tree → Tree → Bool
  | .node k v cs, .node k' v' cs' => k == k' && v.same v' && sameAll cs cs'
where
  /-- Equality of two lists of trees. -/
  sameAll : List Tree → List Tree → Bool
    | [], [] => true
    | t :: ts, u :: us => same t u && sameAll ts us
    | _, _ => false

end Tree

end RandomDerivation
