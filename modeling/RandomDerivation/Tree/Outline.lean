import RandomDerivation.Tree.Basic
import RandomDerivation.Fault

/-!
# Trees as outlines

A tree as indented text: a line for each position, in the order of a walk, indented by its depth.
-/

namespace RandomDerivation.Tree

/-- The kind of the root and, if it has a value other than null, the value on one line. -/
def label (t : Tree) : String :=
  match t.value with
  | .null => t.kind
  | value => t.kind ++ " = " ++ value.literal

/-- The lines of a tree. -/
def lines (indent : String) (t : Tree) : List String :=
  t.walk.map fun (depth, u) => String.join (List.replicate depth indent) ++ u.label

/-- The outline of a tree. -/
def outline (t : Tree) (indent : String := "  ") : String :=
  String.intercalate "\n" (t.lines indent)

/-- Whether the values of all positions can be written. -/
def isWritable (t : Tree) : Bool := t.walk.all fun (_, u) => u.value.isWritable

/-- The outline of a tree, if all its values can be written. -/
def outlineChecked (t : Tree) (indent : String := "  ") : Except Fault String :=
  if t.isWritable then .ok (t.outline indent) else .error .integerUnwritable

end RandomDerivation.Tree
