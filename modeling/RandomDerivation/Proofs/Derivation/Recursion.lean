import RandomDerivation.Proofs.Derivation.Filling
import RandomDerivation.Proofs.Derivation.Levels

/-!
# Derivations as a mutual recursion on names

How derivations are usually explained: a leaf is a new value; a node fills all its slots and then
goes over what fills them, from left to right. A tree stays as it is. A name is expanded again one
level deeper as long as the depth is below the bound, and cut off otherwise.

The machine with its stack of open nodes is this recursion: the same tree or the same fault, and
the same world behind it, whatever the leaf generators do.
-/

namespace RandomDerivation.Grammar
variable {ρ μ : Type} [Produces ρ μ]

/-- A name without anything below it: a node keeps its name only, a leaf gets a new value. -/
def terminateName (g : Grammar ρ) (name : String) : Action μ Tree :=
  if g.nodes.contains name then return .node name .null [] else g.produceLeaf name

/-- A name at the given depth: a node fills its slots and turns what fills them into children, a
leaf gets a new value. -/
def expandName (g : Grammar ρ) (bound : Nat) (depth : Int) (name : String) : Action μ Tree :=
  match g.nodes.find? name with
  | some d => do
    let fillings ← g.resolveAll d.slots
    let children ← fillings.mapM (Filling.complete fun r =>
      if _h : depth < bound then g.expandName bound (depth + 1) r.name else g.terminateName r.name)
    return .node name .null children
  | none => g.produceLeaf name
termination_by (bound - depth).toNat

/-- Derivations below a node only differ when those of some node of the grammar do. -/
theorem growWith_congr {g : Grammar ρ} {child child' : Reference → Action μ Tree}
    (h : ∀ name ∈ g.nodes, child ⟨.node, name⟩ = child' ⟨.node, name⟩) (r : Reference) :
    g.growWith child r = g.growWith child' r := by
  match r with
  | ⟨.leaf, name⟩ => rfl
  | ⟨.node, name⟩ =>
    simp only [growWith]
    cases hd : g.nodes.find? name with
    | none => rfl
    | some d =>
      apply bind_congr_of_ok
      intro w fillings w' hw
      have hchildren : fillings.mapM (Filling.complete child) =
          fillings.mapM (Filling.complete child') := by
        apply mapM_congr
        intro filling hfilling
        cases filling with
        | tree t => rfl
        | pending r =>
          obtain ⟨kind, name⟩ := r
          obtain ⟨rfl, hr⟩ := pending_of_resolveAll hd hw hfilling
          exact h name hr
      rw [hchildren]

/-- A node that is cut off and a node whose name is terminated are the same. -/
theorem cutOff_eq_terminateName {g : Grammar ρ} {name : String} (h : name ∈ g.nodes) :
    g.cutOff ⟨.node, name⟩ = (g.terminateName name : Action μ Tree) := by
  rw [terminateName, if_pos (Table.contains_iff.2 h)]
  rfl

/-- Expanding the name of a node fills its slots and derives its children by name. -/
theorem expandName_eq_growWith {g : Grammar ρ} {name : String} (h : name ∈ g.nodes) (bound : Nat)
    (depth : Int) :
    (g.expandName bound depth name : Action μ Tree) =
      g.growWith (fun r => if depth < bound then g.expandName bound (depth + 1) r.name
        else g.terminateName r.name) ⟨.node, name⟩ := by
  obtain ⟨d, hd⟩ := Table.exists_find?_of_mem h
  rw [expandName]
  simp only [hd, growWith, dite_eq_ite]

/-- Expanding the name of a node is the recursion on the levels below it. -/
theorem grow_eq_expandName (g : Grammar ρ) (bound : Nat) {depth : Int} {levels : Nat}
    (hlevels : levels = (bound - depth).toNat) {name : String} (h : name ∈ g.nodes) :
    g.grow (levels + 1) ⟨.node, name⟩ = (g.expandName bound depth name : Action μ Tree) := by
  induction levels generalizing depth name with
  | zero =>
    have hdepth : ¬ depth < bound := by omega
    rw [expandName_eq_growWith h, grow]
    apply growWith_congr
    intro child hchild
    rw [if_neg hdepth]
    exact cutOff_eq_terminateName hchild
  | succ levels ih =>
    have hdepth : depth < bound := by omega
    rw [expandName_eq_growWith h, grow]
    apply growWith_congr
    intro child hchild
    rw [if_pos hdepth]
    exact ih (by omega) hchild

/-- The machine that expands a name at some depth is the mutual recursion: from every world both
give the same tree or the same fault, and leave the same world behind. -/
theorem expand_eq_expandName (g : Grammar ρ) {name : String}
    (h : name ∈ g.nodes ∨ name ∈ g.leaves) (depth : Int) (bound : Nat) :
    g.expand name depth bound = (g.expandName bound depth name : Action μ Tree) := by
  by_cases hnode : name ∈ g.nodes
  · rw [expand_node_eq_grow g hnode]
    exact grow_eq_expandName g bound rfl hnode
  · have hcontains : ¬ g.nodes.contains name = true := by
      rwa [Table.contains_iff]
    have hfind : g.nodes.find? name = none := by
      simpa [Table.contains] using hcontains
    have hreference : g.reference name none = .ok ⟨.leaf, name⟩ := by
      have hleaf : g.leaves.contains name = true := Table.contains_iff.2 (h.resolve_left hnode)
      rw [reference, if_neg hcontains, if_pos hleaf]
    rw [expand, hreference, expandName, hfind]
    simp only [derive_eq_grow, grow_leaf]

/-- A name at a negative depth, whose children are expanded up to the bound. -/
theorem expand_eq_expandName_negative :
    ("branch" ∈ nested.nodes ∨ "branch" ∈ nested.leaves) ∧
      (nested.expand "branch" (-2) 1 : Action Unit Tree) = nested.expandName 1 (-2) "branch" :=
  ⟨by decide, expand_eq_expandName nested (by decide) (-2) 1⟩

end RandomDerivation.Grammar
