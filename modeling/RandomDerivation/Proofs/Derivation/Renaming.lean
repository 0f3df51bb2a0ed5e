import RandomDerivation.Proofs.Action
import RandomDerivation.Proofs.Derivation.Filling
import RandomDerivation.Proofs.Derivation.Levels
import RandomDerivation.Proofs.Grammar.Renaming

/-!
# Derivations under other names

A grammar under new names derives the renamed trees of the grammar, out of the same draws and the
same leaf values: every position takes the new name of the node or of the leaf that was derived
there. A tree does not say which of the two it was, when a node and a leaf share a name. So the
recursion on levels is made to keep it, as a derivation, and the tree is read off.

## Main definitions

* `Derivation`: trees whose positions are told apart as nodes and leaves.
* `Derivation.tree`, `Derivation.rename`: the tree of a derivation, and new names in it.
* `Grammar.growDerivation`: the derivation of a reference.
-/

namespace RandomDerivation

/-- A tree whose positions are told apart as nodes and leaves of a grammar. -/
inductive Derivation where
  | leaf (name : String) (value : Json)
  | node (name : String) (children : List Derivation)

namespace Derivation

mutual

/-- The tree of a derivation. -/
def tree : Derivation → Tree
  | .leaf name value => .node name value []
  | .node name children => .node name .null (trees children)

/-- The trees of several derivations. -/
def trees : List Derivation → List Tree
  | [] => []
  | D :: rest => D.tree :: trees rest

end

mutual

/-- A derivation whose positions have new names. -/
def rename (σ : Renaming) : Derivation → Derivation
  | .leaf name value => .leaf (σ.leaf name) value
  | .node name children => .node (σ.node name) (renameAll σ children)

/-- Derivations whose positions have new names. -/
def renameAll (σ : Renaming) : List Derivation → List Derivation
  | [] => []
  | D :: rest => D.rename σ :: renameAll σ rest

end

theorem trees_renameAll (σ : Renaming) (Ds : List Derivation) :
    trees (renameAll σ Ds) = Ds.map fun D => (D.rename σ).tree := by
  induction Ds with
  | nil => rfl
  | cons D rest ih => rw [renameAll, trees, ih, List.map_cons]

mutual

theorem rename_id : (D : Derivation) → D.rename .id = D
  | .leaf name value => rfl
  | .node name children => by
    rw [rename, renameAll_id children]
    rfl

theorem renameAll_id : (Ds : List Derivation) → renameAll .id Ds = Ds
  | [] => rfl
  | D :: rest => by rw [renameAll, rename_id D, renameAll_id rest]

end

end Derivation

variable {ρ μ : Type} [Produces ρ μ]

/-- The derivation of a filling, pending references being derived by `child`. A tree that fills a
slot is that of a leaf. -/
def Filling.derivation (child : Reference → Action μ Derivation) : Filling → Action μ Derivation
  | .tree t => pure (.leaf t.kind t.value)
  | .pending r => child r

/-- A filling whose tree or reference has a new name. -/
def Filling.rename (σ : Renaming) : Filling → Filling
  | .tree t => .tree (.node (σ.leaf t.kind) t.value [])
  | .pending r => .pending (r.rename σ)

namespace Grammar

/-- A new value of a leaf, as a derivation. -/
def growLeaf (g : Grammar ρ) (name : String) : Action μ Derivation := do
  let t ← g.produceLeaf name
  return .leaf t.kind t.value

/-- The derivation of a reference below which so many levels of nodes are opened. -/
def growDerivation (g : Grammar ρ) : (levels : Nat) → Reference → Action μ Derivation
  | _, ⟨.leaf, name⟩ => g.growLeaf name
  | 0, ⟨.node, name⟩ => return .node name []
  | levels + 1, ⟨.node, name⟩ =>
    match g.nodes.find? name with
    | none => throw (.undefined name)
    | some d => do
      let fillings ← g.resolveAll d.slots
      return .node name (← fillings.mapM (Filling.derivation (g.growDerivation levels)))

theorem growDerivation_succ_node {g : Grammar ρ} {name : String} {d : NodeDefinition}
    (h : g.nodes.find? name = some d) (levels : Nat) :
    g.growDerivation (levels + 1) ⟨.node, name⟩ = (do
      let fillings ← g.resolveAll d.slots
      return .node name (← fillings.mapM (Filling.derivation (g.growDerivation levels))) :
        Action μ Derivation) := by
  simp only [growDerivation, h]

/-! ## New names -/

/-- A choice draws one of as many numbers as it has alternatives, however these are counted. -/
theorem resolve_choice_of_length {g : Grammar ρ} {first : Slot} {others : List Slot} {n : Nat}
    (h : others.length = n) :
    (g.resolve (.choice first others) : Action μ Filling) = (do
      let i ← draw (Draw.below (n + 1))
      g.resolve ((first :: others).get (i.cast (by rw [List.length_cons, h])))) := by
  subst h
  rw [resolve]
  rfl

section
variable {g : Grammar ρ} {σ : Renaming} (h : σ.Fits g)

theorem produceLeaf_rename {name : String} (hname : name ∈ g.leaves) :
    (g.rename σ h).produceLeaf (σ.leaf name) =
      ((fun t => .node (σ.leaf t.kind) t.value []) <$> g.produceLeaf name : Action μ Tree) := by
  obtain ⟨leaf, hleaf⟩ := Table.exists_find?_of_mem hname
  simp only [produceLeaf, hleaf, find?_leaves_rename hleaf, map_bind, map_pure, Tree.kind_node,
    Tree.value_node]
  rfl

theorem resolve_rename_choice (first : Slot) (others : List Slot) :
    ((g.rename σ h).resolve ((Slot.choice first others).rename σ) : Action μ Filling) = (do
      let i ← draw (Draw.below (others.length + 1))
      (g.rename σ h).resolve (((first :: others).get i).rename σ)) := by
  rw [Slot.rename_choice, resolve_choice_of_length (List.length_map (Slot.rename σ))]
  congr 1
  funext i
  rw [List.get_eq_getElem, List.get_eq_getElem, ← List.getElem_map (Slot.rename σ)]
  rfl

theorem grow_rename_leaf (levels : Nat) {name : String} (hname : name ∈ g.leaves) :
    (g.rename σ h).grow levels ⟨.leaf, σ.leaf name⟩ =
      ((fun D => (D.rename σ).tree) <$> g.growLeaf name : Action μ Tree) := by
  rw [grow_leaf, produceLeaf_rename h hname, growLeaf, map_bind]
  simp only [map_eq_pure_bind, pure_bind, Derivation.rename, Derivation.tree]

/-- A renamed slot is filled by what fills the slot, renamed. -/
theorem resolve_rename {s : Slot}
    (hs : ∀ name, .reference ⟨.leaf, name⟩ ∈ s.items → name ∈ g.leaves) :
    (g.rename σ h).resolve (s.rename σ) =
      (Filling.rename σ <$> g.resolve s : Action μ Filling) := by
  induction s using resolve.induct with
  | case1 name =>
    rw [Slot.rename, resolve, resolve, produceLeaf_rename h (hs name (by simp [Slot.items]))]
    simp only [map_eq_pure_bind, bind_assoc, pure_bind, Filling.rename]
  | case2 name =>
    rw [Slot.rename, resolve, resolve, map_pure]
    rfl
  | case3 first others ih =>
    rw [resolve_rename_choice, resolve, map_bind]
    congr 1
    funext i
    exact ih i fun name hitem => hs name (Slot.mem_items_choice.2 ⟨i, hitem⟩)
  | case4 value =>
    rw [Slot.rename, resolve, resolve]
    rfl

theorem resolveAll_rename {slots : List Slot}
    (hs : ∀ s ∈ slots, ∀ name, .reference ⟨.leaf, name⟩ ∈ s.items → name ∈ g.leaves) :
    (g.rename σ h).resolveAll (slots.map (Slot.rename σ)) =
      (List.map (Filling.rename σ) <$> g.resolveAll slots : Action μ (List Filling)) := by
  induction slots with
  | nil => rfl
  | cons s rest ih =>
    obtain ⟨hhead, hrest⟩ := List.forall_mem_cons.1 hs
    rw [List.map_cons, resolveAll, resolveAll, resolve_rename h hhead, ih hrest]
    simp only [map_eq_pure_bind, bind_assoc, pure_bind, List.map_cons]

/-- A node under its new name is grown from its slots under their new names. -/
theorem grow_rename_node {name : String} {d : NodeDefinition} (hd : g.nodes.find? name = some d)
    (levels : Nat) :
    (g.rename σ h).grow (levels + 1) ⟨.node, σ.node name⟩ = (do
      let fillings ← g.resolveAll d.slots
      return .node (σ.node name) .null (← (fillings.map (Filling.rename σ)).mapM
        (Filling.complete ((g.rename σ h).grow levels))) : Action μ Tree) := by
  have hleaves : ∀ s ∈ d.slots, ∀ leaf, .reference ⟨.leaf, leaf⟩ ∈ s.items → leaf ∈ g.leaves :=
    fun s hs leaf hitem => Table.contains_iff.1 (isDefined_of_mem_items hd hs hitem)
  rw [grow_succ_node (find?_nodes_rename hd), NodeDefinition.rename, resolveAll_rename h hleaves,
    bind_map_left]

/-- Under new names a reference grows into the tree of its derivation with these names. -/
theorem grow_rename {levels : Nat} {r : Reference}
    (hr : isDefined g.nodes g.leaves r = true) :
    (g.rename σ h).grow levels (r.rename σ) =
      ((fun D => (D.rename σ).tree) <$> g.growDerivation levels r : Action μ Tree) := by
  induction levels generalizing r with
  | zero =>
    match r, hr with
    | ⟨.leaf, name⟩, hr => exact grow_rename_leaf h 0 (Table.contains_iff.1 hr)
    | ⟨.node, name⟩, _ =>
      rw [growDerivation, map_pure]
      rfl
  | succ levels ih =>
    match r, hr with
    | ⟨.leaf, name⟩, hr => exact grow_rename_leaf h (levels + 1) (Table.contains_iff.1 hr)
    | ⟨.node, name⟩, hr =>
      obtain ⟨d, hd⟩ := Table.exists_find?_of_mem (Table.contains_iff.1 hr)
      rw [growDerivation_succ_node hd, map_bind]
      refine (grow_rename_node h hd levels).trans (bind_congr_of_ok ?_)
      intro w fillings w' hfillings
      have hchildren : (fillings.map (Filling.rename σ)).mapM
            (Filling.complete ((g.rename σ h).grow levels)) =
          List.map (fun D => (D.rename σ).tree) <$>
            fillings.mapM (Filling.derivation (g.growDerivation levels)) := by
        apply mapM_map_of_forall
        intro filling hfilling
        cases filling with
        | tree t => exact (map_pure _ _).symm
        | pending r =>
          -- What fills a slot of a node is a node of the grammar.
          obtain ⟨hkind, hname⟩ := pending_of_resolveAll hd hfillings hfilling
          apply ih
          rw [isDefined, hkind]
          exact Table.contains_iff.2 hname
      rw [hchildren]
      simp only [map_eq_pure_bind, bind_assoc, pure_bind, Derivation.rename, Derivation.tree,
        Derivation.trees_renameAll]

/-- The derivation that a tree of the grammar is read off from. -/
def derivation (g : Grammar ρ) (bound : Nat) : Action μ Derivation :=
  g.growDerivation (bound + 1) g.start

theorem generate_rename_eq (hkind : (g.rename σ h).rootKind = g.rootKind) (bound : Nat) :
    (g.rename σ h).generate bound =
      ((fun D => (D.rename σ).tree) <$> g.derivation bound : Action μ Tree) := by
  rw [generate_eq_grow, start_rename hkind, derivation]
  exact grow_rename h g.isDefined_start

end

/-- A tree of the grammar is the tree of its derivation. -/
theorem generate_eq_tree_derivation (g : Grammar ρ) (bound : Nat) :
    g.generate bound = (Derivation.tree <$> g.derivation bound : Action μ Tree) := by
  -- Every name is taken for its own new name.
  have hid : (g.rename .id (Renaming.fits_id g)).rootKind = g.rootKind := by
    rw [rename_id]
  have h := generate_rename_eq (μ := μ) (Renaming.fits_id g) hid bound
  rw [rename_id] at h
  simpa only [Derivation.rename_id] using h

/-- The trees of a grammar are read off from its derivations. When its nodes and its leaves get
new names, different ones for different nodes and for different leaves, the renamed tables pass
the check. As long as the root stays what it is, the renamed grammar derives the same trees under
the new names: from every world both fail in the same way or return, and they leave the same world
behind, and in a tree that is returned each position has the new name of the node or of the leaf
that was derived there. The nodes that are not grounded are the same, in the same order. -/
theorem generate_rename (g : Grammar ρ) :
    (∀ bound, g.generate bound = (Derivation.tree <$> g.derivation bound : Action μ Tree)) ∧
      ∀ (σ : Renaming) (h : σ.Fits g),
        check (some (σ.of g.rootKind g.root)) (g.renamedNodes σ h) (g.renamedLeaves σ h) =
            .ok (g.rename σ h) ∧
          ((g.rename σ h).rootKind = g.rootKind →
            (∀ bound, (g.rename σ h).generate bound =
              ((fun D => (D.rename σ).tree) <$> g.derivation bound : Action μ Tree)) ∧
            (g.rename σ h).ungrounded = g.ungrounded.map σ.node) := by
  refine ⟨g.generate_eq_tree_derivation, ?_⟩
  intro σ h
  refine ⟨(g.rename σ h).recheck_eq, ?_⟩
  intro hkind
  exact ⟨generate_rename_eq h hkind, ungrounded_rename h⟩

/-- New names under which the first node of `nested` is called as its leaf. -/
def sharedName : Renaming where
  node name := if name = "branch" then "color" else name
  leaf name := name

theorem fits_sharedName : sharedName.Fits nested where
  node := by
    have hdistinct : ∀ a ∈ nested.nodes.names, ∀ b ∈ nested.nodes.names,
        sharedName.node a = sharedName.node b → a = b := by decide
    intro a ha b hb heq
    exact hdistinct a ha b hb heq
  leaf _ _ _ _ heq := heq

theorem generate_rename_sharedName :
    (nested.rename sharedName fits_sharedName).rootKind = nested.rootKind ∧
      (nested.rename sharedName fits_sharedName).generate 3 =
        ((fun D => (D.rename sharedName).tree) <$> nested.derivation 3 : Action Unit Tree) := by
  have hkind : (nested.rename sharedName fits_sharedName).rootKind = nested.rootKind := rfl
  obtain ⟨-, hrename⟩ := generate_rename nested
  exact ⟨hkind, ((hrename sharedName fits_sharedName).2 hkind).1 3⟩

end Grammar

end RandomDerivation
