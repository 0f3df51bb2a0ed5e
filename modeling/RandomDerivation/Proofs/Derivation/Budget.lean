import RandomDerivation.Proofs.Derivation.Legal

/-!
# What is left below a start depth

A derivation that starts at some depth only depends on how many levels are left between this depth
and the bound. A start at the bound or beyond leaves no level: the slots of the node are still
filled, and every node among its children is cut off. A tree is at most one level higher than what
was left.
-/

namespace RandomDerivation
variable {ρ μ : Type} [Produces ρ μ]

/-- The child that a filling becomes when no level is left: a node keeps its name only. -/
def Filling.cutOff : Filling → Tree
  | .tree t => t
  | .pending r => .node r.name .null []

namespace Grammar
variable {g : Grammar ρ} {name : String} {kind : Option Kind} {depth : Int} {bound : Nat}

/-- Expanding a name is the recursion on the levels that are left, and the level of the name. -/
theorem expand_eq_grow {r : Reference} (h : g.reference name kind = .ok r) (depth : Int)
    (bound : Nat) :
    g.expand name depth bound kind = (g.grow ((bound - depth).toNat + 1) r : Action μ Tree) := by
  rw [expand, h]
  exact derive_eq_grow g bound depth .expand r

/-- A derivation with at least one level only returns when it starts from something defined. -/
theorem isDefined_of_grow_succ {levels : Nat} {r : Reference} {w w' : World μ} {t : Tree}
    (h : g.grow (levels + 1) r w = .ok t w') : isDefined g.nodes g.leaves r = true := by
  match r with
  | ⟨.leaf, name⟩ =>
    rw [grow_leaf] at h
    obtain ⟨leaf, _, hleaf, -, -⟩ := produceLeaf_eq_ok.1 h
    exact Table.contains_iff.2 (Table.mem_of_find? hleaf)
  | ⟨.node, name⟩ =>
    cases hd : g.nodes.find? name with
    | none => simp [grow, growWith, hd] at h
    | some d => exact Table.contains_iff.2 (Table.mem_of_find? hd)

/-- A tree is no higher than the number of its levels. -/
theorem height_le_of_grow {levels : Nat} {r : Reference}
    (hr : isDefined g.nodes g.leaves r = true) {w w' : World μ} {t : Tree}
    (h : g.grow levels r w = .ok t w') : t.height ≤ levels := by
  obtain ⟨calls, -, hlegal⟩ := legal_of_grow (Nat.add_comm 1 levels) hr h
  apply Tree.height_le_iff.2
  intro p hp
  obtain ⟨hdepth, -⟩ := hlegal.of_mem_walk (by omega) hp
  omega

theorem height_le_of_expand {w w' : World μ} {t : Tree}
    (h : g.expand name depth bound kind w = .ok t w') :
    t.height ≤ (bound - depth).toNat + 1 := by
  cases hr : g.reference name kind with
  | error f => simp [expand, hr] at h
  | ok r =>
    rw [expand_eq_grow hr] at h
    exact height_le_of_grow (isDefined_of_grow_succ h) h

/-- Children that are cut off take nothing from the world. -/
theorem mapM_cutOff {d : NodeDefinition} (hd : g.nodes.find? name = some d) {w w' : World μ}
    {fillings : List Filling} (h : g.resolveAll d.slots w = .ok fillings w') :
    fillings.mapM (Filling.complete g.cutOff) =
      (pure (fillings.map Filling.cutOff) : Action μ (List Tree)) := by
  rw [← List.mapM_pure]
  apply mapM_congr
  intro filling hfilling
  cases filling with
  | tree t => rfl
  | pending r =>
    obtain ⟨kind, name⟩ := r
    obtain ⟨rfl, -⟩ := pending_of_resolveAll hd h hfilling
    rfl

/-- A node at the bound or beyond fills its slots, and the nodes among its children are cut off. -/
theorem expand_of_bound_le (hdepth : bound ≤ depth) (hr : g.reference name kind = .ok ⟨.node, name⟩)
    {d : NodeDefinition} (hd : g.nodes.find? name = some d) :
    g.expand name depth bound kind = (do
      return .node name .null ((← g.resolveAll d.slots).map Filling.cutOff) : Action μ Tree) := by
  have hlevels : (bound - depth).toNat = 0 := by omega
  rw [expand_eq_grow hr, hlevels, grow_succ_node hd]
  apply bind_congr_of_ok
  intro w fillings w' hfillings
  have hchildren : fillings.mapM (Filling.complete (g.grow 0)) =
      (pure (fillings.map Filling.cutOff) : Action μ (List Tree)) := mapM_cutOff hd hfillings
  rw [hchildren, pure_bind]

/-- Expanding a name depends on its depth and on the bound only through the levels that are left
between them: two starts that leave the same number of levels return the same tree or fail in the
same way, and leave the same world behind. The tree is at most one level higher than what was
left. A start at the bound or beyond is a start at the bound, where the slots of a node are
filled and the nodes among its children cut off. -/
theorem expand_eq_of_remaining (g : Grammar ρ) (name : String) (kind : Option Kind) (depth : Int)
    (bound : Nat) :
    (∀ (depth' : Int) (bound' : Nat),
      max 0 ((bound : Int) - depth) = max 0 ((bound' : Int) - depth') →
        g.expand name depth bound kind = (g.expand name depth' bound' kind : Action μ Tree)) ∧
    (∀ (w w' : World μ) t, g.expand name depth bound kind w = .ok t w' →
      (t.height : Int) ≤ max 0 ((bound : Int) - depth) + 1) ∧
    (bound ≤ depth →
      g.expand name depth bound kind = (g.expand name bound bound kind : Action μ Tree) ∧
      ∀ d, g.reference name kind = .ok ⟨.node, name⟩ → g.nodes.find? name = some d →
        g.expand name depth bound kind = (do
          return .node name .null ((← g.resolveAll d.slots).map Filling.cutOff) :
            Action μ Tree)) := by
  have hremaining : ∀ (depth' : Int) (bound' : Nat),
      max 0 ((bound : Int) - depth) = max 0 ((bound' : Int) - depth') →
        g.expand name depth bound kind = (g.expand name depth' bound' kind : Action μ Tree) := by
    intro depth' bound' h
    cases hr : g.reference name kind with
    | error f => rw [expand, expand, hr]
    | ok r =>
      have hlevels : (bound - depth).toNat = (bound' - depth').toNat := by omega
      rw [expand_eq_grow hr, expand_eq_grow hr, hlevels]
  refine ⟨hremaining, ?_, ?_⟩
  · intro w w' t h
    have hheight := height_le_of_expand h
    omega
  · intro hdepth
    exact ⟨hremaining bound bound (by omega), fun d hr hd => expand_of_bound_le hdepth hr hd⟩

/-- A start above the root and a start inside of the tree leave three levels. A start far beyond
the bound leaves none, and the second slot is filled by a node that is cut off. -/
theorem expand_eq_of_remaining_shifted :
    max 0 (((1 : Nat) : Int) - -2) = max 0 (((7 : Nat) : Int) - 4) ∧
      (nested.expand "branch" (-2) 1 : Action Unit Tree) = nested.expand "branch" 4 7 ∧
      (nested.expand "branch" 9 2 : Action Unit Tree) = nested.expand "branch" 2 2 ∧
      nested.expand "branch" 9 2 none ⟨.ofList [0, 0x80000000, 0x40000000, 0], ()⟩ =
        .ok cutOffTree ⟨.ofList [], ()⟩ ∧
      (cutOffTree.height : Int) ≤ max 0 ((2 : Nat) - 9) + 1 := by
  obtain ⟨hremaining, -, -⟩ := expand_eq_of_remaining (μ := Unit) nested "branch" none (-2) 1
  obtain ⟨-, hheight, hbeyond⟩ := expand_eq_of_remaining (μ := Unit) nested "branch" none 9 2
  obtain ⟨hbound, hfill⟩ := hbeyond (by decide)
  have hrun : nested.expand "branch" 9 2 none ⟨.ofList [0, 0x80000000, 0x40000000, 0], ()⟩ =
      .ok cutOffTree ⟨.ofList [], ()⟩ := by
    rw [hfill _ rfl nodes_nested]
    simp only [resolveAll, resolve, produceLeaf, leaves_nested]
    cbv
  exact ⟨by decide, hremaining 4 7 (by decide), hbound, hrun, hheight _ _ _ hrun⟩

end Grammar

end RandomDerivation
