import Mathlib.Data.Set.Image
import RandomDerivation.Proofs.Derivation.Grounding
import RandomDerivation.Proofs.Tree.Truncate

/-!
# Derivations with different bounds

The bound says where nodes are cut off, and nothing else. So the trees for a bound are those for a
larger one, cut just below the smaller bound; and every one of them goes on, below the nodes that
are cut off, to a tree for the larger bound. This is about the trees that can be returned with any
words: the same words mostly give unrelated trees, since the deeper tree draws more.
-/

namespace RandomDerivation

/-- Two lists whose places have a common partner have a common list of partners. -/
theorem exists_forall₂_of_forall₂_exists {α β γ : Type} {R : α → γ → Prop} {S : β → γ → Prop}
    {xs : List α} {ys : List β} (h : List.Forall₂ (fun x y => ∃ z, R x z ∧ S y z) xs ys) :
    ∃ zs, List.Forall₂ R xs zs ∧ List.Forall₂ S ys zs := by
  induction h with
  | nil => exact ⟨[], .nil, .nil⟩
  | cons hhead _ ih =>
    obtain ⟨z, hx, hy⟩ := hhead
    obtain ⟨zs, hxs, hys⟩ := ih
    exact ⟨z :: zs, .cons hx hxs, .cons hy hys⟩

namespace Grammar

/-- Some words make a grammar return a tree. -/
def CanReturn (g : Grammar Producer) (bound : Nat) (t : Tree) : Prop :=
  ∃ words w', g.generate bound ⟨.ofList words, ()⟩ = .ok t w'

/-- No leaf of the grammar makes reals. -/
def IsDiscrete (g : Grammar Producer) : Prop :=
  ∀ leaf ∈ g.leaves.values, leaf.generator.isDiscrete = true

section
variable {g : Grammar Producer} {bound bound' depth : Nat} {r : Reference} {t : Tree}

theorem History.makes (hg : g.IsDiscrete) {w w' : World Unit} {calls : List (String × Json)}
    (h : g.History w calls w') : ∀ call ∈ calls, g.Makes call := by
  induction h with
  | rest => simp
  | draw _ _ ih => exact ih
  | call hleaf hvalue _ ih =>
    have hdiscrete := hg _ (Table.mem_values_of_find? hleaf)
    exact List.forall_mem_cons.2
      ⟨⟨_, hleaf, Producer.makes_of_draw hdiscrete (draw_eq_ok hvalue)⟩, ih⟩

/-- The trees that can be returned are the legal derivations. -/
theorem canReturn_iff (hg : g.IsDiscrete) :
    g.CanReturn bound t ↔ g.Legal g.Makes bound 0 g.start t := by
  constructor
  · rintro ⟨words, w', h⟩
    rw [generate_eq_grow] at h
    obtain ⟨calls, hcalls, hlegal⟩ := legal_of_grow (Nat.zero_add _) g.isDefined_start h
    exact hlegal.mono (hcalls.makes hg)
  · intro h
    obtain ⟨words, _, spare, rfl, hrun⟩ := attains_grow_of_legal h (Nat.zero_add _) none
    refine ⟨words ++ [], ⟨⟨.listed [], spare⟩, ()⟩, ?_⟩
    rw [generate_eq_grow]
    exact hrun []

/-- Every defined reference has a legal derivation. -/
theorem exists_legal (hg : g.IsDiscrete) (hr : isDefined g.nodes g.leaves r = true)
    (hdepth : depth ≤ bound + 1) : ∃ t, g.Legal g.Makes bound depth r t := by
  obtain ⟨levels, hlevels⟩ := Nat.exists_eq_add_of_le hdepth
  obtain ⟨words, t, spare, -, hrun⟩ := g.attains_grow_any levels r hr none
  obtain ⟨calls, hcalls, hlegal⟩ := legal_of_grow hlevels.symm hr (hrun [])
  exact ⟨t, hlegal.mono (hcalls.makes hg)⟩

/-- Cut just below a smaller bound, a legal derivation is one for this bound. -/
theorem Legal.truncate {made : String × Json → Prop} (hbound : bound ≤ bound')
    (h : g.Legal made bound' depth r t) {left : Nat} (hleft : depth + left = bound + 1) :
    g.Legal made bound depth r (t.truncate left) := by
  induction h generalizing left with
  | leaf hname hvalue =>
    rw [Tree.truncate_childless]
    exact .leaf hname hvalue
  | @expanded depth name d references children hdepth hd hslots hlength hchildren ih =>
    cases left with
    | zero =>
      obtain rfl : depth = bound + 1 := hleft
      exact .cutOff (Table.mem_of_find? hd)
    | succ left =>
      -- The same references are taken, and each child is cut one level less deep.
      refine .expanded (by omega) hd hslots (by rwa [List.length_map]) fun p hp => ?_
      rw [List.zip_map_right, List.mem_map] at hp
      obtain ⟨q, hq, rfl⟩ := hp
      exact ih q hq (by omega)
  | cutOff hname =>
    rw [Tree.truncate_childless]
    obtain rfl : bound' = bound := by omega
    exact .cutOff hname

theorem Legal.eq_node {name : String} {made : String × Json → Prop}
    (h : g.Legal made bound depth ⟨.node, name⟩ t) : ∃ children, t = .node name .null children := by
  cases h with
  | expanded => exact ⟨_, rfl⟩
  | cutOff => exact ⟨_, rfl⟩

/-- A legal derivation goes on below the nodes that are cut off to one for a larger bound. -/
theorem Legal.exists_extends (hg : g.IsDiscrete) (hbound : bound ≤ bound')
    (h : g.Legal g.Makes bound depth r t) {left : Nat} (hleft : depth + left = bound + 1) :
    ∃ t', g.Legal g.Makes bound' depth r t' ∧
      t'.truncate left = t ∧ t.Extends (g.IsCutOff bound) depth t' := by
  induction h generalizing left with
  | leaf hname hvalue =>
    exact ⟨_, .leaf hname hvalue, Tree.truncate_childless _ _ _, .of_forall₂ .nil⟩
  | @expanded depth name d references children hdepth hd hslots hlength _ ih =>
    obtain ⟨left, rfl⟩ : ∃ below, left = below + 1 := ⟨left - 1, by omega⟩
    have hdeeper : List.Forall₂ (fun r c => ∃ c', g.Legal g.Makes bound' (depth + 1) r c' ∧
        c'.truncate left = c ∧ c.Extends (g.IsCutOff bound) (depth + 1) c') references children :=
      List.forall₂_iff_zip.2 ⟨hlength, fun hzip => ih _ hzip (by omega)⟩
    obtain ⟨children', hlegal, hextends⟩ := exists_forall₂_of_forall₂_exists hdeeper
    refine ⟨.node name .null children', .of_forall₂ (by omega) hd hslots hlegal, ?_, ?_⟩
    · have heq : children'.map (Tree.truncate left) = children := by
        rw [← List.forall₂_eq_eq_eq, List.forall₂_map_left_iff]
        exact (hextends.imp fun _ _ h => h.1).flip
      rw [Tree.truncate_succ, heq]
    · exact .of_forall₂ (hextends.imp fun _ _ h => h.2)
  | @cutOff name hname =>
    -- This is where the tree grows: any derivation of the node will do.
    have hdefined : isDefined g.nodes g.leaves ⟨.node, name⟩ = true := Table.contains_iff.2 hname
    obtain ⟨t', hlegal⟩ := exists_legal hg hdefined (Nat.succ_le_succ hbound)
    obtain ⟨children, rfl⟩ := hlegal.eq_node
    obtain rfl : left = 0 := by omega
    exact ⟨_, hlegal, rfl, .grown ⟨hname, rfl, rfl, rfl⟩⟩

end

/-- The trees that can be returned with a bound are those that can be returned with a larger one,
cut just below the smaller bound. Each of them extends to one for the larger bound, and only below
nodes that are cut off. -/
theorem canReturn_truncate {g : Grammar Producer} (hg : g.IsDiscrete) {bound bound' : Nat}
    (hbound : bound ≤ bound') :
    {t | g.CanReturn bound t} = Tree.truncate (bound + 1) '' {t | g.CanReturn bound' t} ∧
      ∀ t, g.CanReturn bound t → ∃ t', g.CanReturn bound' t' ∧
        t'.truncate (bound + 1) = t ∧ t.Extends (g.IsCutOff bound) 0 t' := by
  have hextends : ∀ t, g.CanReturn bound t → ∃ t', g.CanReturn bound' t' ∧
      t'.truncate (bound + 1) = t ∧ t.Extends (g.IsCutOff bound) 0 t' := by
    intro t ht
    obtain ⟨t', hlegal, h⟩ :=
      ((canReturn_iff hg).1 ht).exists_extends hg hbound (Nat.zero_add _)
    exact ⟨t', (canReturn_iff hg).2 hlegal, h⟩
  refine ⟨Set.ext fun t => ⟨fun ht => ?_, ?_⟩, hextends⟩
  · obtain ⟨t', ht', htruncate, -⟩ := hextends t ht
    exact ⟨t', ht', htruncate⟩
  · rintro ⟨t', ht', rfl⟩
    exact (canReturn_iff hg).2 (((canReturn_iff hg).1 ht').truncate hbound (Nat.zero_add _))

/-- A tree of `nested` in which a node that always has children is cut off. -/
def cutOffParent : Tree :=
  .node "branch" .null [.node "color" (.str "green") [], .node "branch" .null []]

theorem canReturn_truncate_cutOffParent :
    nested.IsDiscrete ∧ nested.CanReturn 0 cutOffParent ∧
      ∃ t', nested.CanReturn 2 t' ∧ t'.truncate 1 = cutOffParent ∧
        cutOffParent.Extends (nested.IsCutOff 0) 0 t' := by
  have hdiscrete : nested.IsDiscrete := by
    intro leaf hleaf
    obtain rfl := List.mem_singleton.1 hleaf
    rfl
  have hcolor : nested.Legal nested.Makes 0 1 ⟨.leaf, "color"⟩ (.node "color" (.str "green") []) :=
    .leaf (by decide) ⟨_, rfl, .choice (by simp)⟩
  have hbranch : nested.Legal nested.Makes 0 1 ⟨.node, "branch"⟩ (.node "branch" .null []) :=
    .cutOff (by decide)
  have hcutOffParent : nested.CanReturn 0 cutOffParent :=
    (canReturn_iff hdiscrete).2 (.of_forall₂ (by decide) rfl
      (.cons (by decide) (.cons (by decide) .nil)) (.cons hcolor (.cons hbranch .nil)))
  obtain ⟨-, hextends⟩ := canReturn_truncate hdiscrete (by decide : 0 ≤ 2)
  exact ⟨hdiscrete, hcutOffParent, hextends cutOffParent hcutOffParent⟩

end Grammar

end RandomDerivation
