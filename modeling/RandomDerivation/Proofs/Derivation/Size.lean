import RandomDerivation.Proofs.Derivation.Grounding
import RandomDerivation.Proofs.Derivation.Reachable
import RandomDerivation.Proofs.Derivation.Safety
import RandomDerivation.Proofs.Tree.Full

/-!
# How many positions a derived tree has

A tree that is derived with a bound has one level more than the bound, besides the root. So it has
no more positions than a full tree with as many children at each position as there are slots of a
node. When all nodes have the same number of slots and nothing but nodes stands in them, every tree
is such a full tree: all derivations go on until they are cut off.
-/

namespace RandomDerivation.Grammar
variable {ρ μ : Type} {g : Grammar ρ} {b bound : Nat}

/-- A position has no more children than there are slots of a node. -/
theorem Legal.length_children_le {made : String × Json → Prop} {depth : Nat} {r : Reference}
    {t : Tree} (hslots : ∀ d ∈ g.nodes.values, d.slots.length ≤ b)
    (h : g.Legal made bound depth r t) : t.children.length ≤ b := by
  cases h with
  | leaf => exact Nat.zero_le b
  | expanded _ hd hreferences hlength _ =>
    rw [Tree.children_node, ← hlength, ← hreferences.length_eq]
    exact hslots _ (Table.mem_values_of_find? hd)
  | cutOff => exact Nat.zero_le b

theorem size_le_of_generate [Produces ρ μ] (hslots : ∀ d ∈ g.nodes.values, d.slots.length ≤ b)
    {w w' : World μ} {t : Tree} (h : g.generate bound w = .ok t w') :
    t.size ≤ ∑ i ∈ Finset.range (bound + 2), b ^ i := by
  rw [generate_eq_grow] at h
  obtain ⟨calls, -, hlegal⟩ := legal_of_grow (Nat.zero_add _) g.isDefined_start h
  have hwalk : ∀ p ∈ t.walk, p.1 ≤ bound + 1 ∧ ∃ r, g.Legal (· ∈ calls) bound p.1 r p.2 := by
    intro p hp
    simpa using hlegal.of_mem_walk (Nat.zero_le _) hp
  apply Tree.size_le_of_height_le
  · intro p hp
    obtain ⟨-, r, hr⟩ := hwalk p hp
    exact hr.length_children_le hslots
  · apply Tree.height_le_iff.2
    intro p hp
    exact (hwalk p hp).1

/-- The root is a node, and every node has `b` slots with nothing but nodes in them. -/
structure Branches (g : Grammar ρ) (b : Nat) : Prop where
  root : g.root ∈ g.nodes
  length_slots : ∀ d ∈ g.nodes.values, d.slots.length = b
  references : ∀ d ∈ g.nodes.values, ∀ s ∈ d.slots, ∀ r ∈ s.references, r.kind = .node

namespace Branches

theorem start_eq (h : g.Branches b) : g.start = ⟨.node, g.root⟩ := by
  rw [start, rootKind, if_pos (Table.contains_iff.2 h.root)]

/-- Nothing but nodes is found in the slots. -/
theorem kind_of_mem_items (h : g.Branches b) {name : String} {d : NodeDefinition}
    (hd : g.nodes.find? name = some d) {s : Slot} (hs : s ∈ d.slots) {r : Reference}
    (hr : .reference r ∈ s.items) : r.kind = .node := by
  have hvalues : d ∈ g.nodes.values := Table.mem_values_of_find? hd
  exact h.references d hvalues s hs r
    ((Slot.mem_references_iff (isNative_of_mem_values hvalues hs)).2 hr)

/-- No node of such a grammar is grounded. -/
theorem not_grounded (h : g.Branches b) (hb : 0 < b) (name : String) :
    ¬ Grounded g.nodes name := by
  intro hname
  induction hname with
  | slotless hd hslots =>
    have hlength := h.length_slots _ (Table.mem_values_of_find? hd)
    rw [hslots, List.length_nil] at hlength
    omega
  | leaf hd hs hitem => cases h.kind_of_mem_items hd hs hitem
  | node _ _ _ _ ih => exact ih

/-- A derivation of a node is a full tree. -/
theorem isFull_of_legal (h : g.Branches b) {made : String × Json → Prop} {depth levels : Nat}
    {r : Reference} {t : Tree} (hlegal : g.Legal made bound depth r t) (hr : r.kind = .node)
    (hlevels : depth + levels = bound + 1) : t.IsFull b levels := by
  induction hlegal generalizing levels with
  | leaf => cases hr
  | @expanded depth name d references children hdepth hd hslots hlength _ ih =>
    obtain ⟨levels, rfl⟩ : ∃ below, levels = below + 1 := ⟨levels - 1, by omega⟩
    have hvalues := Table.mem_values_of_find? hd
    have hfull : List.Forall₂ (fun r c => r.kind = .node → c.IsFull b levels)
        references children :=
      List.forall₂_iff_zip.2 ⟨hlength, fun hzip hr => ih _ hzip hr (by omega)⟩
    constructor
    · rw [Tree.children_node, ← hlength, ← hslots.length_eq]
      exact h.length_slots d hvalues
    · intro c hc
      obtain ⟨s, hs, r, hr, hchild⟩ :=
        exists_of_forall₂_of_mem_right (forall₂_comp hslots hfull) hc
      exact hchild (h.references d hvalues s hs r hr)
  | cutOff =>
    obtain rfl : levels = 0 := by omega
    rfl

/-- The grammar without its leaves, which cannot be reached anyway. -/
def leafless (h : g.Branches b) : Grammar ρ where
  root := g.root
  nodes := g.nodes
  leaves := .empty
  checked := by
    obtain ⟨-, hitems⟩ := checkReferences_eq_ok.1 g.checked
    refine checkReferences_eq_ok.2 ⟨.inl h.root, ?_⟩
    intro d hd item hitem
    obtain ⟨r, rfl, hr⟩ := hitems d hd item hitem
    obtain ⟨⟨name, d⟩, hentry, rfl⟩ := List.mem_map.1 hd
    obtain ⟨s, hs, hitem⟩ := Slot.mem_itemsOfAll.1 hitem
    have hkind := h.kind_of_mem_items (Table.find?_eq_some_iff.2 hentry) hs hitem
    refine ⟨r, rfl, ?_⟩
    simpa [isDefined, hkind] using hr

theorem agrees_leafless (h : g.Branches b) : g.Agrees h.leafless where
  root := rfl
  rootKind := rfl
  nodes _ _ := rfl
  leaves name hname := by
    have hkind : ∀ r, g.Reachable r → r.kind = .node := by
      intro r hr
      induction hr with
      | start => rw [h.start_eq]
      | step _ hd hs hitem => exact h.kind_of_mem_items hd hs hitem
    cases hkind _ hname

/-- A derivation of such a grammar does not call any leaf generator, so it can only come to the end
of the words. -/
theorem exhausted_of_generate [Produces ρ μ] (h : g.Branches b) {w w' : World μ} {f : Fault}
    (hfails : g.generate bound w = .error f w') : f = .exhausted := by
  have hsame : g.generate bound = (h.leafless.generate bound : Action μ Tree) := by
    rw [generate_eq_grow, generate_eq_grow, h.agrees_leafless.grow_eq .start]
    rfl
  rw [hsame] at hfails
  obtain ⟨calls, w₁, -, hfault⟩ := failsOutside_of_derive h.leafless.isDefined_start hfails
  cases hfault with
  | draw _ hdraw => exact (onlyExhausts_below _).draw hdraw
  | call hleaf => cases hleaf

end Branches

/-- When no node has more than `b` slots, a tree has no more positions than a full tree with `b`
children at each position. When every node has `b` slots and nothing but nodes in them, every tree
is of this size, whatever is drawn, as long as there are words to draw from. Then, with at least
one slot, the tree has one level more than the bound, and its childless positions are the nodes
that are cut off there, as many as there is room for. -/
theorem size_of_generate [Produces ρ μ] (g : Grammar ρ) (b bound : Nat) :
    ((∀ d ∈ g.nodes.values, d.slots.length ≤ b) →
      ∀ (w w' : World μ) t, g.generate bound w = .ok t w' →
        t.size ≤ ∑ i ∈ Finset.range (bound + 2), b ^ i) ∧
    (g.Branches b → ∀ w : World μ,
      (∃ w', g.generate bound w = .error .exhausted w') ∨
      ∃ t w', g.generate bound w = .ok t w' ∧
        t.size = ∑ i ∈ Finset.range (bound + 2), b ^ i ∧
        (0 < b → t.height = bound + 1 ∧
          (∀ p ∈ t.walk, p.2.isLeaf = true ↔ g.IsCutOff bound p.1 p.2) ∧
          t.walk.countP (fun p => p.2.isLeaf) = b ^ (bound + 1))) := by
  refine ⟨fun hslots w w' t h => size_le_of_generate hslots h, fun hbranches w => ?_⟩
  cases hrun : g.generate bound w with
  | error f w' =>
    obtain rfl := hbranches.exhausted_of_generate hrun
    exact .inl ⟨w', rfl⟩
  | ok t w' =>
    have hgrow := hrun
    rw [generate_eq_grow] at hgrow
    obtain ⟨calls, -, hlegal⟩ := legal_of_grow (Nat.zero_add _) g.isDefined_start hgrow
    rw [hbranches.start_eq] at hlegal
    have hfull : t.IsFull b (bound + 1) := hbranches.isFull_of_legal hlegal rfl (Nat.zero_add _)
    refine .inr ⟨t, w', rfl, hfull.size_eq, fun hb => ⟨hfull.height_eq hb, ?_, ?_⟩⟩
    · intro p hp
      constructor
      · intro hleaf
        have hcutOff := hlegal.isCutOff_of_not_grounded rfl (hbranches.not_grounded hb _) hp hleaf
        rwa [Nat.zero_add] at hcutOff
      · rintro ⟨-, -, hchildren, -⟩
        rw [Tree.isLeaf, hchildren]
        rfl
    · exact hfull.countP_isLeaf hb

/-- A grammar whose nodes have two slots each and only lead to one another. -/
def binaryNodes : Grammar Producer where
  root := "first"
  nodes := ⟨[
    ("first", ⟨"first", [.node "first", .choice (.node "first") [.choice (.node "second") []]]⟩),
    ("second", ⟨"second", [.node "first", .node "second"]⟩)], by decide⟩
  leaves := .empty
  checked := rfl

/-- A tree of `binaryNodes`. -/
def fullTree : Tree :=
  .node "first" .null [
    .node "first" .null [.node "first" .null [], .node "first" .null []],
    .node "second" .null [.node "first" .null [], .node "second" .null []]]

/-- One of the draws for the tree is repeated. -/
theorem size_of_generate_binaryNodes :
    binaryNodes.Branches 2 ∧ (∀ d ∈ binaryNodes.nodes.values, d.slots.length ≤ 2) ∧
      binaryNodes.generate 1 ⟨.ofList [0x40000000, 0, 0x80000000, 0], ()⟩ =
        .ok fullTree ⟨.ofList [], ()⟩ ∧
      fullTree.size ≤ 7 ∧ fullTree.size = 7 ∧ fullTree.height = 2 ∧
      fullTree.walk.countP (fun p => p.2.isLeaf) = 4 := by
  have hbranches : binaryNodes.Branches 2 := ⟨by decide, by decide, by decide⟩
  have hslots : ∀ d ∈ binaryNodes.nodes.values, d.slots.length ≤ 2 := by decide
  have hrun : binaryNodes.generate 1 ⟨.ofList [0x40000000, 0, 0x80000000, 0], ()⟩ =
      .ok fullTree ⟨.ofList [], ()⟩ := by
    rw [generate_eq_grow]
    cbv
  obtain ⟨hbound, hfull⟩ := size_of_generate (μ := Unit) binaryNodes 2 1
  rcases hfull hbranches ⟨.ofList [0x40000000, 0, 0x80000000, 0], ()⟩ with
    ⟨_, hfails⟩ | ⟨t, w', hrun', hsize, hcounts⟩
  · rw [hrun] at hfails
    cases hfails
  · rw [hrun] at hrun'
    cases hrun'
    obtain ⟨hheight, -, hchildless⟩ := hcounts (by decide)
    exact ⟨hbranches, hslots, hrun, hbound hslots _ _ _ hrun, hsize, hheight, hchildless⟩

end RandomDerivation.Grammar
