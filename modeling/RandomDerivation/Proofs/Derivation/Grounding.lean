import RandomDerivation.Proofs.Derivation.Complete
import RandomDerivation.Proofs.Grammar.Grounding

/-!
# What ungrounded nodes are derived to

A node that is not grounded is derived to a tree that ends in nodes that are cut off, and in
nothing else: none of its derivations reaches a leaf or a node without slots. A grounded node has
a derivation with a childless position within the bound. To make it, one slot of each node on the
path to the leaf is filled by the next node of the path, and all others by anything.
-/

namespace RandomDerivation.Grammar
variable {ρ μ : Type}

/-- A node that is cut off just below the bound. -/
def IsCutOff (g : Grammar ρ) (bound depth : Nat) (t : Tree) : Prop :=
  t.kind ∈ g.nodes ∧ t.value = .null ∧ t.children = [] ∧ depth = bound + 1

/-- A derivation of a node that is not grounded ends in nodes that are cut off. -/
theorem Legal.isCutOff_of_not_grounded {g : Grammar ρ} {made : String × Json → Prop}
    {bound depth : Nat} {r : Reference} {t : Tree} (h : g.Legal made bound depth r t)
    (hr : r.kind = .node) (hname : ¬ Grounded g.nodes r.name) {p : Nat × Tree}
    (hp : p ∈ t.walk) (hleaf : p.2.isLeaf = true) : g.IsCutOff bound (depth + p.1) p.2 := by
  induction h generalizing p with
  | leaf => cases hr
  | @expanded depth name d references children hdepth hd hslots hlength _ ih =>
    obtain rfl | ⟨c, hc, q, hq, rfl⟩ := Tree.mem_walk_node.1 hp
    · -- A node without children has no slots.
      have hchildren : children = [] := List.isEmpty_iff.1 hleaf
      subst hchildren
      rw [List.eq_nil_of_length_eq_zero hlength] at hslots
      exact absurd (.slotless hd (List.forall₂_nil_right_iff.1 hslots)) hname
    · have hends : List.Forall₂ (fun r c => r.kind = .node → ¬ Grounded g.nodes r.name →
          ∀ {q : Nat × Tree}, q ∈ c.walk → q.2.isLeaf = true →
            g.IsCutOff bound (depth + 1 + q.1) q.2) references children :=
        List.forall₂_iff_zip.2 ⟨hlength, fun hzip => ih _ hzip⟩
      obtain ⟨s, hs, ⟨kind, child⟩, hr, hends⟩ :=
        exists_of_forall₂_of_mem_right (forall₂_comp hslots hends) hc
      have hitem := Slot.reference_mem_of_mem_split hr
      have hdepths : depth + (q.1 + 1) = depth + 1 + q.1 := by omega
      rw [hdepths]
      cases kind with
      | leaf => exact absurd (.leaf hd hs hitem) hname
      | node => exact hends rfl (fun hchild => hname (.node hd hs hitem hchild)) hq hleaf
  | cutOff hnode =>
    obtain rfl | ⟨c, hc, -⟩ := Tree.mem_walk_node.1 hp
    · exact ⟨hnode, rfl, rfl, rfl⟩
    · simp at hc

theorem attains_produceLeaf (g : Grammar Producer) {name : String} (h : name ∈ g.leaves) :
    Attains (World.around ()) (g.produceLeaf name) fun t => t.isLeaf = true := by
  obtain ⟨leaf, hleaf⟩ := Table.exists_find?_of_mem h
  simp only [produceLeaf, hleaf]
  apply (Producer.attains_any leaf.generator).draw.bind
  intro value _
  exact Attains.pure rfl

/-- If something can be derived from every defined reference, slots of a node can be filled so that
something can be derived from each. -/
theorem forall₂_attains_any {g : Grammar Producer} {levels : Nat}
    (hany : ∀ r, isDefined g.nodes g.leaves r = true →
      Attains (World.around ()) (g.grow levels r) fun _ => True)
    {name : String} {d : NodeDefinition} (hd : g.nodes.find? name = some d) {slots : List Slot}
    (hslots : slots ⊆ d.slots) :
    List.Forall₂ (fun s P => ∃ r, .reference r ∈ s.items ∧
      Attains (World.around ()) (g.grow levels r) P) slots (slots.map fun _ _ => True) := by
  rw [List.forall₂_map_right_iff, List.forall₂_same]
  intro s hs
  obtain ⟨item, hitem⟩ := s.exists_mem_items
  obtain ⟨r, rfl, hr⟩ := exists_reference_of_mem_items hd (hslots hs) hitem
  exact ⟨r, hitem, hany r hr⟩

/-- Something can be derived from every defined reference. -/
theorem attains_grow_any (g : Grammar Producer) (levels : Nat) (r : Reference)
    (hr : isDefined g.nodes g.leaves r = true) :
    Attains (World.around ()) (g.grow levels r) fun _ => True := by
  have hleaf : ∀ levels name, isDefined g.nodes g.leaves ⟨.leaf, name⟩ = true →
      Attains (World.around ()) (g.grow levels ⟨.leaf, name⟩) fun _ => True := by
    intro levels name hname
    rw [grow_leaf]
    exact (g.attains_produceLeaf (Table.contains_iff.1 hname)).mono fun _ _ => trivial
  induction levels generalizing r with
  | zero =>
    match r, hr with
    | ⟨.leaf, name⟩, hr => exact hleaf 0 name hr
    | ⟨.node, name⟩, _ => exact Attains.pure trivial
  | succ levels ih =>
    match r, hr with
    | ⟨.leaf, name⟩, hr => exact hleaf (levels + 1) name hr
    | ⟨.node, name⟩, hr =>
      obtain ⟨d, hd⟩ := Table.exists_find?_of_mem (Table.contains_iff.1 hr)
      have hwanted := forall₂_attains_any ih hd (List.Subset.refl _)
      exact (attains_grow_node hd hwanted).mono fun _ _ => trivial

/-- One child of a node can be chosen, while the others are any. -/
theorem attains_grow_child {g : Grammar Producer} {levels : Nat} {name : String}
    {d : NodeDefinition} (hd : g.nodes.find? name = some d) {s : Slot} (hs : s ∈ d.slots)
    {r : Reference} (hr : .reference r ∈ s.items) {P : Tree → Prop}
    (hchild : Attains (World.around ()) (g.grow levels r) P) :
    Attains (World.around ()) (g.grow (levels + 1) ⟨.node, name⟩) fun t =>
      ∃ c ∈ t.children, P c := by
  obtain ⟨before, after, hsplit⟩ := List.append_of_mem hs
  have hany : ∀ slots ⊆ d.slots, _ := fun _ => forall₂_attains_any (g.attains_grow_any levels) hd
  have hwanted : List.Forall₂ (fun s P => ∃ r, .reference r ∈ s.items ∧
      Attains (World.around ()) (g.grow levels r) P) d.slots
        (before.map (fun _ _ => True) ++ P :: after.map (fun _ _ => True)) := by
    rw [hsplit] at hany ⊢
    exact List.rel_append (hany before (by simp)) (.cons ⟨r, hr, hchild⟩ (hany after (by simp)))
  apply (attains_grow_node hd hwanted).mono
  rintro _ ⟨children, rfl, hchildren⟩
  have hflip : List.Forall₂ (fun (c : Tree) (P : Tree → Prop) => P c) children _ := hchildren.flip
  exact exists_of_forall₂_of_mem_right hflip (by simp)

/-- A grounded node has a derivation with a childless position within the bound. -/
theorem attains_of_grounded {g : Grammar Producer} {name : String} (h : Grounded g.nodes name) :
    ∃ bound, Attains (World.around ()) (g.grow (bound + 1) ⟨.node, name⟩) fun t =>
      ∃ p ∈ t.walk, p.2.isLeaf = true ∧ p.1 ≤ bound := by
  induction h with
  | slotless hd hslots =>
    refine ⟨0, ?_⟩
    rw [grow_succ_node hd, hslots]
    exact Attains.pure ⟨_, Tree.root_mem_walk _, rfl, Nat.le_refl 0⟩
  | leaf hd hs hitem =>
    have hleaf := g.attains_produceLeaf (Table.contains_iff.1 (isDefined_of_mem_items hd hs hitem))
    rw [← grow_leaf g 1] at hleaf
    refine ⟨1, (attains_grow_child hd hs hitem hleaf).mono ?_⟩
    rintro ⟨kind, value, children⟩ ⟨c, hc, hcleaf⟩
    exact ⟨(1, c), Tree.mem_walk_node.2 (.inr ⟨c, hc, _, Tree.root_mem_walk c, rfl⟩), hcleaf,
      Nat.le_refl 1⟩
  | node hd hs hitem _ ih =>
    obtain ⟨bound, hchild⟩ := ih
    refine ⟨bound + 1, (attains_grow_child hd hs hitem hchild).mono ?_⟩
    rintro ⟨kind, value, children⟩ ⟨c, hc, q, hq, hleaf, hdepth⟩
    exact ⟨(q.1 + 1, q.2), Tree.mem_walk_node.2 (.inr ⟨c, hc, q, hq, rfl⟩), hleaf,
      Nat.succ_le_succ hdepth⟩

/-- Whatever an ungrounded node is expanded to ends in nodes that are cut off. -/
theorem isCutOff_of_mem_ungrounded {g : Grammar ρ} [Produces ρ μ] {name : String}
    (h : name ∈ g.ungrounded) {bound : Nat} {w w' : World μ} {t : Tree}
    (hrun : g.expand name 0 bound none w = .ok t w') {p : Nat × Tree} (hp : p ∈ t.walk)
    (hleaf : p.2.isLeaf = true) : g.IsCutOff bound p.1 p.2 := by
  obtain ⟨hname, hgrounded⟩ := mem_ungrounded_iff.1 h
  have hdefined : isDefined g.nodes g.leaves ⟨.node, name⟩ = true := Table.contains_iff.2 hname
  have hlevels : 0 + ((bound - 0 : Int).toNat + 1) = bound + 1 := by omega
  rw [expand_node_eq_grow g hname] at hrun
  obtain ⟨calls, -, hlegal⟩ := legal_of_grow hlevels hdefined hrun
  have hcutOff := hlegal.isCutOff_of_not_grounded rfl hgrounded hp hleaf
  rwa [Nat.zero_add] at hcutOff

/-- Some words lead from any other node to a leaf or a node without slots within some bound. -/
theorem exists_words_of_not_mem_ungrounded {g : Grammar Producer} {name : String}
    (hname : name ∈ g.nodes) (h : name ∉ g.ungrounded) :
    ∃ bound words t w', g.expand name 0 bound none ⟨.ofList words, ()⟩ = .ok t w' ∧
      ∃ p ∈ t.walk, p.2.isLeaf = true ∧ p.1 ≤ bound ∧
        (p.2.kind ∈ g.leaves ∨ ∃ d, g.nodes.find? p.2.kind = some d ∧ d.slots = []) := by
  have hgrounded : Grounded g.nodes name := by
    by_contra hnot
    exact h (mem_ungrounded_iff.2 ⟨hname, hnot⟩)
  obtain ⟨bound, hattains⟩ := attains_of_grounded hgrounded
  obtain ⟨words, t, spare, ⟨p, hp, hleaf, hdepth⟩, hrun⟩ := hattains none
  have hrun : g.grow (bound + 1) ⟨.node, name⟩ ⟨.ofList words, ()⟩ =
      .ok t ⟨⟨.listed [], spare⟩, ()⟩ := by
    have hrun := hrun []
    rwa [List.append_nil] at hrun
  have hdefined : isDefined g.nodes g.leaves ⟨.node, name⟩ = true := Table.contains_iff.2 hname
  obtain ⟨calls, -, hlegal⟩ := legal_of_grow (Nat.zero_add _) hdefined hrun
  obtain ⟨-, r, hlegal⟩ := hlegal.of_mem_walk (Nat.zero_le _) hp
  rw [Nat.zero_add] at hlegal
  refine ⟨bound, words, t, ⟨⟨.listed [], spare⟩, ()⟩, ?_, p, hp, hleaf, hdepth, ?_⟩
  · rw [expand_node_eq_grow g hname, Int.sub_zero, Int.toNat_natCast]
    exact hrun
  · exact (hlegal.leaf_or_slotless hdepth hleaf).imp_left And.left

/-- A node is recorded as ungrounded exactly if all its derivations end in nodes that are cut off,
and is not recorded exactly if some words lead to a leaf or a node without slots within the bound.
The names are listed once each, in the order of the table. Building the grammar records them in
this order as warnings, and a second check records nothing. -/
theorem ungrounded_exact (g : Grammar Producer) :
    (∀ name ∈ g.nodes,
      (name ∈ g.ungrounded ↔
        ∀ bound w t w', g.expand name 0 bound none w = .ok t w' →
          ∀ p ∈ t.walk, p.2.isLeaf = true → g.IsCutOff bound p.1 p.2) ∧
      (name ∉ g.ungrounded ↔
        ∃ bound words t w', g.expand name 0 bound none ⟨.ofList words, ()⟩ = .ok t w' ∧
          ∃ p ∈ t.walk, p.2.isLeaf = true ∧ p.1 ≤ bound ∧
            (p.2.kind ∈ g.leaves ∨ ∃ d, g.nodes.find? p.2.kind = some d ∧ d.slots = []))) ∧
    g.ungrounded.Nodup ∧ g.ungrounded.Sublist g.nodes.names ∧
    (∀ log, ofTables (some g.root) g.nodes g.leaves log =
      .ok g (log ++ g.ungrounded.map Event.ungrounded)) ∧
    (∀ name, (Event.ungrounded name).level = .warning) ∧
    ∀ log, Recorded.ofExcept g.recheck log = .ok g log := by
  refine ⟨?_, g.nodup_ungrounded, g.ungrounded_sublist, g.ofTables_eq_ok, fun _ => rfl, ?_⟩
  · intro name hname
    refine ⟨⟨?_, ?_⟩, ?_, ?_⟩
    · intro h bound w t w' hrun p hp hleaf
      exact isCutOff_of_mem_ungrounded h hrun hp hleaf
    · intro hcutOff
      by_contra h
      obtain ⟨bound, words, t, w', hrun, p, hp, hleaf, hdepth, -⟩ :=
        exists_words_of_not_mem_ungrounded hname h
      obtain ⟨-, -, -, hbelow⟩ := hcutOff bound _ t w' hrun p hp hleaf
      omega
    · exact exists_words_of_not_mem_ungrounded hname
    · rintro ⟨bound, words, t, w', hrun, p, hp, hleaf, hdepth, -⟩ h
      obtain ⟨-, -, -, hbelow⟩ := isCutOff_of_mem_ungrounded h hrun hp hleaf
      omega
  · intro log
    rw [recheck_eq]
    rfl

example : nested.ungrounded = ["loop"] := by decide

end RandomDerivation.Grammar
