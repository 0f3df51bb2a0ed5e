import RandomDerivation.Proofs.Derivation.Filling
import RandomDerivation.Proofs.Derivation.Levels

/-!
# What a derivation depends on

A derivation only looks up what can be reached from the root, through the slots of one node after
the other. Two grammars with the same root that agree on this derive the same trees from the same
worlds, with the same faults. Neither the order in which names were registered nor anything out of
reach makes a difference.
-/

namespace RandomDerivation

/-- Tables with the same entries in another order have the same values. -/
theorem Table.find?_eq_of_perm {α : Type} {t t' : Table α} (h : t.entries.Perm t'.entries)
    (name : String) : t.find? name = t'.find? name := by
  apply Option.ext
  intro a
  rw [find?_eq_some_iff, find?_eq_some_iff, h.mem_iff]

namespace Grammar
variable {ρ μ : Type}

/-- The references that can be reached from the root through the slots of nodes. -/
inductive Reachable (g : Grammar ρ) : Reference → Prop where
  | start : Reachable g g.start
  | step {name : String} {d : NodeDefinition} {s : Slot} {r : Reference} :
    Reachable g ⟨.node, name⟩ → g.nodes.find? name = some d → s ∈ d.slots →
      .reference r ∈ s.items → Reachable g r

/-- Two grammars have the same root, and nodes and leaves that the first one can reach have the
same slots and the same generators in the second one. -/
structure Agrees (g g' : Grammar ρ) : Prop where
  root : g.root = g'.root
  rootKind : g.rootKind = g'.rootKind
  nodes : ∀ name, g.Reachable ⟨.node, name⟩ →
    (g.nodes.find? name).map NodeDefinition.slots = (g'.nodes.find? name).map NodeDefinition.slots
  leaves : ∀ name, g.Reachable ⟨.leaf, name⟩ →
    (g.leaves.find? name).map LeafGenerator.generator =
      (g'.leaves.find? name).map LeafGenerator.generator

theorem Agrees.of_perm {g g' : Grammar ρ} (hroot : g.root = g'.root)
    (hnodes : g.nodes.entries.Perm g'.nodes.entries)
    (hleaves : g.leaves.entries.Perm g'.leaves.entries) : g.Agrees g' where
  root := hroot
  rootKind := by
    have hcontains : g.nodes.contains g.root = g'.nodes.contains g'.root := by
      simp only [Table.contains, Table.find?_eq_of_perm hnodes, hroot]
    rw [Grammar.rootKind, Grammar.rootKind, hcontains]
  nodes name _ := by rw [Table.find?_eq_of_perm hnodes]
  leaves name _ := by rw [Table.find?_eq_of_perm hleaves]

variable [Produces ρ μ] {g g' : Grammar ρ}

/-- A slot is filled in the same way when its leaves make the same values. -/
theorem resolve_congr {s : Slot} (h : ∀ name, .reference ⟨.leaf, name⟩ ∈ s.items →
      (g.produceLeaf name : Action μ Tree) = g'.produceLeaf name) :
    (g.resolve s : Action μ Filling) = g'.resolve s := by
  induction s using resolve.induct with
  | case1 name => rw [resolve, resolve, h name (by simp [Slot.items])]
  | case2 name => rw [resolve, resolve]
  | case3 first others ih =>
    rw [resolve, resolve]
    congr 1
    funext i
    exact ih i fun name hitem => h name (Slot.mem_items_choice.2 ⟨i, hitem⟩)
  | case4 value => rw [resolve, resolve]

theorem resolveAll_congr {slots : List Slot}
    (h : ∀ s ∈ slots, ∀ name, .reference ⟨.leaf, name⟩ ∈ s.items →
      (g.produceLeaf name : Action μ Tree) = g'.produceLeaf name) :
    (g.resolveAll slots : Action μ (List Filling)) = g'.resolveAll slots := by
  induction slots with
  | nil => rfl
  | cons s rest ih =>
    obtain ⟨hs, hrest⟩ := List.forall_mem_cons.1 h
    rw [resolveAll, resolveAll, resolve_congr hs, ih hrest]

namespace Agrees

theorem produceLeaf_eq (h : g.Agrees g') {name : String} (hname : g.Reachable ⟨.leaf, name⟩) :
    (g.produceLeaf name : Action μ Tree) = g'.produceLeaf name := by
  have hgenerator := h.leaves name hname
  unfold produceLeaf
  cases hleaf : g.leaves.find? name with
  | none =>
    rw [hleaf, Option.map_none, eq_comm, Option.map_eq_none_iff] at hgenerator
    rw [hgenerator]
  | some leaf =>
    rw [hleaf, Option.map_some, eq_comm, Option.map_eq_some_iff] at hgenerator
    obtain ⟨leaf', hleaf', hgenerator⟩ := hgenerator
    rw [hleaf']
    simp only [hgenerator]

/-- Whatever can be reached is derived in the same way. -/
theorem grow_eq (h : g.Agrees g') {levels : Nat} {r : Reference} (hr : g.Reachable r) :
    (g.grow levels r : Action μ Tree) = g'.grow levels r := by
  induction levels generalizing r with
  | zero =>
    match r, hr with
    | ⟨.leaf, name⟩, hr => exact h.produceLeaf_eq hr
    | ⟨.node, name⟩, _ => rfl
  | succ levels ih =>
    match r, hr with
    | ⟨.leaf, name⟩, hr => exact h.produceLeaf_eq hr
    | ⟨.node, name⟩, hr =>
      have hslots := h.nodes name hr
      cases hd : g.nodes.find? name with
      | none =>
        rw [hd, Option.map_none, eq_comm, Option.map_eq_none_iff] at hslots
        simp only [grow, growWith, hd, hslots]
      | some d =>
        rw [hd, Option.map_some, eq_comm, Option.map_eq_some_iff] at hslots
        obtain ⟨d', hd', hslots⟩ := hslots
        -- The slots draw the same, since their leaves are within reach.
        have hresolve : (g.resolveAll d.slots : Action μ (List Filling)) =
            g'.resolveAll d.slots :=
          resolveAll_congr fun s hs name hitem => h.produceLeaf_eq (.step hr hd hs hitem)
        rw [grow_succ_node hd, grow_succ_node hd', hslots, ← hresolve]
        apply bind_congr_of_ok
        intro w fillings w' hfillings
        obtain ⟨-, hfills⟩ := fills_of_resolveAll hfillings
        have hchildren : fillings.mapM (Filling.complete (g.grow levels)) =
            fillings.mapM (Filling.complete (g'.grow levels)) := by
          apply mapM_congr
          intro filling hfilling
          obtain ⟨s, hs, hfill⟩ := exists_of_forall₂_of_mem_right hfills hfilling
          cases hfill with
          | leaf => rfl
          | node hitem => exact ih (.step hr hd hs hitem)
        rw [hchildren]

end Agrees

/-- Two grammars that agree on what can be reached from the root derive the same trees: from every
world both return the same tree or fail in the same way, and leave the same world behind. Grammars
that were registered in another order are such grammars. -/
theorem generate_eq_of_agrees (g g' : Grammar ρ) :
    (g.Agrees g' → ∀ bound, g.generate bound = (g'.generate bound : Action μ Tree)) ∧
      (g.root = g'.root → g.nodes.entries.Perm g'.nodes.entries →
        g.leaves.entries.Perm g'.leaves.entries →
          ∀ bound, g.generate bound = (g'.generate bound : Action μ Tree)) := by
  have hagrees : g.Agrees g' → ∀ bound, g.generate bound = (g'.generate bound : Action μ Tree) := by
    intro h bound
    have hstart : g'.start = g.start := by rw [start, start, h.root, h.rootKind]
    rw [generate_eq_grow, generate_eq_grow, hstart]
    exact h.grow_eq .start
  exact ⟨hagrees, fun hroot hnodes hleaves => hagrees (.of_perm hroot hnodes hleaves)⟩

/-- The grammar `nested` in another order, with a node out of reach that has become another one and
a leaf that only this node has. -/
def reordered : Grammar Producer where
  root := "branch"
  nodes := ⟨[
    ("loop", ⟨"loop", [.leaf "shade"]⟩),
    ("empty", ⟨"empty", []⟩),
    ("branch", ⟨"branch", [.leaf "color",
      .choice (.node "branch") [.choice (.node "empty") [.leaf "color"]]]⟩)], by decide⟩
  leaves := ⟨[
    ("shade", ⟨"shade", .const .null⟩),
    ("color", ⟨"color", .choice (.str "green") [.str "brown"]⟩)], by decide⟩
  checked := rfl

theorem generate_eq_of_agrees_reordered :
    nested.Agrees reordered ∧ (nested.generate 3 : Action Unit Tree) = reordered.generate 3 := by
  have hreachable : ∀ r, nested.Reachable r →
      r = ⟨.node, "branch"⟩ ∨ r = ⟨.node, "empty"⟩ ∨ r = ⟨.leaf, "color"⟩ := by
    intro r hr
    induction hr with
    | start => exact .inl rfl
    | step _ hd hs hitem ih =>
      rcases ih with heq | heq | heq
      · cases heq
        cases hd
        simp only [List.mem_cons, List.not_mem_nil, or_false] at hs
        rcases hs with rfl | rfl
        · exact .inr (.inr (by simpa [Slot.items] using hitem))
        · simpa [Slot.items, Slot.itemsOfAll] using hitem
      · cases heq
        cases hd
        cases hs
      · cases heq
  have hagrees : nested.Agrees reordered := by
    refine ⟨rfl, rfl, fun name hname => ?_, fun name hname => ?_⟩
    · rcases hreachable _ hname with heq | heq | heq <;> cases heq <;> rfl
    · rcases hreachable _ hname with heq | heq | heq <;> cases heq
      rfl
  exact ⟨hagrees, (generate_eq_of_agrees nested reordered).1 hagrees 3⟩

end Grammar

end RandomDerivation
