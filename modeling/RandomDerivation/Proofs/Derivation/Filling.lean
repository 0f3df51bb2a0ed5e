import Mathlib.Data.List.Forall2
import RandomDerivation.Derivation.Resolution
import RandomDerivation.Proofs.Action
import RandomDerivation.Proofs.Grammar.Checked
import RandomDerivation.Proofs.Slot

/-!
# What fills a slot

A derivation touches the world in two ways only: a choice draws a number, and a leaf makes a
value. A history lists the values that were made between two worlds, in order. Every slot that is
filled is filled by something that stands in it: by a leaf of the slot with a value of the
history, or by a reference to a node of the slot.
-/

namespace RandomDerivation
variable {ρ μ : Type} [Produces ρ μ]

/-- In two lists that agree place by place, what stands in the second has a partner in the
first. -/
theorem exists_of_forall₂_of_mem_right {α β : Type} {R : α → β → Prop} {xs : List α}
    {ys : List β} (h : List.Forall₂ R xs ys) {y : β} (hy : y ∈ ys) : ∃ x ∈ xs, R x y := by
  induction h with
  | nil => simp at hy
  | cons hhead _ ih =>
    rcases List.mem_cons.1 hy with rfl | hlater
    · exact ⟨_, by simp, hhead⟩
    · obtain ⟨x, hx, hxy⟩ := ih hlater
      exact ⟨x, by simp [hx], hxy⟩

/-- Two agreements place by place can be put one behind the other. -/
theorem forall₂_comp {α β γ : Type} {R : α → β → Prop} {S : β → γ → Prop} {xs : List α}
    {ys : List β} {zs : List γ} (h : List.Forall₂ R xs ys) (h' : List.Forall₂ S ys zs) :
    List.Forall₂ (fun x z => ∃ y, R x y ∧ S y z) xs zs := by
  induction h generalizing zs with
  | nil =>
    cases h'
    exact .nil
  | cons hhead _ ih =>
    cases h' with
    | cons hhead' htail' => exact .cons ⟨_, hhead, hhead'⟩ (ih htail')

/-- How draws and leaf values lead from one world to another. The list has the leaf values with
the names of their leaves, in the order in which they were made. -/
inductive Grammar.History (g : Grammar ρ) :
    World μ → List (String × Json) → World μ → Prop where
  | rest {w : World μ} : History g w [] w
  /-- A choice draws one of `n` numbers. -/
  | draw {w w₁ w' : World μ} {calls : List (String × Json)} {n : Nat} {i : Fin n} :
    RandomDerivation.draw (Draw.below n) w = .ok i w₁ → History g w₁ calls w' →
      History g w calls w'
  /-- A leaf makes a value. -/
  | call {w w₁ w' : World μ} {calls : List (String × Json)} {name : String}
      {leaf : LeafGenerator ρ} {value : Json} :
    g.leaves.find? name = some leaf → Produces.produce leaf.generator w = .ok value w₁ →
      History g w₁ calls w' → History g w ((name, value) :: calls) w'

theorem Grammar.History.append {g : Grammar ρ} {w w₁ w' : World μ}
    {calls later : List (String × Json)} (h : g.History w calls w₁)
    (h' : g.History w₁ later w') : g.History w (calls ++ later) w' := by
  induction h with
  | rest => exact h'
  | draw hdraw _ ih => exact .draw hdraw (ih h')
  | call hleaf hcall _ ih => exact .call hleaf hcall (ih h')

/-- The leaf value that was made to fill a slot, if one was. -/
def Filling.made : Filling → List (String × Json)
  | .tree t => [(t.kind, t.value)]
  | .pending _ => []

namespace Slot

/-- The fillings that a slot can have when leaves make the given values. -/
inductive Fills (made : String × Json → Prop) (s : Slot) : Filling → Prop where
  | leaf {name : String} {value : Json} :
    .reference ⟨.leaf, name⟩ ∈ s.items → made (name, value) →
      Fills made s (.tree (.node name value []))
  | node {name : String} :
    .reference ⟨.node, name⟩ ∈ s.items → Fills made s (.pending ⟨.node, name⟩)

theorem Fills.mono {made made' : String × Json → Prop} {s s' : Slot} {filling : Filling}
    (h : s.Fills made filling) (hmade : ∀ call, made call → made' call)
    (hitems : s.items ⊆ s'.items) : s'.Fills made' filling := by
  cases h with
  | leaf hitem hvalue => exact .leaf (hitems hitem) (hmade _ hvalue)
  | node hitem => exact .node (hitems hitem)

end Slot

namespace Grammar

theorem produceLeaf_eq_ok {g : Grammar ρ} {name : String} {w w' : World μ} {t : Tree} :
    g.produceLeaf name w = .ok t w' ↔
      ∃ leaf value, g.leaves.find? name = some leaf ∧
        Produces.produce leaf.generator w = .ok value w' ∧ t = .node name value [] := by
  cases h : g.leaves.find? name with
  | none => simp [produceLeaf, h]
  | some leaf =>
    simp only [produceLeaf, h, bind_eq_ok, pure_eq_ok]
    constructor
    · rintro ⟨value, w₁, hvalue, rfl, rfl⟩
      exact ⟨leaf, value, rfl, hvalue, rfl⟩
    · rintro ⟨_, value, hleaf, hvalue, rfl⟩
      cases hleaf
      exact ⟨value, w', hvalue, rfl, rfl⟩

section
variable {s s' : Source}

/-- A choice is filled as the alternative that is drawn. -/
theorem resolve_choice_of_below (g : Grammar ρ) (first : Slot) (others : List Slot)
    {i : Fin (others.length + 1)} (h : Draw.below (others.length + 1) s = .ok i s') (memory : μ) :
    g.resolve (.choice first others) ⟨s, memory⟩ =
      g.resolve ((first :: others).get i) ⟨s', memory⟩ := by
  rw [resolve, bind_run_of_ok (draw_of_ok h memory)]

/-- A leaf with several values gets the one that is drawn. -/
theorem produceLeaf_of_below {g : Grammar Producer} {name : String} {first : Json}
    {others : List Json} (hleaf : g.leaves.find? name = some ⟨name, .choice first others⟩)
    {i : Fin (others.length + 1)} (h : Draw.below (others.length + 1) s = .ok i s') :
    g.produceLeaf name ⟨s, ()⟩ = .ok (.node name ((first :: others).get i) []) ⟨s', ()⟩ := by
  have hmember : Draw.member first others s = .ok ((first :: others).get i) s' :=
    bind_run_of_ok h _
  exact produceLeaf_eq_ok.2 ⟨_, _, hleaf, draw_of_ok hmember (), rfl⟩

end

/-- A slot is filled by something that stands in it, with at most one call. -/
theorem fills_of_resolve {g : Grammar ρ} {s : Slot} {w w' : World μ} {filling : Filling}
    (h : g.resolve s w = .ok filling w') :
    g.History w filling.made w' ∧ s.Fills (· ∈ filling.made) filling := by
  induction s using resolve.induct generalizing w with
  | case1 name =>
    rw [resolve, bind_eq_ok] at h
    obtain ⟨t, w₁, ht, hfilling⟩ := h
    obtain ⟨leaf, value, hleaf, hvalue, rfl⟩ := produceLeaf_eq_ok.1 ht
    obtain ⟨rfl, rfl⟩ := pure_eq_ok.1 hfilling
    exact ⟨.call hleaf hvalue .rest, .leaf (by simp [Slot.items]) (by simp [Filling.made])⟩
  | case2 name =>
    rw [resolve, pure_eq_ok] at h
    obtain ⟨rfl, rfl⟩ := h
    exact ⟨.rest, .node (by simp [Slot.items])⟩
  | case3 first others ih =>
    rw [resolve, bind_eq_ok] at h
    obtain ⟨i, w₁, hdraw, hfilling⟩ := h
    obtain ⟨hcalls, hfills⟩ := ih i hfilling
    have hitems : ((first :: others).get i).items ⊆ (Slot.choice first others).items := by
      intro item hitem
      exact Slot.mem_items_choice.2 ⟨i, hitem⟩
    exact ⟨.draw hdraw hcalls, hfills.mono (fun _ => id) hitems⟩
  | case4 value =>
    rw [resolve] at h
    cases h

/-- The slots of a node are filled by what stands in them, from left to right. -/
theorem fills_of_resolveAll {g : Grammar ρ} {slots : List Slot} {w w' : World μ}
    {fillings : List Filling} (h : g.resolveAll slots w = .ok fillings w') :
    g.History w (fillings.flatMap Filling.made) w' ∧
      List.Forall₂ (fun s filling => s.Fills (· ∈ fillings.flatMap Filling.made) filling)
        slots fillings := by
  induction slots generalizing w fillings with
  | nil =>
    rw [resolveAll, pure_eq_ok] at h
    obtain ⟨rfl, rfl⟩ := h
    exact ⟨.rest, .nil⟩
  | cons s rest ih =>
    simp only [resolveAll, bind_eq_ok, pure_eq_ok] at h
    obtain ⟨filling, w₁, hfilling, later, w₂, hlater, rfl, rfl⟩ := h
    obtain ⟨hcalls, hfills⟩ := fills_of_resolve hfilling
    obtain ⟨hcallsLater, hfillsLater⟩ := ih hlater
    rw [List.flatMap_cons]
    refine ⟨hcalls.append hcallsLater, .cons ?_ ?_⟩
    · apply hfills.mono _ (List.Subset.refl _)
      intro call hcall
      exact List.mem_append_left _ hcall
    · apply hfillsLater.imp
      intro s filling hfill
      apply hfill.mono _ (List.Subset.refl _)
      intro call hcall
      exact List.mem_append_right _ hcall

/-- What is still to be derived below a node is a node of the grammar. -/
theorem pending_of_resolveAll {g : Grammar ρ} {name : String} {d : NodeDefinition}
    (hd : g.nodes.find? name = some d) {w w' : World μ} {fillings : List Filling}
    (h : g.resolveAll d.slots w = .ok fillings w') {r : Reference}
    (hr : .pending r ∈ fillings) : r.kind = .node ∧ r.name ∈ g.nodes := by
  obtain ⟨-, hfills⟩ := fills_of_resolveAll h
  obtain ⟨s, hs, hfill⟩ := exists_of_forall₂_of_mem_right hfills hr
  cases hfill with
  | node hitem =>
    exact ⟨rfl, Table.contains_iff.1 (isDefined_of_mem_items hd hs hitem)⟩

end Grammar

end RandomDerivation
