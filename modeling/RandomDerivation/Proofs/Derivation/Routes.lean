import RandomDerivation.Proofs.Derivation.Filling
import RandomDerivation.Proofs.Random.Attains

/-!
# Routes through slots

A choice leads to each of its alternatives, and these may be choices again. A route goes from a
slot through one choice after the other. What is listed for a slot stands where the routes through
it end, and to fill the slot is to go along one of them: each choice on the route draws once, and a
leaf makes a value only at the end. So the slot can be filled by what is listed for it and by
nothing else, with no more draws than there are choices inside one another.

## Main definitions

* `Slot.nesting`: how many choices stand inside one another.
* `Slot.Route`: the routes through a slot.
* `Slot.Descends`: routes that are drawn.
* `Grammar.Settles`: what becomes of the slot that a route has come to.
* `Returns`: leaf generators that some words make return.
-/

namespace RandomDerivation
variable {ρ μ : Type}

/-- The slot that holds a reference and nothing else. -/
def Reference.slot : Reference → Slot
  | ⟨.leaf, name⟩ => .leaf name
  | ⟨.node, name⟩ => .node name

namespace Slot

mutual

/-- How many choices stand inside one another. -/
def nesting : Slot → Nat
  | .choice first others => max first.nesting (nestingOfAll others) + 1
  | .leaf _ => 0
  | .node _ => 0
  | .foreign _ => 0

/-- How many choices stand inside one another in some of several slots. -/
def nestingOfAll : List Slot → Nat
  | [] => 0
  | s :: rest => max s.nesting (nestingOfAll rest)

end

theorem nesting_le_nestingOfAll {slots : List Slot} {s : Slot} (h : s ∈ slots) :
    s.nesting ≤ nestingOfAll slots := by
  induction slots with
  | nil => simp at h
  | cons first rest ih =>
    rw [nestingOfAll]
    rcases List.mem_cons.1 h with rfl | hrest
    · exact Nat.le_max_left _ _
    · exact Nat.le_trans (ih hrest) (Nat.le_max_right _ _)

/-- Alternatives have fewer choices inside one another than their choice. -/
theorem nesting_get_lt (first : Slot) (others : List Slot) (i : Fin (others.length + 1)) :
    ((first :: others).get i).nesting < (choice first others).nesting := by
  have hle := nesting_le_nestingOfAll (List.get_mem (first :: others) i)
  rw [nestingOfAll] at hle
  rw [nesting]
  omega

/-- The routes from one slot to another: each goes through choices only, and the list has the
numbers of the alternatives that it takes. -/
inductive Route : Slot → List Nat → Slot → Prop where
  | here {s : Slot} : Route s [] s
  | through {first last : Slot} {others : List Slot} {i : Fin (others.length + 1)}
      {path : List Nat} :
    Route ((first :: others).get i) path last → Route (.choice first others) (i :: path) last

/-- A route is no longer than the choices that it leaves behind allow. -/
theorem Route.length_add_nesting_le {s last : Slot} {path : List Nat} (h : s.Route path last) :
    path.length + last.nesting ≤ s.nesting := by
  induction h with
  | here => simp
  | @through first last others i path _ ih =>
    have hlt := nesting_get_lt first others i
    rw [List.length_cons]
    omega

/-- What is listed for a slot stands where the routes through it end. -/
theorem reference_mem_items_iff {s : Slot} {r : Reference} :
    .reference r ∈ s.items ↔ ∃ path, s.Route path r.slot := by
  constructor
  · intro h
    induction s using induction with
    | leaf name =>
      obtain rfl : r = ⟨.leaf, name⟩ := by simpa [items] using h
      exact ⟨[], .here⟩
    | node name =>
      obtain rfl : r = ⟨.node, name⟩ := by simpa [items] using h
      exact ⟨[], .here⟩
    | choice first others ih =>
      obtain ⟨i, hi⟩ := mem_items_choice.1 h
      obtain ⟨path, hpath⟩ := ih _ (List.get_mem _ i) hi
      exact ⟨i :: path, .through hpath⟩
    | foreign value => simp [items] at h
  · rintro ⟨path, h⟩
    generalize hlast : r.slot = last at h
    induction h with
    | here =>
      subst hlast
      obtain ⟨kind, name⟩ := r
      cases kind <;> simp [Reference.slot, items]
    | through _ ih => exact mem_items_choice.2 ⟨_, ih hlast⟩

/-! ## Drawing a route -/

/-- How draws lead along a route, from one world to another: each choice on the route draws once,
and what it draws is the number of the alternative that is taken. -/
inductive Descends : Slot → World μ → List Nat → Slot → World μ → Prop where
  | here {s : Slot} {w : World μ} : Descends s w [] s w
  | draw {first last : Slot} {others : List Slot} {i : Fin (others.length + 1)}
      {path : List Nat} {w w₁ w' : World μ} :
    RandomDerivation.draw (Draw.below (others.length + 1)) w = .ok i w₁ →
      Descends ((first :: others).get i) w₁ path last w' →
      Descends (.choice first others) w (i :: path) last w'

theorem Descends.route {s last : Slot} {path : List Nat} {w w' : World μ}
    (h : s.Descends w path last w') : s.Route path last := by
  induction h with
  | here => exact .here
  | draw _ _ ih => exact .through ih

/-- Every route can be drawn, with words that are all read. -/
theorem Route.exists_words {s last : Slot} {path : List Nat} (h : s.Route path last)
    (memory : μ) (spare : Option Float) :
    ∃ words spare', ∀ rest, s.Descends (World.around memory ⟨.listed (words ++ rest), spare⟩) path
      last (World.around memory ⟨.listed rest, spare'⟩) := by
  induction h generalizing spare with
  | here => exact ⟨[], spare, fun _ => .here⟩
  | @through first last others i path _ ih =>
    have hattains : Attains (World.around memory) _ _ := (attains_below i).draw
    obtain ⟨words, _, spare₁, rfl, hdraw⟩ := hattains spare
    obtain ⟨later, spare', hlater⟩ := ih spare₁
    refine ⟨words ++ later, spare', fun rest => .draw ?_ (hlater rest)⟩
    rw [List.append_assoc]
    exact hdraw _

end Slot

variable [Produces ρ μ]

/-- Whatever the generators remember and whatever the source keeps, some words make the generator
return. -/
def Returns (generator : ρ) : Prop :=
  ∀ (memory : μ) (spare : Option Float), ∃ words value w',
    Produces.produce generator (World.around memory ⟨.listed words, spare⟩) = .ok value w'

theorem Producer.returns (p : Producer) : Returns p := by
  intro memory spare
  have hattains : Attains (World.around memory) _ _ := p.attains_any.draw
  obtain ⟨words, value, spare', -, hrun⟩ := hattains spare
  exact ⟨words ++ [], value, _, hrun []⟩

namespace Grammar
variable {g : Grammar ρ} {s last : Slot} {path : List Nat} {w w₁ w' : World μ}

/-- What becomes of the slot that a route has come to, in the world behind the draws of the route.
A leaf calls its generator, which makes a value or fails; a node stays a reference. A route ends at
a choice only if no alternative can be drawn there. -/
inductive Settles (g : Grammar ρ) (w : World μ) :
    Slot → EStateM.Result Fault (World μ) Filling → Prop where
  | value {name : String} {leaf : LeafGenerator ρ} {value : Json} {w' : World μ} :
    g.leaves.find? name = some leaf → Produces.produce leaf.generator w = .ok value w' →
      Settles g w (.leaf name) (.ok (.tree (.node name value [])) w')
  | noValue {name : String} {leaf : LeafGenerator ρ} {f : Fault} {w' : World μ} :
    g.leaves.find? name = some leaf → Produces.produce leaf.generator w = .error f w' →
      Settles g w (.leaf name) (.error f w')
  | node {name : String} : Settles g w (.node name) (.ok (.pending ⟨.node, name⟩) w)
  | noAlternative {first : Slot} {others : List Slot} {f : Fault} {w' : World μ} :
    draw (Draw.below (others.length + 1)) w = .error f w' →
      Settles g w (.choice first others) (.error f w')

/-- What a slot is filled by tells where its route has ended. -/
theorem Settles.slot_eq {s' : Slot} {filling : Filling} (h : g.Settles w s (.ok filling w'))
    (h' : g.Settles w₁ s' (.ok filling w')) : s = s' := by
  cases h <;> cases h' <;> rfl

theorem resolve_leaf_run {name : String} {leaf : LeafGenerator ρ}
    (hleaf : g.leaves.find? name = some leaf) (w : World μ) :
    g.resolve (.leaf name) w =
      match Produces.produce leaf.generator w with
      | .ok value w' => .ok (.tree (.node name value [])) w'
      | .error f w' => .error f w' := by
  simp only [resolve, produceLeaf, hleaf, bind_run]
  cases Produces.produce leaf.generator w <;> rfl

/-- Draws along a route leave the rest of the filling to the slot where it ends. -/
theorem resolve_eq_of_descends (h : s.Descends w path last w₁) :
    g.resolve s w = g.resolve last w₁ := by
  induction h with
  | here => rfl
  | draw hdraw _ ih => rw [resolve, bind_run_of_ok hdraw, ih]

/-- A slot is filled along a route that is drawn, by what becomes of the slot at its end. -/
theorem exists_settles (hs : ∀ item ∈ s.items,
      ∃ r, item = .reference r ∧ (r.kind = .leaf → r.name ∈ g.leaves)) (w : World μ) :
    ∃ path last w₁, s.Descends w path last w₁ ∧ g.Settles w₁ last (g.resolve s w) := by
  induction s using resolve.induct generalizing w with
  | case1 name =>
    obtain ⟨_, ⟨⟩, hname⟩ := hs (.reference ⟨.leaf, name⟩) (by simp [Slot.items])
    obtain ⟨leaf, hleaf⟩ := Table.exists_find?_of_mem (hname rfl)
    refine ⟨[], _, w, .here, ?_⟩
    rw [resolve_leaf_run hleaf]
    cases hvalue : Produces.produce leaf.generator w with
    | ok value w' => exact .value hleaf hvalue
    | error f w' => exact .noValue hleaf hvalue
  | case2 name =>
    rw [resolve]
    exact ⟨[], _, w, .here, .node⟩
  | case3 first others ih =>
    rw [resolve]
    cases hdraw : draw (Draw.below (others.length + 1)) w with
    | error f w' =>
      rw [bind_run_of_error hdraw]
      exact ⟨[], _, w, .here, .noAlternative hdraw⟩
    | ok i w₁ =>
      have hitems : ∀ item ∈ ((first :: others).get i).items,
          ∃ r, item = .reference r ∧ (r.kind = .leaf → r.name ∈ g.leaves) := by
        intro item hitem
        exact hs item (Slot.mem_items_choice.2 ⟨i, hitem⟩)
      obtain ⟨path, last, w', hdescends, hsettles⟩ := ih i hitems w₁
      rw [bind_run_of_ok hdraw]
      exact ⟨i :: path, last, w', .draw hdraw hdescends, hsettles⟩
  | case4 value =>
    obtain ⟨r, heq, -⟩ := hs (.foreign value) (by simp [Slot.items])
    cases heq

/-- Some source fills a slot by what stands at the end of a route, if a leaf there returns. -/
theorem exists_source_of_route {r : Reference} (h : s.Route path r.slot)
    (hr : r.kind = .leaf → ∃ leaf, g.leaves.find? r.name = some leaf ∧ Returns leaf.generator)
    (memory : μ) :
    ∃ source filling w₁ w', g.resolve s ⟨source, memory⟩ = .ok filling w' ∧
      g.Settles w₁ r.slot (.ok filling w') := by
  obtain ⟨words, spare', hdescends⟩ := h.exists_words memory none
  match r with
  | ⟨.node, name⟩ =>
    refine ⟨⟨.listed (words ++ []), none⟩, _, World.around memory ⟨.listed [], spare'⟩, _, ?_,
      .node⟩
    refine (resolve_eq_of_descends (hdescends [])).trans ?_
    rw [Reference.slot, resolve]
    rfl
  | ⟨.leaf, name⟩ =>
    obtain ⟨leaf, hleaf, hreturns⟩ := hr rfl
    obtain ⟨later, value, w', hvalue⟩ := hreturns memory spare'
    refine ⟨⟨.listed (words ++ later), none⟩, _, _, w', ?_, .value hleaf hvalue⟩
    refine (resolve_eq_of_descends (hdescends later)).trans ?_
    rw [Reference.slot, resolve_leaf_run hleaf, hvalue]

/-- A reference is listed for a slot without foreign values exactly when some source fills the slot
by it: a node as a reference that is still to be derived, a leaf by a value of its generator. And
every source fills the slot along a route, with one draw for each choice on it and so with no more
draws than there are choices inside one another, and with at most one call, which is made at the
end. The leaves of the slot are defined and their generators return. -/
theorem resolve_agrees_references (hs : s.IsNative)
    (hleaves : ∀ name, ⟨.leaf, name⟩ ∈ s.references →
      ∃ leaf, g.leaves.find? name = some leaf ∧ Returns leaf.generator) :
    (∀ (memory : μ) (r : Reference), r ∈ s.references ↔
      ∃ source filling w₁ w', g.resolve s ⟨source, memory⟩ = .ok filling w' ∧
        g.Settles w₁ r.slot (.ok filling w')) ∧
    ∀ w : World μ, ∃ path last w₁, s.Descends w path last w₁ ∧
      path.length + last.nesting ≤ s.nesting ∧ g.Settles w₁ last (g.resolve s w) := by
  have hitems : ∀ item ∈ s.items,
      ∃ r, item = .reference r ∧ (r.kind = .leaf → r.name ∈ g.leaves) := by
    intro item hitem
    obtain ⟨⟨kind, name⟩, rfl⟩ := hs item hitem
    refine ⟨_, rfl, ?_⟩
    rintro rfl
    obtain ⟨leaf, hleaf, -⟩ := hleaves name ((Slot.mem_references_iff hs).2 hitem)
    exact Table.mem_of_find? hleaf
  refine ⟨fun memory r => ⟨fun hr => ?_, ?_⟩, fun w => ?_⟩
  · obtain ⟨path, hpath⟩ := Slot.reference_mem_items_iff.1 (Slot.reference_mem_of_mem_split hr)
    refine exists_source_of_route hpath ?_ memory
    obtain ⟨kind, name⟩ := r
    rintro rfl
    exact hleaves name hr
  · rintro ⟨source, filling, w₁, w', hfilling, hsettles⟩
    obtain ⟨path, last, w₂, hdescends, hlast⟩ := exists_settles hitems ⟨source, memory⟩
    rw [hfilling] at hlast
    rw [hlast.slot_eq hsettles] at hdescends
    exact (Slot.mem_references_iff hs).2 (Slot.reference_mem_items_iff.2 ⟨path, hdescends.route⟩)
  · obtain ⟨path, last, w₁, hdescends, hsettles⟩ := exists_settles hitems w
    exact ⟨path, last, w₁, hdescends, hdescends.route.length_add_nesting_le, hsettles⟩

/-- A slot with three choices inside one another, one of which has a single alternative. -/
def threeChoices : Slot :=
  .choice (.node "branch") [.choice (.choice (.leaf "color") []) [.node "empty"]]

/-- The leaf stands behind all three choices. -/
theorem resolve_agrees_references_threeChoices :
    threeChoices.IsNative ∧
      (∀ name, ⟨.leaf, name⟩ ∈ threeChoices.references →
        ∃ leaf, nested.leaves.find? name = some leaf ∧ Returns leaf.generator) ∧
      threeChoices.nesting = 3 ∧
      ∃ source filling w₁ w', nested.resolve threeChoices ⟨source, ()⟩ = .ok filling w' ∧
        nested.Settles w₁ (.leaf "color") (.ok filling w') := by
  have hnative : threeChoices.IsNative := by
    simp [threeChoices, Slot.isNative_choice]
  have hleaves : ∀ name, ⟨.leaf, name⟩ ∈ threeChoices.references →
      ∃ leaf, nested.leaves.find? name = some leaf ∧ Returns leaf.generator := by
    intro name hname
    have hitem := Slot.reference_mem_of_mem_split hname
    obtain rfl : name = "color" := by simpa [threeChoices, Slot.items, Slot.itemsOfAll] using hitem
    exact ⟨_, rfl, Producer.returns _⟩
  obtain ⟨hlisted, -⟩ := resolve_agrees_references hnative hleaves
  exact ⟨hnative, hleaves, rfl, (hlisted () ⟨.leaf, "color"⟩).1 (by decide)⟩

end Grammar

end RandomDerivation
