import RandomDerivation.Proofs.Derivation.Legal
import RandomDerivation.Proofs.Random.Attains

/-!
# Every legal derivation can be derived

Which trees some words of a random source make the machine return. All slots of a node are filled
before its children are derived, so the words of a tree are those of its slots, one slot after the
other, followed by the words of its children. A slot can be filled by any of its references, by
way of the choices that lead to it.
-/

namespace RandomDerivation.Grammar
variable {ρ μ : Type} [Produces ρ μ] {memory : μ} {g : Grammar ρ}

section Choose
variable {child : Reference → Action μ Tree}

/-- A slot can be filled by whatever stands in it, so that what can be derived from a reference
in the slot can be derived from the filling. -/
theorem attains_resolve (hleaf : ∀ name, child ⟨.leaf, name⟩ = g.produceLeaf name)
    {s : Slot} {r : Reference} (hr : .reference r ∈ s.items) {P : Tree → Prop}
    (hchild : Attains (World.around memory) (child r) P) :
    Attains (World.around memory) (g.resolve s) fun filling =>
      Attains (World.around memory) (filling.complete child) P := by
  induction s using resolve.induct with
  | case1 name =>
    obtain rfl : r = ⟨.leaf, name⟩ := by simpa [Slot.items] using hr
    rw [resolve]
    rw [hleaf] at hchild
    exact hchild.bind fun t ht => Attains.pure (Attains.pure ht)
  | case2 name =>
    obtain rfl : r = ⟨.node, name⟩ := by simpa [Slot.items] using hr
    rw [resolve]
    exact Attains.pure hchild
  | case3 first others ih =>
    obtain ⟨i, hi⟩ := Slot.mem_items_choice.1 hr
    rw [resolve]
    refine (attains_below i).draw.bind ?_
    rintro j rfl
    exact ih j hi
  | case4 value => simp [Slot.items] at hr

/-- Slots can be filled so that what is wanted from each can be derived. -/
theorem attains_resolveAll (hleaf : ∀ name, child ⟨.leaf, name⟩ = g.produceLeaf name)
    {slots : List Slot} {wanted : List (Tree → Prop)}
    (h : List.Forall₂ (fun s P => ∃ r, .reference r ∈ s.items ∧
      Attains (World.around memory) (child r) P) slots wanted) :
    Attains (World.around memory) (g.resolveAll slots) fun fillings =>
      List.Forall₂ (fun filling P => Attains (World.around memory) (filling.complete child) P)
        fillings wanted := by
  induction h with
  | nil => exact Attains.pure .nil
  | cons hhead _ ih =>
    obtain ⟨r, hr, hchild⟩ := hhead
    rw [resolveAll]
    apply (attains_resolve hleaf hr hchild).bind
    intro filling hfilling
    apply ih.bind
    intro fillings hfillings
    exact Attains.pure (.cons hfilling hfillings)

/-- What can be derived from each of several fillings can be derived from all of them. -/
theorem attains_mapM {fillings : List Filling} {wanted : List (Tree → Prop)}
    (h : List.Forall₂ (fun filling P => Attains (World.around memory) (filling.complete child) P)
      fillings wanted) :
    Attains (World.around memory) (fillings.mapM (Filling.complete child)) fun ts =>
      List.Forall₂ (fun P t => P t) wanted ts := by
  induction h with
  | nil => exact Attains.pure .nil
  | cons hhead _ ih =>
    rw [List.mapM_cons]
    apply hhead.bind
    intro t ht
    apply ih.bind
    intro ts hts
    exact Attains.pure (.cons ht hts)

end Choose

/-- The children of a node can be chosen one by one: for each slot a reference that stands in it,
and anything that can be derived from the reference. -/
theorem attains_grow_node {levels : Nat} {name : String} {d : NodeDefinition}
    (hd : g.nodes.find? name = some d) {wanted : List (Tree → Prop)}
    (h : List.Forall₂ (fun s P => ∃ r, .reference r ∈ s.items ∧
      Attains (World.around memory) (g.grow levels r) P) d.slots wanted) :
    Attains (World.around memory) (g.grow (levels + 1) ⟨.node, name⟩) fun t =>
      ∃ children, t = .node name .null children ∧
        List.Forall₂ (fun P c => P c) wanted children := by
  rw [grow_succ_node hd]
  apply (attains_resolveAll (g.grow_leaf levels) h).bind
  intro fillings hfillings
  apply (attains_mapM hfillings).bind
  intro children hchildren
  exact Attains.pure ⟨children, rfl, hchildren⟩

/-- Whether a leaf of the grammar can make a value. -/
def Makes (g : Grammar Producer) (call : String × Json) : Prop :=
  ∃ leaf, g.leaves.find? call.1 = some leaf ∧ leaf.generator.Makes call.2

/-- Every legal derivation of a reference can be derived. -/
theorem attains_grow_of_legal {g : Grammar Producer} {bound depth : Nat} {r : Reference} {t : Tree}
    (h : g.Legal g.Makes bound depth r t) {levels : Nat} (hlevels : depth + levels = bound + 1) :
    Attains (World.around ()) (g.grow levels r) (· = t) := by
  induction h generalizing levels with
  | @leaf depth name value _ hvalue =>
    obtain ⟨leaf, hleaf, hmakes⟩ := hvalue
    simp only [grow_leaf, produceLeaf, hleaf]
    refine (Producer.attains hmakes).draw.bind ?_
    rintro _ rfl
    exact Attains.pure rfl
  | @expanded depth name d references children hdepth hd hslots hlength _ ih =>
    obtain ⟨levels, rfl⟩ : ∃ below, levels = below + 1 := ⟨levels - 1, by omega⟩
    have hchildren : List.Forall₂ (fun r c => Attains (World.around ()) (g.grow levels r) (· = c))
        references children :=
      List.forall₂_iff_zip.2 ⟨hlength, fun hzip => ih _ hzip (by omega)⟩
    have hwanted : List.Forall₂ (fun s P => ∃ r, .reference r ∈ s.items ∧
        Attains (World.around ()) (g.grow levels r) P) d.slots
          (children.map fun c => (· = c)) := by
      rw [List.forall₂_map_right_iff]
      have hitems := hslots.imp fun s r hr => Slot.reference_mem_of_mem_split hr
      exact forall₂_comp hitems hchildren
    refine (attains_grow_node hd hwanted).mono ?_
    rintro _ ⟨derived, rfl, hderived⟩
    rw [List.forall₂_map_left_iff] at hderived
    have heq : List.Forall₂ (· = ·) derived children := hderived.flip
    rw [List.forall₂_eq_eq_eq] at heq
    rw [heq]
  | cutOff =>
    obtain rfl : levels = 0 := by omega
    exact Attains.pure rfl

/-- Every legal derivation of the root can be derived: some words make the machine return exactly
this tree, and no word is left. The leaves may have any of the values that they can make. -/
theorem exists_words_of_legal {g : Grammar Producer} {bound : Nat} {t : Tree}
    (h : g.Legal g.Makes bound 0 ⟨g.rootKind, g.root⟩ t) :
    ∃ words w', g.generate bound ⟨.ofList words, ()⟩ = .ok t w' ∧ w'.source.words = .listed [] := by
  have hgrow := attains_grow_of_legal h (Nat.zero_add (bound + 1))
  obtain ⟨words, _, spare, rfl, hrun⟩ := hgrow none
  refine ⟨words, ⟨⟨.listed [], spare⟩, ()⟩, ?_, rfl⟩
  have hrun := hrun []
  rw [List.append_nil] at hrun
  rw [generate_eq_grow]
  exact hrun

/-- The words reach the node behind two choices. -/
theorem exists_words_of_legal_cutOffTree :
    nested.Legal nested.Makes 0 0 ⟨nested.rootKind, nested.root⟩ cutOffTree ∧
      ∃ words w', nested.generate 0 ⟨.ofList words, ()⟩ = .ok cutOffTree w' ∧
        w'.source.words = .listed [] := by
  have hcolor : nested.Legal nested.Makes 0 1 ⟨.leaf, "color"⟩ (.node "color" (.str "green") []) :=
    .leaf (by decide) ⟨_, rfl, .choice (by simp)⟩
  have hempty : nested.Legal nested.Makes 0 1 ⟨.node, "empty"⟩ (.node "empty" .null []) :=
    .cutOff (by decide)
  have hlegal : nested.Legal nested.Makes 0 0 ⟨nested.rootKind, nested.root⟩ cutOffTree :=
    .of_forall₂ (by decide) rfl (.cons (by decide) (.cons (by decide) .nil))
      (.cons hcolor (.cons hempty .nil))
  exact ⟨hlegal, exists_words_of_legal hlegal⟩

end RandomDerivation.Grammar
