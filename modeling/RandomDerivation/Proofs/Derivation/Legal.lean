import RandomDerivation.Proofs.Derivation.Filling
import RandomDerivation.Proofs.Derivation.Levels
import RandomDerivation.Proofs.Tree.Walk

/-!
# Legal derivations

What a derived tree has to look like. Each position is derived from a reference and lies at some
depth; the two together decide between three roles. A leaf has a value that its generator made. A
node at a depth up to the bound is expanded: it has one child for each of its slots, each of them
derived from a reference of the slot. A node just below the bound is cut off.

Every tree that the machine returns is a legal derivation, with values that were made on the way.

## Main definitions

* `Grammar.Legal`: the legal derivations.
* `Role`, `Grammar.Plays`: the three roles of a position.
-/

namespace RandomDerivation
variable {ρ μ : Type}

namespace Grammar

/-- The trees that a reference at some depth may be derived to, when leaves make the given
values. -/
inductive Legal (g : Grammar ρ) (made : String × Json → Prop) (bound : Nat) :
    Nat → Reference → Tree → Prop where
  | leaf {depth : Nat} {name : String} {value : Json} :
    name ∈ g.leaves → made (name, value) →
      Legal g made bound depth ⟨.leaf, name⟩ (.node name value [])
  /-- One reference is taken from each slot, and one child derived from each reference. -/
  | expanded {depth : Nat} {name : String} {d : NodeDefinition} {references : List Reference}
      {children : List Tree} :
    depth ≤ bound → g.nodes.find? name = some d →
      List.Forall₂ (fun s r => r ∈ s.references) d.slots references →
      references.length = children.length →
      (∀ p ∈ references.zip children, Legal g made bound (depth + 1) p.1 p.2) →
      Legal g made bound depth ⟨.node, name⟩ (.node name .null children)
  | cutOff {name : String} :
    name ∈ g.nodes → Legal g made bound (bound + 1) ⟨.node, name⟩ (.node name .null [])

/-- A node is expanded to children that are legal derivations of references of its slots. -/
theorem Legal.of_forall₂ {g : Grammar ρ} {made : String × Json → Prop} {bound depth : Nat}
    {name : String} {d : NodeDefinition} {references : List Reference} {children : List Tree}
    (hdepth : depth ≤ bound) (hd : g.nodes.find? name = some d)
    (hslots : List.Forall₂ (fun s r => r ∈ s.references) d.slots references)
    (hchildren : List.Forall₂ (g.Legal made bound (depth + 1)) references children) :
    g.Legal made bound depth ⟨.node, name⟩ (.node name .null children) := by
  obtain ⟨hlength, hzip⟩ := List.forall₂_iff_zip.1 hchildren
  exact .expanded hdepth hd hslots hlength fun p hp => hzip hp

namespace Legal
variable {g : Grammar ρ} {made made' : String × Json → Prop} {bound depth : Nat} {r : Reference}
  {t : Tree}

theorem mono (h : g.Legal made bound depth r t) (hmade : ∀ call, made call → made' call) :
    g.Legal made' bound depth r t := by
  induction h with
  | leaf hname hvalue => exact .leaf hname (hmade _ hvalue)
  | expanded hdepth hd hslots hlength _ ih => exact .expanded hdepth hd hslots hlength ih
  | cutOff hname => exact .cutOff hname

theorem kind_eq (h : g.Legal made bound depth r t) : t.kind = r.name := by
  cases h <;> rfl

/-- Every position is a legal derivation of a reference at its own depth, and no position lies
deeper than just below the bound. -/
theorem of_mem_walk (h : g.Legal made bound depth r t) (hdepth : depth ≤ bound + 1)
    {p : Nat × Tree} (hp : p ∈ t.walk) :
    depth + p.1 ≤ bound + 1 ∧ ∃ r, g.Legal made bound (depth + p.1) r p.2 := by
  induction h generalizing p with
  | leaf hname hvalue =>
    obtain rfl | ⟨c, hc, -⟩ := Tree.mem_walk_node.1 hp
    · exact ⟨hdepth, _, .leaf hname hvalue⟩
    · simp at hc
  | @expanded depth name d references children hbound hd hslots hlength hchildren ih =>
    obtain rfl | ⟨c, hc, q, hq, rfl⟩ := Tree.mem_walk_node.1 hp
    · exact ⟨hdepth, _, .expanded hbound hd hslots hlength hchildren⟩
    · have hwalks : List.Forall₂ (fun _ c => ∀ {q : Nat × Tree}, q ∈ c.walk →
          depth + 1 + q.1 ≤ bound + 1 ∧ ∃ r, g.Legal made bound (depth + 1 + q.1) r q.2)
          references children :=
        List.forall₂_iff_zip.2 ⟨hlength, fun hzip => ih _ hzip (by omega)⟩
      obtain ⟨_, -, hc⟩ := exists_of_forall₂_of_mem_right hwalks hc
      have hdepths : depth + (q.1 + 1) = depth + 1 + q.1 := by omega
      rw [hdepths]
      exact hc hq
  | cutOff hname =>
    obtain rfl | ⟨c, hc, -⟩ := Tree.mem_walk_node.1 hp
    · exact ⟨hdepth, _, .cutOff hname⟩
    · simp at hc

/-- A position without children that is not cut off is a leaf or a node without slots. -/
theorem leaf_or_slotless (h : g.Legal made bound depth r t) (hdepth : depth ≤ bound)
    (hleaf : t.isLeaf = true) :
    (t.kind ∈ g.leaves ∧ made (t.kind, t.value)) ∨
      ∃ d, g.nodes.find? t.kind = some d ∧ d.slots = [] := by
  cases h with
  | leaf hname hvalue => exact .inl ⟨hname, hvalue⟩
  | expanded hbound hd hslots hlength hchildren =>
    have hchildren : _ = [] := List.isEmpty_iff.1 hleaf
    rw [Tree.children_node] at hchildren
    subst hchildren
    rw [List.eq_nil_of_length_eq_zero hlength] at hslots
    exact .inr ⟨_, hd, List.forall₂_nil_right_iff.1 hslots⟩
  | cutOff => omega

end Legal

end Grammar

/-- What a position of a derived tree is. -/
inductive Role where
  | leaf
  | expanded
  | cutOff

namespace Grammar

/-- What a position has to be like, in order to play a role. -/
def Plays (g : Grammar ρ) (made : String × Json → Prop) (bound depth : Nat) (r : Reference)
    (t : Tree) : Role → Prop
  | .leaf => r.kind = .leaf ∧ r.name ∈ g.leaves ∧ t.children = [] ∧ made (r.name, t.value)
  | .expanded =>
    r.kind = .node ∧ depth ≤ bound ∧ t.value = .null ∧
      ∃ d references, g.nodes.find? r.name = some d ∧
        List.Forall₂ (fun s r => r ∈ s.references) d.slots references ∧
        List.Forall₂ (g.Legal made bound (depth + 1)) references t.children
  | .cutOff =>
    r.kind = .node ∧ r.name ∈ g.nodes ∧ depth = bound + 1 ∧ t.value = .null ∧ t.children = []

/-- Each position of a legal derivation plays exactly one role. -/
theorem Legal.existsUnique_role {g : Grammar ρ} {made : String × Json → Prop}
    {bound depth : Nat} {r : Reference} {t : Tree} (h : g.Legal made bound depth r t) :
    ∃! role, g.Plays made bound depth r t role := by
  cases h with
  | leaf hname hvalue =>
    refine ⟨.leaf, ⟨rfl, hname, rfl, hvalue⟩, ?_⟩
    intro role hrole
    cases role with
    | leaf => rfl
    | expanded => cases hrole.1
    | cutOff => cases hrole.1
  | expanded hdepth hd hslots hlength hchildren =>
    have hlegal := List.forall₂_iff_zip.2 ⟨hlength, fun hzip => hchildren _ hzip⟩
    refine ⟨.expanded, ⟨rfl, hdepth, rfl, _, _, hd, hslots, hlegal⟩, ?_⟩
    intro role hrole
    cases role with
    | leaf => cases hrole.1
    | expanded => rfl
    | cutOff =>
      obtain ⟨-, -, hdepth', -⟩ := hrole
      omega
  | cutOff hname =>
    refine ⟨.cutOff, ⟨rfl, hname, rfl, rfl, rfl⟩, ?_⟩
    intro role hrole
    cases role with
    | leaf => cases hrole.1
    | expanded =>
      obtain ⟨-, hdepth, -⟩ := hrole
      omega
    | cutOff => rfl

/-! ## What the machine returns -/

variable [Produces ρ μ] {g : Grammar ρ}

/-- Children that are derived from legal fillings are legal, if `child` derives legal trees. -/
theorem legal_of_mapM {child : Reference → Action μ Tree} (bound depth : Nat)
    (hchild : ∀ {r w w' t}, isDefined g.nodes g.leaves r = true → child r w = .ok t w' →
      ∃ calls, g.History w calls w' ∧ g.Legal (· ∈ calls) bound depth r t)
    {calls : List (String × Json)} {slots : List Slot}
    (hslots : ∀ s ∈ slots, ∀ item ∈ s.items,
      ∃ r, item = .reference r ∧ isDefined g.nodes g.leaves r = true)
    {fillings : List Filling}
    (hfills : List.Forall₂ (fun s filling => s.Fills (· ∈ calls) filling) slots fillings)
    {w w' : World μ} {children : List Tree}
    (h : fillings.mapM (Filling.complete child) w = .ok children w') :
    ∃ later references, g.History w later w' ∧
      List.Forall₂ (fun s r => r ∈ s.references) slots references ∧
      List.Forall₂ (g.Legal (· ∈ calls ++ later) bound depth) references children := by
  induction hfills generalizing w children with
  | nil =>
    rw [List.mapM_nil, pure_eq_ok] at h
    obtain ⟨rfl, rfl⟩ := h
    exact ⟨[], [], .rest, .nil, .nil⟩
  | @cons s filling slots fillings hfill _ ih =>
    simp only [List.mapM_cons, bind_eq_ok, pure_eq_ok] at h
    obtain ⟨t, w₁, ht, rest, w₂, hrest, rfl, rfl⟩ := h
    obtain ⟨later, references, hlater, hreferences, hlegal⟩ :=
      ih (fun s hs => hslots s (by simp [hs])) hrest
    have hs := hslots s (by simp)
    have hreference : ∀ r, .reference r ∈ s.items → r ∈ s.references := by
      intro r hr
      apply (Slot.mem_references_iff _).2 hr
      intro item hitem
      obtain ⟨r, heq, -⟩ := hs item hitem
      exact ⟨r, heq⟩
    cases hfill with
    | @leaf name value hitem hvalue =>
      -- The value was made when the slot was filled: nothing happens now.
      obtain ⟨rfl, rfl⟩ := pure_eq_ok.1 ht
      obtain ⟨r, heq, hdefined⟩ := hs _ hitem
      cases heq
      refine ⟨later, ⟨.leaf, name⟩ :: references, hlater,
        .cons (hreference _ hitem) hreferences, .cons ?_ hlegal⟩
      exact .leaf (Table.contains_iff.1 hdefined) (List.mem_append_left _ hvalue)
    | @node name hitem =>
      obtain ⟨r, heq, hdefined⟩ := hs _ hitem
      cases heq
      obtain ⟨now, hnow, hlegalNow⟩ := hchild hdefined ht
      refine ⟨now ++ later, ⟨.node, name⟩ :: references, hnow.append hlater,
        .cons (hreference _ hitem) hreferences, .cons ?_ ?_⟩
      · apply hlegalNow.mono
        intro call hcall
        exact List.mem_append_right _ (List.mem_append_left _ hcall)
      · apply hlegal.imp
        intro r t hrt
        apply hrt.mono
        intro call hcall
        rcases List.mem_append.1 hcall with hearlier | hlater
        · exact List.mem_append_left _ hearlier
        · exact List.mem_append_right _ (List.mem_append_right _ hlater)

theorem legal_of_produceLeaf (bound depth : Nat) {name : String} {w w' : World μ} {t : Tree}
    (h : g.produceLeaf name w = .ok t w') :
    ∃ calls, g.History w calls w' ∧ g.Legal (· ∈ calls) bound depth ⟨.leaf, name⟩ t := by
  obtain ⟨leaf, value, hleaf, hvalue, rfl⟩ := produceLeaf_eq_ok.1 h
  exact ⟨[(name, value)], .call hleaf hvalue .rest, .leaf (Table.mem_of_find? hleaf) (by simp)⟩

/-- What is derived from a defined reference is legal, with values made on the way. -/
theorem legal_of_grow {bound depth levels : Nat} (hlevels : depth + levels = bound + 1)
    {r : Reference} (hr : isDefined g.nodes g.leaves r = true) {w w' : World μ} {t : Tree}
    (h : g.grow levels r w = .ok t w') :
    ∃ calls, g.History w calls w' ∧ g.Legal (· ∈ calls) bound depth r t := by
  induction levels generalizing depth r w w' t with
  | zero =>
    match r, hr with
    | ⟨.leaf, name⟩, hr => exact legal_of_produceLeaf bound depth h
    | ⟨.node, name⟩, hr =>
      obtain ⟨rfl, rfl⟩ := pure_eq_ok.1 h
      obtain rfl : depth = bound + 1 := hlevels
      exact ⟨[], .rest, .cutOff (Table.contains_iff.1 hr)⟩
  | succ levels ih =>
    match r, hr with
    | ⟨.leaf, name⟩, hr => exact legal_of_produceLeaf bound depth h
    | ⟨.node, name⟩, hr =>
      obtain ⟨d, hd⟩ := Table.exists_find?_of_mem (Table.contains_iff.1 hr)
      simp only [grow_succ_node hd, bind_eq_ok, pure_eq_ok] at h
      obtain ⟨fillings, w₁, hfillings, children, w₂, hchildren, rfl, rfl⟩ := h
      obtain ⟨hcalls, hfills⟩ := fills_of_resolveAll hfillings
      have hbelow : depth + 1 + levels = bound + 1 := by omega
      obtain ⟨later, references, hlater, hreferences, hlegal⟩ :=
        legal_of_mapM bound (depth + 1) (fun hr hw => ih hbelow hr hw)
          (fun s hs _ hitem => exists_reference_of_mem_items hd hs hitem) hfills hchildren
      exact ⟨_ ++ later, hcalls.append hlater,
        .of_forall₂ (by omega) hd hreferences hlegal⟩

/-- A tree of the grammar is a legal derivation of the root, and its leaves have values that were
made on the way. Every position plays exactly one role, no position lies deeper than just below
the bound, and a childless position within the bound is a leaf or a node without slots. -/
theorem legal_of_generate {bound : Nat} {w w' : World μ} {t : Tree}
    (h : g.generate bound w = .ok t w') :
    ∃ calls, g.History w calls w' ∧
      g.Legal (· ∈ calls) bound 0 ⟨g.rootKind, g.root⟩ t ∧
      (∀ p ∈ t.walk, ∃ r, r.name = p.2.kind ∧ g.Legal (· ∈ calls) bound p.1 r p.2 ∧
        ∃! role, g.Plays (· ∈ calls) bound p.1 r p.2 role) ∧
      t.height ≤ bound + 1 ∧
      ∀ p ∈ t.walk, p.2.isLeaf = true → p.1 ≤ bound →
        (p.2.kind ∈ g.leaves ∧ (p.2.kind, p.2.value) ∈ calls) ∨
          ∃ d, g.nodes.find? p.2.kind = some d ∧ d.slots = [] := by
  rw [generate_eq_grow] at h
  obtain ⟨calls, hcalls, hlegal⟩ := legal_of_grow (Nat.zero_add _) g.isDefined_start h
  have hwalk : ∀ p ∈ t.walk, p.1 ≤ bound + 1 ∧ ∃ r, g.Legal (· ∈ calls) bound p.1 r p.2 := by
    intro p hp
    simpa using hlegal.of_mem_walk (Nat.zero_le _) hp
  refine ⟨calls, hcalls, hlegal, ?_, ?_, ?_⟩
  · intro p hp
    obtain ⟨-, r, hr⟩ := hwalk p hp
    exact ⟨r, hr.kind_eq.symm, hr, hr.existsUnique_role⟩
  · apply Tree.height_le_iff.2
    intro p hp
    exact (hwalk p hp).1
  · intro p hp hleaf hdepth
    obtain ⟨-, r, hr⟩ := hwalk p hp
    exact hr.leaf_or_slotless hdepth hleaf

/-- A tree of `nested` with a node that is cut off. It stands in a choice inside a choice. -/
def cutOffTree : Tree :=
  .node "branch" .null [.node "color" (.str "green") [], .node "empty" .null []]

/-- One of the draws for the tree is repeated. -/
theorem generate_cutOffTree (rest : List UInt32) :
    nested.generate 0 ⟨.ofList (0 :: 0x80000000 :: 0x40000000 :: 0 :: rest), ()⟩ =
      .ok cutOffTree ⟨.ofList rest, ()⟩ := by
  have hstart : nested.start = ⟨.node, "branch"⟩ := rfl
  rw [generate_eq_grow, hstart, grow_succ_node nodes_nested]
  simp only [resolveAll, resolve, produceLeaf, leaves_nested]
  cbv

theorem legal_of_generate_cutOffTree :
    nested.generate 0 ⟨.ofList [0, 0x80000000, 0x40000000, 0], ()⟩ =
        .ok cutOffTree ⟨.ofList [], ()⟩ ∧
      ∃ calls : List (String × Json),
        nested.Legal (· ∈ calls) 0 0 ⟨.node, "branch"⟩ cutOffTree ∧ cutOffTree.height ≤ 1 := by
  have h := generate_cutOffTree []
  obtain ⟨calls, -, hlegal, -, hheight, -⟩ := legal_of_generate h
  exact ⟨h, calls, hlegal, hheight⟩

end Grammar

end RandomDerivation
