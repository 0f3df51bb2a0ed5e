import RandomDerivation.Proofs.Derivation.Budget

/-!
# Names that a caller asks for

A tree can be asked for by a name, which is expanded or cut off at once, and the caller may say
what the name stands for. Unlike the references of a grammar, such a name has not been checked. To
expand it is to look it up, and so is to cut off a leaf; whatever is below it has been checked. A
name that the caller calls a node is not looked up when it is cut off: it gets a tree without
children, whether there is such a node or not.
-/

namespace RandomDerivation.Grammar
variable {ρ μ : Type}

/-- A name is not defined as what the caller says, or not at all if the caller says nothing. -/
def Lacks (g : Grammar ρ) (name : String) : Option Kind → Prop
  | none => name ∉ g.nodes ∧ name ∉ g.leaves
  | some .node => name ∉ g.nodes
  | some .leaf => name ∉ g.leaves

/-- The fault of a name that is not defined: it is the caller's when nothing is said about the
name, and one of a table otherwise. -/
def lookupFault (name : String) : Option Kind → Fault
  | none => .grammar (.unresolved ⟨.node, name⟩ .caller)
  | some _ => .undefined name

section
variable {g : Grammar ρ} {name : String} {kind : Option Kind}

/-- A reference that something is derived from is defined. -/
theorem Legal.reference_isDefined {made : String × Json → Prop} {bound depth : Nat} {r : Reference}
    {t : Tree} (h : g.Legal made bound depth r t) : isDefined g.nodes g.leaves r = true := by
  cases h with
  | leaf hname _ => exact Table.contains_iff.2 hname
  | expanded _ hd _ _ _ => exact Table.contains_iff.2 (Table.mem_of_find? hd)
  | cutOff hname => exact Table.contains_iff.2 hname

/-- A name that is defined as what the caller says refers to what it is defined as. -/
theorem lacks_or_exists_reference (g : Grammar ρ) (name : String) (kind : Option Kind) :
    g.Lacks name kind ∨
      ∃ r, g.reference name kind = .ok r ∧ isDefined g.nodes g.leaves r = true := by
  match kind with
  | some .node =>
    by_cases hnode : name ∈ g.nodes
    · exact .inr ⟨⟨.node, name⟩, rfl, Table.contains_iff.2 hnode⟩
    · exact .inl hnode
  | some .leaf =>
    by_cases hleaf : name ∈ g.leaves
    · exact .inr ⟨⟨.leaf, name⟩, rfl, Table.contains_iff.2 hleaf⟩
    · exact .inl hleaf
  | none =>
    by_cases hnode : g.nodes.contains name = true
    · exact .inr ⟨⟨.node, name⟩, by rw [reference, if_pos hnode], hnode⟩
    by_cases hleaf : g.leaves.contains name = true
    · exact .inr ⟨⟨.leaf, name⟩, by rw [reference, if_neg hnode, if_pos hleaf], hleaf⟩
    · rw [Table.contains_iff] at hnode hleaf
      exact .inl ⟨hnode, hleaf⟩

theorem reference_of_lacks (h : g.Lacks name none) :
    g.reference name none = .error (lookupFault name none) := by
  obtain ⟨hnode, hleaf⟩ := h
  rw [← Table.contains_iff] at hnode hleaf
  rw [reference, if_neg hnode, if_neg hleaf]
  rfl

end

variable [Produces ρ μ] {g : Grammar ρ} {name : String} {kind : Option Kind}

theorem terminate_eq_grow {r : Reference} (h : g.reference name kind = .ok r) :
    g.terminate name kind = (g.grow 0 r : Action μ Tree) := by
  rw [terminate, h]
  exact derive_eq_grow g 0 0 .terminate r

theorem produceLeaf_of_not_mem (h : name ∉ g.leaves) :
    (g.produceLeaf name : Action μ Tree) = throw (.undefined name) := by
  rw [produceLeaf, Table.find?_eq_none_of_not_mem h]

/-- A name that is not defined as what the caller says is not expanded. -/
theorem expand_of_lacks (h : g.Lacks name kind) (depth : Int) (bound : Nat) :
    (g.expand name depth bound kind : Action μ Tree) = throw (lookupFault name kind) := by
  match kind with
  | none => rw [expand, reference_of_lacks h]
  | some .node =>
    have hreference : g.reference name (some .node) = .ok ⟨.node, name⟩ := rfl
    rw [expand_eq_grow hreference, grow, growWith, Table.find?_eq_none_of_not_mem h]
    rfl
  | some .leaf =>
    have hreference : g.reference name (some .leaf) = .ok ⟨.leaf, name⟩ := rfl
    rw [expand_eq_grow hreference, grow_leaf, produceLeaf_of_not_mem h]
    rfl

/-- A name that is not defined as what the caller says is not cut off either, unless the caller
says that it is a node. -/
theorem terminate_of_lacks (h : g.Lacks name kind) (hkind : kind ≠ some .node) :
    (g.terminate name kind : Action μ Tree) = throw (lookupFault name kind) := by
  match kind with
  | none => rw [terminate, reference_of_lacks h]
  | some .node => exact absurd rfl hkind
  | some .leaf =>
    have hreference : g.reference name (some .leaf) = .ok ⟨.leaf, name⟩ := rfl
    rw [terminate_eq_grow hreference, grow_leaf, produceLeaf_of_not_mem h]
    rfl

/-- What the caller calls a node is cut off without being looked up. -/
theorem terminate_as_node (g : Grammar ρ) (name : String) :
    g.terminate name (some .node) = (pure (.node name .null []) : Action μ Tree) := by
  have hreference : g.reference name (some .node) = .ok ⟨.node, name⟩ := rfl
  rw [terminate_eq_grow hreference, grow_zero_node]

/-- All that is derived from a defined reference comes from defined references. -/
theorem isDefined_of_grow {levels : Nat} {r : Reference}
    (hr : isDefined g.nodes g.leaves r = true) {w w' : World μ} {t : Tree}
    (h : g.grow levels r w = .ok t w') :
    ∃ calls, g.History w calls w' ∧ g.Legal (· ∈ calls) levels 1 r t ∧
      ∀ p ∈ t.walk, ∃ r', r'.name = p.2.kind ∧ isDefined g.nodes g.leaves r' = true ∧
        g.Legal (· ∈ calls) levels (1 + p.1) r' p.2 := by
  obtain ⟨calls, hcalls, hlegal⟩ := legal_of_grow (Nat.add_comm 1 levels) hr h
  refine ⟨calls, hcalls, hlegal, fun p hp => ?_⟩
  obtain ⟨-, r', hr'⟩ := hlegal.of_mem_walk (by omega) hp
  exact ⟨r', hr'.kind_eq.symm, hr'.reference_isDefined, hr'⟩

/-- All that a tree is made of is defined, whether a name is expanded or cut off: each position is
derived from a reference, a node from one to a node of the grammar and a leaf from one to a leaf of
it. A name that is not defined as what the caller says fails and leaves the world as it is. There
is one exception: a name that the caller calls a node, by any word other than the one for leaves,
is cut off to a tree of this name even where the grammar has no such node. -/
theorem isDefined_of_expand_or_terminate (g : Grammar ρ) (name : String) (word : Option String)
    (depth : Int) (bound : Nat) (w : World μ) :
    let kind := word.map Kind.ofWord
    (∀ t w', g.expand name depth bound kind w = .ok t w' ∨
        g.terminate name kind w = .ok t w' ∧ ¬ (kind = some .node ∧ name ∉ g.nodes) →
      ∃ r calls levels, g.reference name kind = .ok r ∧ g.History w calls w' ∧
        g.Legal (· ∈ calls) levels 1 r t ∧
        ∀ p ∈ t.walk, ∃ r', r'.name = p.2.kind ∧ isDefined g.nodes g.leaves r' = true ∧
          g.Legal (· ∈ calls) levels (1 + p.1) r' p.2) ∧
    (g.Lacks name kind →
      g.expand name depth bound kind w = .error (lookupFault name kind) w ∧
      (kind ≠ some .node → g.terminate name kind w = .error (lookupFault name kind) w) ∧
      (kind = some .node → g.terminate name kind w = .ok (.node name .null []) w)) := by
  intro kind
  refine ⟨fun t w' h => ?_, fun hlacks => ⟨?_, fun hkind => ?_, fun hkind => ?_⟩⟩
  · rcases g.lacks_or_exists_reference name kind with hlacks | ⟨r, hreference, hr⟩
    · -- A name that is not defined gives a tree only in the exceptional case.
      exfalso
      rcases h with hexpand | ⟨hterminate, hexcept⟩
      · simp [expand_of_lacks hlacks] at hexpand
      · by_cases hkind : kind = some .node
        · rw [hkind] at hlacks
          exact hexcept ⟨hkind, hlacks⟩
        · simp [terminate_of_lacks hlacks hkind] at hterminate
    · rcases h with hexpand | ⟨hterminate, -⟩
      · rw [expand_eq_grow hreference] at hexpand
        obtain ⟨calls, hcalls⟩ := isDefined_of_grow hr hexpand
        exact ⟨r, calls, _, hreference, hcalls⟩
      · rw [terminate_eq_grow hreference] at hterminate
        obtain ⟨calls, hcalls⟩ := isDefined_of_grow hr hterminate
        exact ⟨r, calls, _, hreference, hcalls⟩
  · rw [expand_of_lacks hlacks]
    rfl
  · rw [terminate_of_lacks hlacks hkind]
    rfl
  · rw [hkind, terminate_as_node]
    rfl

/-- A name that stands for nothing in `nested` is cut off to a tree when it is called a node, while
it fails when it is expanded, or when nothing is said about it. -/
theorem terminate_undefined :
    "undefined" ∉ nested.nodes ∧ "undefined" ∉ nested.leaves ∧
      nested.terminate "undefined" (some (.ofWord "node")) ⟨.ofList [], ()⟩ =
        .ok (.node "undefined" .null []) ⟨.ofList [], ()⟩ ∧
      nested.expand "undefined" 0 1 (some (.ofWord "node")) ⟨.ofList [], ()⟩ =
        .error (.undefined "undefined") ⟨.ofList [], ()⟩ ∧
      nested.terminate "undefined" none ⟨.ofList [], ()⟩ =
        .error (.grammar (.unresolved ⟨.node, "undefined"⟩ .caller)) ⟨.ofList [], ()⟩ :=
  ⟨by decide, by decide, rfl, rfl, rfl⟩

end RandomDerivation.Grammar
