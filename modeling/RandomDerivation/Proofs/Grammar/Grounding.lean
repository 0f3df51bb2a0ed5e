import RandomDerivation.Grammar.Grounding
import RandomDerivation.Proofs.Action
import RandomDerivation.Proofs.Slot

/-!
# Grounded nodes

A node is grounded when it has no slots, when a leaf stands in one of its slots, or when a
grounded node does. The passes over the table find exactly these nodes: each pass only adds
grounded ones, and they stop at a list to which another pass would add nothing, since a list of
different names of the table cannot grow beyond the table.
-/

namespace RandomDerivation

/-- The nodes from which some path through slots leads to a leaf or to a node without slots. -/
inductive Grounded (nodes : Table NodeDefinition) : String → Prop where
  | slotless {name : String} {d : NodeDefinition} :
    nodes.find? name = some d → d.slots = [] → Grounded nodes name
  | leaf {name leaf : String} {d : NodeDefinition} {s : Slot} :
    nodes.find? name = some d → s ∈ d.slots → .reference ⟨.leaf, leaf⟩ ∈ s.items →
      Grounded nodes name
  | node {name child : String} {d : NodeDefinition} {s : Slot} :
    nodes.find? name = some d → s ∈ d.slots → .reference ⟨.node, child⟩ ∈ s.items →
      Grounded nodes child → Grounded nodes name

/-- Whether something found in a slot is a leaf or a node known to be grounded. -/
def Slot.Item.isGrounded (known : List String) : Slot.Item → Bool
  | .reference ⟨.leaf, _⟩ => true
  | .reference ⟨.node, name⟩ => known.contains name
  | .foreign _ => false

mutual

theorem Slot.isGrounded_eq_any (known : List String) :
    (s : Slot) → s.isGrounded known = s.items.any (Item.isGrounded known)
  | .leaf name => by simp [isGrounded, items, Item.isGrounded]
  | .node name => by simp [isGrounded, items, Item.isGrounded]
  | .choice first others => by
    rw [isGrounded, items, List.any_append, isGrounded_eq_any known first,
      anyGrounded_eq_any known others]
  | .foreign value => by simp [isGrounded, items, Item.isGrounded]

theorem Slot.anyGrounded_eq_any (known : List String) :
    (slots : List Slot) → anyGrounded known slots = (itemsOfAll slots).any (Item.isGrounded known)
  | [] => rfl
  | s :: rest => by
    rw [anyGrounded, itemsOfAll, List.any_append, isGrounded_eq_any known s,
      anyGrounded_eq_any known rest]

end

theorem NodeDefinition.isGrounded_iff {d : NodeDefinition} {known : List String} :
    d.isGrounded known = true ↔
      d.slots = [] ∨ ∃ s ∈ d.slots, ∃ item ∈ s.items, item.isGrounded known = true := by
  rw [isGrounded, Bool.or_eq_true, List.isEmpty_iff, Slot.anyGrounded_eq_any, List.any_eq_true]
  simp only [Slot.mem_itemsOfAll]
  constructor
  · rintro (h | ⟨item, ⟨s, hs, hitem⟩, h⟩)
    · exact .inl h
    · exact .inr ⟨s, hs, item, hitem, h⟩
  · rintro (h | ⟨s, hs, item, hitem, h⟩)
    · exact .inl h
    · exact .inr ⟨item, ⟨s, hs, hitem⟩, h⟩

/-- A node that is seen to be grounded is grounded. -/
theorem grounded_of_isGrounded {nodes : Table NodeDefinition} {known : List String}
    (hknown : ∀ name ∈ known, Grounded nodes name) {name : String} {d : NodeDefinition}
    (hd : nodes.find? name = some d) (h : d.isGrounded known = true) : Grounded nodes name := by
  rcases NodeDefinition.isGrounded_iff.1 h with hslots | ⟨s, hs, item, hitem, hseen⟩
  · exact .slotless hd hslots
  · match item, hseen with
    | .reference ⟨.leaf, _⟩, _ => exact .leaf hd hs hitem
    | .reference ⟨.node, child⟩, hseen =>
      exact .node hd hs hitem (hknown child (List.contains_iff_mem.1 hseen))

variable {entries : List (String × NodeDefinition)} {grounded : List String}

theorem groundingPass_cons (name : String) (d : NodeDefinition)
    (entries : List (String × NodeDefinition)) (grounded : List String) :
    groundingPass ((name, d) :: entries) grounded =
      groundingPass entries
        (if !grounded.contains name && d.isGrounded grounded then name :: grounded
          else grounded) := rfl

/-- A pass only adds names. -/
theorem suffix_groundingPass (entries : List (String × NodeDefinition)) (grounded : List String) :
    grounded <:+ groundingPass entries grounded := by
  induction entries generalizing grounded with
  | nil => exact List.suffix_rfl
  | cons e entries ih =>
    rw [groundingPass_cons]
    split
    · exact (List.suffix_cons _ _).trans (ih _)
    · exact ih _

/-- A property that holds of the known names, and of every name that is added, holds after a
pass. -/
theorem forall_mem_groundingPass {P : String → Prop}
    (hadd : ∀ known, (∀ name ∈ known, P name) → ∀ e ∈ entries, e.2.isGrounded known = true → P e.1)
    (hgrounded : ∀ name ∈ grounded, P name) :
    ∀ name ∈ groundingPass entries grounded, P name := by
  induction entries generalizing grounded with
  | nil => exact hgrounded
  | cons e entries ih =>
    have hlater : ∀ known, (∀ name ∈ known, P name) → ∀ e ∈ entries,
        e.2.isGrounded known = true → P e.1 := by
      intro known hknown e he
      exact hadd known hknown e (List.mem_cons_of_mem _ he)
    rw [groundingPass_cons]
    by_cases hcond : (!grounded.contains e.1 && e.2.isGrounded grounded) = true
    · rw [if_pos hcond]
      apply ih hlater
      intro name hname
      rcases List.mem_cons.1 hname with rfl | hname
      · exact hadd grounded hgrounded e List.mem_cons_self (Bool.and_eq_true_iff.1 hcond).2
      · exact hgrounded name hname
    · rw [if_neg hcond]
      exact ih hlater hgrounded

theorem nodup_groundingPass (hgrounded : grounded.Nodup) :
    (groundingPass entries grounded).Nodup := by
  induction entries generalizing grounded with
  | nil => exact hgrounded
  | cons e entries ih =>
    rw [groundingPass_cons]
    by_cases hcond : (!grounded.contains e.1 && e.2.isGrounded grounded) = true
    · rw [if_pos hcond]
      have hnew : e.1 ∉ grounded := by
        simpa using (Bool.and_eq_true_iff.1 hcond).1
      exact ih (List.nodup_cons.2 ⟨hnew, hgrounded⟩)
    · rw [if_neg hcond]
      exact ih hgrounded

/-- When a pass adds nothing, every node that is seen to be grounded is known. -/
theorem mem_of_groundingPass_eq (h : groundingPass entries grounded = grounded)
    {e : String × NodeDefinition} (he : e ∈ entries) (hseen : e.2.isGrounded grounded = true) :
    e.1 ∈ grounded := by
  induction entries with
  | nil => simp at he
  | cons first entries ih =>
    rw [groundingPass_cons] at h
    by_cases hcond : (!grounded.contains first.1 && first.2.isGrounded grounded) = true
    · -- A name that is added stays, so that the pass would have made the list longer.
      rw [if_pos hcond] at h
      have hlength := (suffix_groundingPass entries (first.1 :: grounded)).length_le
      rw [h, List.length_cons] at hlength
      omega
    · rw [if_neg hcond] at h
      rcases List.mem_cons.1 he with rfl | he
      · simpa [hseen] using hcond
      · exact ih h he

theorem forall_mem_groundingRounds {P : String → Prop}
    (hadd : ∀ known, (∀ name ∈ known, P name) → ∀ e ∈ entries, e.2.isGrounded known = true → P e.1)
    (fuel : Nat) (hgrounded : ∀ name ∈ grounded, P name) :
    ∀ name ∈ groundingRounds entries fuel grounded, P name := by
  induction fuel generalizing grounded with
  | zero => exact hgrounded
  | succ fuel ih =>
    rw [groundingRounds]
    split
    · exact hgrounded
    · exact ih (forall_mem_groundingPass hadd hgrounded)

/-- The passes end at a list to which another pass adds nothing. -/
theorem groundingPass_groundingRounds {fuel : Nat} (hnodup : grounded.Nodup)
    (hsubset : grounded ⊆ entries.map Prod.fst) (hfuel : entries.length < fuel + grounded.length) :
    groundingPass entries (groundingRounds entries fuel grounded) =
      groundingRounds entries fuel grounded := by
  induction fuel generalizing grounded with
  | zero =>
    have hlength := hnodup.length_le_of_subset hsubset
    rw [List.length_map] at hlength
    omega
  | succ fuel ih =>
    have hsuffix := suffix_groundingPass entries grounded
    rw [groundingRounds]
    by_cases hsame : (groundingPass entries grounded).length = grounded.length
    · rw [if_pos hsame]
      exact (hsuffix.eq_of_length hsame.symm).symm
    · rw [if_neg hsame]
      have hlength := hsuffix.length_le
      have hnames : groundingPass entries grounded ⊆ entries.map Prod.fst := by
        apply forall_mem_groundingPass _ hsubset
        intro known _ e he _
        exact List.mem_map_of_mem he
      exact ih (nodup_groundingPass hnodup) hnames (by omega)

/-- The passes find exactly the grounded nodes. -/
theorem mem_groundedNames_iff {nodes : Table NodeDefinition} {name : String} :
    name ∈ groundedNames nodes ↔ Grounded nodes name := by
  have hsound : ∀ name ∈ groundedNames nodes, Grounded nodes name := by
    intro name hname
    refine forall_mem_groundingRounds ?_ _ (by simp) name hname
    intro known hknown e he hseen
    exact grounded_of_isGrounded hknown (Table.find?_eq_some_iff.2 he) hseen
  have hclosed : groundingPass nodes.entries (groundedNames nodes) = groundedNames nodes :=
    groundingPass_groundingRounds List.nodup_nil (by simp) (by simp [Table.size])
  have hknown : ∀ {name d}, nodes.find? name = some d → d.isGrounded (groundedNames nodes) = true →
      name ∈ groundedNames nodes := by
    intro name d hd hseen
    exact mem_of_groundingPass_eq hclosed (Table.find?_eq_some_iff.1 hd) hseen
  refine ⟨hsound name, ?_⟩
  intro h
  induction h with
  | slotless hd hslots => exact hknown hd (NodeDefinition.isGrounded_iff.2 (.inl hslots))
  | leaf hd hs hitem =>
    exact hknown hd (NodeDefinition.isGrounded_iff.2 (.inr ⟨_, hs, _, hitem, rfl⟩))
  | node hd hs hitem _ ih =>
    exact hknown hd (NodeDefinition.isGrounded_iff.2
      (.inr ⟨_, hs, _, hitem, List.contains_iff_mem.2 ih⟩))

namespace Grammar
variable {ρ : Type}

/-- The names that a grammar records are those of its nodes that are not grounded. -/
theorem mem_ungrounded_iff {g : Grammar ρ} {name : String} :
    name ∈ g.ungrounded ↔ name ∈ g.nodes ∧ ¬ Grounded g.nodes name := by
  rw [← mem_groundedNames_iff, ungrounded, List.mem_filter, Table.mem_iff]
  simp

/-- Each of these names stands once, in the order of the table. -/
theorem ungrounded_sublist (g : Grammar ρ) : g.ungrounded.Sublist g.nodes.names :=
  List.filter_sublist

theorem nodup_ungrounded (g : Grammar ρ) : g.ungrounded.Nodup :=
  g.nodes.nodup.sublist g.ungrounded_sublist

theorem forM_note (event : String → Event) (names : List String) (log : Log) :
    (names.forM fun name => note (event name)) log = .ok () (log ++ names.map event) := by
  induction names generalizing log with
  | nil => simp
  | cons name names ih =>
    have hnote : note (event name) log = .ok () (log ++ [event name]) := rfl
    rw [List.forM_eq_forM, List.forM_cons, bind_run_of_ok hnote, ← List.forM_eq_forM, ih]
    simp

/-- Building a grammar records each node that is not grounded, and nothing else. -/
theorem ofTables_eq_ok (g : Grammar ρ) (log : Log) :
    ofTables (some g.root) g.nodes g.leaves log =
      .ok g (log ++ g.ungrounded.map Event.ungrounded) := by
  have hcheck : Recorded.ofExcept (check (some g.root) g.nodes g.leaves) log = .ok g log := by
    have hrecheck := g.recheck_eq
    rw [recheck] at hrecheck
    rw [hrecheck]
    rfl
  rw [ofTables, bind_run_of_ok hcheck, bind_run_of_ok (forM_note _ _ _)]
  rfl

end Grammar

end RandomDerivation
