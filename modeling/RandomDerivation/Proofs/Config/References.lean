import RandomDerivation.Proofs.Config.Register
import RandomDerivation.Proofs.Grammar.Checked
import RandomDerivation.Proofs.Grammar.Grounding

/-!
# The references of a document

Once all entries of a document are registered, its grammar is built. All that can go wrong then is
that a name is not defined by the document: first its root, then the names to which the slots of
its nodes refer, in the order of the document.
-/

namespace RandomDerivation

namespace Grammar
variable {ρ : Type}

/-- A grammar is built when its references can be checked, and recording its ungrounded nodes
does not fail. -/
theorem enforces_ofTables {cs : List Constraint} {root : String} {nodes : Table NodeDefinition}
    {leaves : Table (LeafGenerator ρ)}
    (h : Enforces cs (checkReferences root nodes leaves) fun _ => True) :
    Recorded.Enforces cs (ofTables (some root) nodes leaves)
      fun g => g.root = root ∧ g.nodes = nodes ∧ g.leaves = leaves := by
  have hcheck : Enforces cs (check (some root) nodes leaves)
      fun g => g.root = root ∧ g.nodes = nodes ∧ g.leaves = leaves := by
    constructor
    · intro hcs
      obtain ⟨_, hok, -⟩ := h.returns hcs
      exact ⟨⟨root, nodes, leaves, hok⟩, check_eq_ok.2 ⟨rfl, rfl, rfl⟩, rfl, rfl, rfl⟩
    · intro f hf
      exact check_some_eq_error.2 (h.fails f hf)
  rw [← List.append_nil cs]
  apply (Recorded.enforces_ofExcept hcheck).bind
  intro g hg log
  rw [Recorded.outcome, bind_run_of_ok (forM_note _ _ _)]
  exact enforces_ok hg

end Grammar

namespace Config

/-- The references of an entry of the table of nodes, from left to right. -/
def referencesOf (value : Json) : List Reference := value.elements.flatMap Slot.referencesIn

/-- A reference is defined by the entries of the two tables. -/
def DefinedIn (leaves nodes : List (String × Json)) (r : Reference) : Prop :=
  match r.kind with
  | .node => r.name ∈ nodes.map Prod.fst
  | .leaf => r.name ∈ leaves.map Prod.fst

/-- The references of one entry have to be defined. -/
def entryReferenceConstraints (leaves nodes : List (String × Json)) (e : String × Json) :
    List Constraint :=
  (referencesOf e.2).map fun r => ⟨DefinedIn leaves nodes r, .grammar (.unresolved r (.node e.1))⟩

/-- The root has to be defined, and the references of all nodes. -/
def referenceConstraints (root : String) (leaves nodes : List (String × Json)) :
    List Constraint :=
  [⟨root ∈ nodes.map Prod.fst ∨ root ∈ leaves.map Prod.fst,
    .grammar (.unresolved ⟨.node, root⟩ .root)⟩] ++
  nodes.flatMap (entryReferenceConstraints leaves nodes)

section
variable {leaves nodes : List (String × Json)} {ts : Table NodeDefinition}
  {ls : Table (LeafGenerator Producer)}

theorem items_of_describesNode {name : String} {value : Json} {d : NodeDefinition}
    (h : DescribesNode name value d) : d.items = (referencesOf value).map .reference := by
  obtain ⟨-, hnative, rfl⟩ := h
  rw [NodeDefinition.items, Slot.itemsOfAll_eq_flatMap, referencesOf, Json.elements,
    List.map_flatMap, List.flatMap_map, List.flatMap_def, List.flatMap_def]
  congr 1
  apply List.map_congr_left
  intro s hs
  exact Slot.items_eq_map_referencesIn (hnative s hs)

theorem isDefined_iff (hleaves : ls.Represents DescribesLeaf leaves)
    (hnodes : ts.Represents DescribesNode nodes) {r : Reference} :
    isDefined ts ls r = true ↔ DefinedIn leaves nodes r := by
  obtain ⟨kind, name⟩ := r
  cases kind with
  | node => exact Table.contains_iff.trans hnodes.mem_iff
  | leaf => exact Table.contains_iff.trans hleaves.mem_iff

theorem enforces_checkItem (hleaves : ls.Represents DescribesLeaf leaves)
    (hnodes : ts.Represents DescribesNode nodes) (site : String) (r : Reference) :
    Enforces [⟨DefinedIn leaves nodes r, .grammar (.unresolved r (.node site))⟩]
      (checkItem ts ls site (.reference r)) fun _ => True := by
  by_cases h : isDefined ts ls r = true
  · rw [checkItem, if_pos h]
    exact enforces_of_holds ((isDefined_iff hleaves hnodes).1 h) (enforces_ok trivial)
  · rw [checkItem, if_neg h]
    exact enforces_of_broken (fun hr => h ((isDefined_iff hleaves hnodes).2 hr)) rfl

/-- The check of one node looks at its references from left to right. -/
theorem enforces_checkItems (hleaves : ls.Represents DescribesLeaf leaves)
    (hnodes : ts.Represents DescribesNode nodes) {e : String × Json} {d : NodeDefinition}
    (h : DescribesNode e.1 e.2 d) :
    Enforces (entryReferenceConstraints leaves nodes e) (d.items.forM (checkItem ts ls d.name))
      fun _ => True := by
  have hitems : List.Forall₂ (fun r item => item = .reference r) (referencesOf e.2) d.items := by
    rw [items_of_describesNode h, List.forall₂_map_right_iff, List.forall₂_same]
    intro r _
    rfl
  rw [entryReferenceConstraints, List.map_eq_flatMap, h.1]
  apply Enforces.forM hitems
  intro r item hitem
  rw [hitem]
  exact enforces_checkItem hleaves hnodes e.1 r

/-- The check of what the entries of two tables describe looks at the root, and then at the
references in the order of the entries. -/
theorem enforces_checkReferences (hleaves : ls.Represents DescribesLeaf leaves)
    (hnodes : ts.Represents DescribesNode nodes) (root : String) :
    Enforces (referenceConstraints root leaves nodes) (checkReferences root ts ls)
      fun _ => True := by
  by_cases hroot : root ∈ ts ∨ root ∈ ls
  · rw [checkReferences_of_defined hroot, Table.values]
    refine enforces_of_holds ?_ ?_
    · rwa [← hnodes.mem_iff, ← hleaves.mem_iff]
    · rw [List.forM_eq_forM, List.forM_map]
      apply Enforces.forM hnodes
      intro e registered he
      exact enforces_checkItems hleaves hnodes he.2
  · rw [checkReferences_of_undefined hroot]
    refine enforces_of_broken ?_ rfl
    rwa [← hnodes.mem_iff, ← hleaves.mem_iff]

end

end Config

end RandomDerivation
