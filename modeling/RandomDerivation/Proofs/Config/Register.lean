import RandomDerivation.Config.Basic
import RandomDerivation.Proofs.Config.Producer
import RandomDerivation.Proofs.Config.Slot

/-!
# Registering the entries of a document

The two tables of a document are registered one entry after the other. As long as the names of a
table are distinct, no registration fails by itself, so that all that can go wrong is that an
entry does not describe what it should. In the end the tables hold what the entries describe, in
the order of the document.
-/

namespace RandomDerivation

namespace Table
variable {α : Type}

/-- A table holds what given entries describe, in their order. -/
def Represents (describes : String → Json → α → Prop) (entries : List (String × Json))
    (t : Table α) : Prop :=
  List.Forall₂ (fun e r => r.1 = e.1 ∧ describes e.1 e.2 r.2) entries t.entries

section
variable {describes : String → Json → α → Prop} {entries : List (String × Json)} {t : Table α}

theorem represents_empty : Represents describes [] empty := .nil

theorem Represents.names_eq (h : Represents describes entries t) :
    t.names = entries.map Prod.fst := by
  obtain ⟨registered, nodup⟩ := t
  simp only [Represents, names] at h ⊢
  clear nodup
  induction h with
  | nil => rfl
  | cons he _ ih => rw [List.map_cons, List.map_cons, he.1, ih]

theorem Represents.mem_iff (h : Represents describes entries t) {name : String} :
    name ∈ t ↔ name ∈ entries.map Prod.fst := by
  rw [Table.mem_iff, h.names_eq]

theorem Represents.insert (h : Represents describes entries t) {name : String} {value : Json}
    {a : α} (hname : name ∉ entries.map Prod.fst) (ha : describes name value a) :
    Represents describes (entries ++ [(name, value)]) (t.insert name a) := by
  rw [Represents, entries_insert_of_not_mem fun hmem => hname (h.mem_iff.1 hmem)]
  exact List.rel_append h (.cons ⟨rfl, ha⟩ .nil)

end

end Table

namespace Builder
variable {ρ : Type} {b : Builder ρ} {name : String}

/-- A leaf is registered when its name is free. -/
theorem registerLeaf_of_not_mem (h : name ∉ b.leaves) (generator : ρ) (log : Log) :
    b.registerLeaf name generator log =
      .ok { b with leaves := b.leaves.insert name ⟨name, generator⟩ }
        (log ++ [.registeredLeaf name]) := by
  rw [registerLeaf, if_neg fun hmem => h (Table.contains_iff.1 hmem)]
  rfl

/-- A node is registered when its name is free. -/
theorem registerNode_of_not_mem (h : name ∉ b.nodes) (slots : List Slot) (log : Log) :
    b.registerNode name (.ok slots) log =
      .ok { b with nodes := b.nodes.insert name ⟨name, slots⟩ }
        (log ++ [.registeredNode name slots.length]) := by
  rw [registerNode, if_neg fun hmem => h (Table.contains_iff.1 hmem)]
  rfl

end Builder

namespace Config

/-- What an entry of the table of leaves describes. -/
def DescribesLeaf (name : String) (value : Json) (l : LeafGenerator Producer) : Prop :=
  l.name = name ∧ Producer.Describes value l.generator

/-- What an entry of the table of nodes describes: slots in order. -/
def DescribesNode (name : String) (value : Json) (d : NodeDefinition) : Prop :=
  d.name = name ∧ (∀ s ∈ d.slots, s.IsNative) ∧ value = .arr (d.slots.map Slot.toJson)

/-- A builder without a root that holds what the entries of two tables describe. -/
structure Registered (leaves nodes : List (String × Json)) (b : Builder Producer) : Prop where
  root : b.root = none
  leaves : b.leaves.Represents DescribesLeaf leaves
  nodes : b.nodes.Represents DescribesNode nodes

/-- What has to hold of the entries of the table of leaves. -/
def leafConstraints (leaves : List (String × Json)) : List Constraint :=
  leaves.flatMap fun e => Producer.constraints (entryPath "leaves" e.1) e.2

/-- What has to hold of the entries of the table of nodes. -/
def nodeConstraints (nodes : List (String × Json)) : List Constraint :=
  nodes.flatMap fun e =>
    [Field.isArray (entryPath "nodes" e.1) e.2] ++
      Slot.constraintsOfAll (entryPath "nodes" e.1) 0 e.2.elements

section
variable {leaves nodes done rest : List (String × Json)} {b : Builder Producer} {e : String × Json}

theorem registered_empty : Registered [] [] {} :=
  ⟨rfl, Table.represents_empty, Table.represents_empty⟩

theorem not_mem_of_nodup (h : ((done ++ e :: rest).map Prod.fst).Nodup) :
    e.1 ∉ done.map Prod.fst := by
  rw [List.map_append, List.nodup_append] at h
  intro hmem
  exact h.2.2 e.1 hmem e.1 (by simp) rfl

theorem enforces_registerLeaf (h : Registered done nodes b) (hname : e.1 ∉ done.map Prod.fst)
    {p : Producer} (hp : Producer.Describes e.2 p) :
    Recorded.Enforces [] (b.registerLeaf e.1 p) (Registered (done ++ [e]) nodes) := by
  intro log
  have hfree : e.1 ∉ b.leaves := fun hmem => hname (h.leaves.mem_iff.1 hmem)
  rw [Recorded.outcome, Builder.registerLeaf_of_not_mem hfree]
  exact enforces_ok ⟨h.root, h.leaves.insert hname ⟨rfl, hp⟩, h.nodes⟩

theorem enforces_registerNode (h : Registered leaves done b) (hname : e.1 ∉ done.map Prod.fst)
    {slots : List Slot} (hnative : ∀ s ∈ slots, s.IsNative)
    (hslots : e.2 = .arr (slots.map Slot.toJson)) :
    Recorded.Enforces [] (b.registerNode e.1 (.ok slots)) (Registered leaves (done ++ [e])) := by
  intro log
  have hfree : e.1 ∉ b.nodes := fun hmem => hname (h.nodes.mem_iff.1 hmem)
  rw [Recorded.outcome, Builder.registerNode_of_not_mem hfree]
  exact enforces_ok ⟨h.root, h.leaves, h.nodes.insert hname ⟨rfl, hnative, hslots⟩⟩

theorem registerLeaves_eq_foldlM (b : Builder Producer) (leaves : List (String × Json)) :
    registerLeaves b leaves = leaves.foldlM (fun b e => do
      b.registerLeaf e.1
        (← Recorded.ofExcept (Producer.parse (entryPath "leaves" e.1) e.2))) b := by
  induction leaves generalizing b with
  | nil => rfl
  | cons e rest ih =>
    rw [registerLeaves, List.foldlM_cons, bind_assoc]
    simp only [ih]

theorem registerNodes_eq_foldlM (b : Builder Producer) (nodes : List (String × Json)) :
    registerNodes b nodes = nodes.foldlM (fun b e => do
      b.registerNode e.1 (.ok (← Recorded.ofExcept (parseNode e.1 e.2)))) b := by
  induction nodes generalizing b with
  | nil => rfl
  | cons e rest ih =>
    rw [registerNodes, List.foldlM_cons, bind_assoc]
    simp only [ih]

/-- As long as the names are distinct, registering leaves fails only when an entry describes no
producer. -/
theorem enforces_registerLeaves (h : Registered [] nodes b) (hnodup : (leaves.map Prod.fst).Nodup) :
    Recorded.Enforces (leafConstraints leaves) (registerLeaves b leaves)
      (Registered leaves nodes) := by
  rw [registerLeaves_eq_foldlM]
  refine Recorded.Enforces.foldlM (fun done => Registered done nodes) ?_ h
  intro done e rest b' hsplit hdone
  have hname : e.1 ∉ done.map Prod.fst := by
    rw [hsplit] at hnodup
    exact not_mem_of_nodup hnodup
  rw [← List.append_nil (Producer.constraints _ _)]
  apply (Recorded.enforces_ofExcept (Producer.enforces_parse _ _)).bind
  intro p hp
  exact enforces_registerLeaf hdone hname hp

theorem enforces_parseNode (name : String) (value : Json) :
    Enforces
      ([Field.isArray (entryPath "nodes" name) value] ++
        Slot.constraintsOfAll (entryPath "nodes" name) 0 value.elements)
      (parseNode name value)
      fun slots => (∀ s ∈ slots, s.IsNative) ∧ value = .arr (slots.map Slot.toJson) := by
  apply (Field.enforces_array _ _).bind
  intro values hvalue
  subst hvalue
  apply (Slot.enforces_parseAll _ _ _).mono
  intro slots hslots
  exact ⟨hslots.1, by rw [hslots.2, Json.elements]⟩

/-- As long as the names are distinct, registering nodes fails only when an entry is no array of
what describes slots. -/
theorem enforces_registerNodes (h : Registered leaves [] b) (hnodup : (nodes.map Prod.fst).Nodup) :
    Recorded.Enforces (nodeConstraints nodes) (registerNodes b nodes)
      (Registered leaves nodes) := by
  rw [registerNodes_eq_foldlM]
  refine Recorded.Enforces.foldlM (Registered leaves) ?_ h
  intro done e rest b' hsplit hdone
  have hname : e.1 ∉ done.map Prod.fst := by
    rw [hsplit] at hnodup
    exact not_mem_of_nodup hnodup
  rw [← List.append_nil ([_] ++ _)]
  apply (Recorded.enforces_ofExcept (enforces_parseNode _ _)).bind
  intro slots hslots
  exact enforces_registerNode hdone hname hslots.1 hslots.2

theorem forall_holds_leafConstraints_iff :
    (∀ c ∈ leafConstraints leaves, c.holds) ↔ ∀ e ∈ leaves, ∃ p, Producer.Describes e.2 p := by
  rw [leafConstraints, List.forall_mem_flatMap]
  apply forall₂_congr
  intro e _
  exact (Producer.exists_describes_iff (entryPath "leaves" e.1) e.2).symm

theorem forall_holds_nodeConstraints_iff :
    (∀ c ∈ nodeConstraints nodes, c.holds) ↔
      ∀ e ∈ nodes, ∃ slots, e.2 = .arr slots ∧ ∀ s ∈ slots, Slot.IsSpec s := by
  rw [nodeConstraints, List.forall_mem_flatMap]
  apply forall₂_congr
  intro e _
  rw [List.forall_mem_append, ← Slot.forall_isSpec_iff, List.forall_mem_singleton]
  constructor
  · rintro ⟨⟨slots, hslots⟩, hspec⟩
    rw [hslots] at hspec
    exact ⟨slots, hslots, hspec⟩
  · rintro ⟨slots, hslots, hspec⟩
    rw [hslots]
    exact ⟨⟨slots, rfl⟩, hspec⟩

theorem fault_of_mem_leafConstraints :
    ∀ c ∈ leafConstraints leaves,
      (∃ fault, c.fault = .grammar (.config fault)) ∨ c.fault = .numberTooLarge := by
  rw [leafConstraints, List.forall_mem_flatMap]
  intro e _
  exact Producer.fault_of_mem_constraints _ _

theorem isConfig_of_mem_nodeConstraints :
    ∀ c ∈ nodeConstraints nodes, ∃ fault, c.fault = .grammar (.config fault) := by
  rw [nodeConstraints, List.forall_mem_flatMap]
  intro e _
  rw [List.forall_mem_append, List.forall_mem_singleton]
  refine ⟨⟨_, rfl⟩, Slot.forall_mem_constraintsOfAll ?_ _ _⟩
  intro v _ path
  exact Slot.isConfig_of_mem_constraints path v

end

end Config

end RandomDerivation
