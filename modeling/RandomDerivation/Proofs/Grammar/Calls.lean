import RandomDerivation.Proofs.Config.Register
import RandomDerivation.Proofs.Grammar.FirstFault

/-!
# Calls of a builder

A builder that is kept is changed in place, so a call that fails half-way could leave something of
itself behind. It does not: what can fail in a call comes before what changes the builder. Hence
the calls that fail might as well not have been made, and the tables list what was registered by
the calls that succeeded, in their order. A name is registered by the first of them, and whether it
is free for a node does not depend on the leaves.

## Main definitions

* `Table.keep`: a table with one more entry if its name is free.
* `Building`: computations that change a builder in place.
* `Builder.Call`, `Builder.Call.perform`: the calls of a builder.
* `Builder.afterAll`, `Builder.succeeding`: calls one after the other, and those that succeed.
-/

namespace RandomDerivation

namespace Table
variable {α : Type} {t : Table α}

/-- The table with a value for a name that is free; a known name keeps its value. -/
def keep (t : Table α) (name : String) (value : α) : Table α :=
  if name ∈ t then t else t.insert name value

section
variable {name : String}

theorem keep_of_mem (h : name ∈ t) (value : α) : t.keep name value = t := if_pos h

theorem keep_of_not_mem (h : name ∉ t) (value : α) : t.keep name value = t.insert name value :=
  if_neg h

theorem find?_keep (name other : String) (value : α) :
    (t.keep name value).find? other =
      (t.find? other).or (if other = name then some value else none) := by
  by_cases h : name ∈ t
  · rw [keep_of_mem h]
    by_cases heq : other = name
    · obtain ⟨a, ha⟩ := exists_find?_of_mem h
      rw [heq, ha, Option.some_or]
    · rw [if_neg heq, Option.or_none]
  · rw [keep_of_not_mem h, find?, entries_insert_of_not_mem h, List.lookup_append]
    by_cases heq : other = name
    · simp [heq, find?]
    · simp [heq, find?, List.lookup_cons, beq_false_of_ne heq]

end

/-- The table with those of the entries whose names are free. -/
def keepAll (t : Table α) (entries : List (String × α)) : Table α :=
  entries.foldl (fun t e => t.keep e.1 e.2) t

/-- Of several entries for a name the first one stays. -/
theorem find?_keepAll (entries : List (String × α)) (name : String) :
    (t.keepAll entries).find? name = (t.find? name).or (entries.lookup name) := by
  induction entries generalizing t with
  | nil => simp [keepAll]
  | cons e rest ih =>
    rw [keepAll, List.foldl_cons, ← keepAll, ih, find?_keep, Option.or_assoc, List.lookup_cons]
    by_cases h : name = e.1
    · simp [h]
    · simp [h, beq_false_of_ne h]

theorem entries_keepAll_toList {entry : Option (String × α)}
    (h : ∀ name value, entry = some (name, value) → name ∉ t) :
    (t.keepAll entry.toList).entries = t.entries ++ entry.toList := by
  cases entry with
  | none => simp [keepAll]
  | some e =>
    have hfree : e.1 ∉ t := h e.1 e.2 rfl
    simp [keepAll, keep_of_not_mem hfree, entries_insert_of_not_mem hfree]

theorem keepAll_filterMap_cons {β : Type} (f : β → Option (String × α)) (x : β) (rest : List β) :
    t.keepAll ((x :: rest).filterMap f) =
      (t.keepAll (f x).toList).keepAll (rest.filterMap f) := by
  cases h : f x <;> simp [h, keepAll]

end Table

variable {ρ : Type}

/-- A computation on a builder that is kept, with the events recorded so far. What it has changed
before a fault stays changed. -/
abbrev Building (ρ α : Type) := EStateM Fault (Builder ρ × Log) α

/-- Record events and leave the builder alone. -/
def Building.ofRecorded {α : Type} (x : Recorded α) : Building ρ α := fun s =>
  match x s.2 with
  | .ok a log => .ok a (s.1, log)
  | .error f log => .error f (s.1, log)

namespace Builder

/-! ## Calls -/

/-- A call of a builder. Slots may turn out to be faulty once they are looked at. -/
inductive Call (ρ : Type) where
  | registerNode (name : String) (slots : Except Fault (List Slot))
  /-- Another word for the registration of a node. -/
  | terminal (name : String) (slots : Except Fault (List Slot))
  | registerLeaf (name : String) (generator : ρ)
  | setRoot (root : Option String)
  | validate

/-- Change the builder. -/
def change (f : Builder ρ → Builder ρ) : Building ρ Unit := modify fun s => (f s.1, s.2)

/-- Put a node into the builder, and then record it. -/
def putNode (name : String) (slots : Except Fault (List Slot)) : Building ρ Unit := do
  if (← get).1.nodes.contains name then throw (.grammar (.duplicate .node name))
  let slots ← Building.ofRecorded (Recorded.ofExcept slots)
  change fun b => { b with nodes := b.nodes.insert name ⟨name, slots⟩ }
  Building.ofRecorded (note (.registeredNode name slots.length))

/-- Put a leaf into the builder, and then record it. -/
def putLeaf (name : String) (generator : ρ) : Building ρ Unit := do
  if (← get).1.leaves.contains name then throw (.grammar (.duplicate .leaf name))
  change fun b => { b with leaves := b.leaves.insert name ⟨name, generator⟩ }
  Building.ofRecorded (note (.registeredLeaf name))

/-- Put the root into the builder. -/
def putRoot (root : Option String) : Building ρ Unit := do
  match (← get).1.root with
  | some known => throw (.grammar (.rootAlreadySet known))
  | none => change fun b => { b with root }

namespace Call

/-- Make a call of a builder that is kept. -/
def perform : Call ρ → Building ρ Unit
  | .registerNode name slots => putNode name slots
  | .terminal name slots => putNode name slots
  | .registerLeaf name generator => putLeaf name generator
  | .setRoot root => putRoot root
  | .validate => do
    let b := (← get).1
    discard (Building.ofRecorded b.build)

/-- What a call makes of a builder that is a value. -/
def result (b : Builder ρ) : Call ρ → Recorded (Builder ρ)
  | .registerNode name slots => b.registerNode name slots
  | .terminal name slots => b.registerNode name slots
  | .registerLeaf name generator => b.registerLeaf name generator
  | .setRoot root => b.setRoot root
  | .validate => do
    discard b.build
    return b

end Call

section
variable {b : Builder ρ} {name : String}

theorem putNode_of_mem (h : name ∈ b.nodes) (slots : Except Fault (List Slot)) (log : Log) :
    putNode name slots (b, log) = .error (.grammar (.duplicate .node name)) (b, log) := by
  have hcontains : b.nodes.contains name = true := Table.contains_iff.2 h
  simp [putNode, bind_run, hcontains]

theorem putNode_of_not_mem (h : name ∉ b.nodes) (slots : Except Fault (List Slot)) (log : Log) :
    putNode name slots (b, log) =
      match slots with
      | .error f => .error f (b, log)
      | .ok slots => .ok () ({ b with nodes := b.nodes.insert name ⟨name, slots⟩ },
          log ++ [.registeredNode name slots.length]) := by
  have hcontains : ¬ b.nodes.contains name = true := fun hc => h (Table.contains_iff.1 hc)
  cases slots with
  | error f => simp [putNode, bind_run, hcontains, Building.ofRecorded, Recorded.ofExcept]
  | ok slots =>
    simp [putNode, bind_run, hcontains, Building.ofRecorded, Recorded.ofExcept, change, note]

theorem putLeaf_of_mem (h : name ∈ b.leaves) (generator : ρ) (log : Log) :
    putLeaf name generator (b, log) = .error (.grammar (.duplicate .leaf name)) (b, log) := by
  have hcontains : b.leaves.contains name = true := Table.contains_iff.2 h
  simp [putLeaf, bind_run, hcontains]

theorem putLeaf_of_not_mem (h : name ∉ b.leaves) (generator : ρ) (log : Log) :
    putLeaf name generator (b, log) =
      .ok () ({ b with leaves := b.leaves.insert name ⟨name, generator⟩ },
        log ++ [.registeredLeaf name]) := by
  have hcontains : ¬ b.leaves.contains name = true := fun hc => h (Table.contains_iff.1 hc)
  simp [putLeaf, bind_run, hcontains, Building.ofRecorded, change, note]

theorem putRoot_eq (root : Option String) (log : Log) :
    putRoot root (b, log) =
      match b.root with
      | some known => .error (.grammar (.rootAlreadySet known)) (b, log)
      | none => .ok () ({ b with root }, log) := by
  cases h : b.root <;> simp [putRoot, bind_run, h, change]

end

namespace Call

theorem perform_validate (b : Builder ρ) (log : Log) :
    perform .validate (b, log) =
      match b.build log with
      | .ok _ log' => .ok () (b, log')
      | .error f log' => .error f (b, log') := by
  cases h : b.build log <;>
    simp [perform, discard, Functor.mapConst, EStateM.map, bind_run, Building.ofRecorded, h]

/-- A call does to a builder that is kept what it makes of one that is a value: it puts the new
builder in the place of the old one, or fails and leaves the old one. -/
theorem perform_eq (c : Call ρ) (b : Builder ρ) (log : Log) :
    c.perform (b, log) =
      match c.result b log with
      | .ok b' log' => .ok () (b', log')
      | .error f log' => .error f (b, log') := by
  have hnode : ∀ name slots, putNode name slots (b, log) =
      match b.registerNode name slots log with
      | .ok b' log' => .ok () (b', log')
      | .error f log' => .error f (b, log') := by
    intro name slots
    by_cases h : name ∈ b.nodes
    · rw [putNode_of_mem h, Builder.registerNode, if_pos (Table.contains_iff.2 h)]
      rfl
    · rw [putNode_of_not_mem h]
      cases slots with
      | error f =>
        rw [Builder.registerNode, if_neg fun hc => h (Table.contains_iff.1 hc)]
        rfl
      | ok slots => rw [registerNode_of_not_mem h]
  cases c with
  | registerNode name slots => exact hnode name slots
  | terminal name slots => exact hnode name slots
  | registerLeaf name generator =>
    by_cases h : name ∈ b.leaves
    · rw [perform, putLeaf_of_mem h, result, Builder.registerLeaf,
        if_pos (Table.contains_iff.2 h)]
      rfl
    · rw [perform, putLeaf_of_not_mem h, result, registerLeaf_of_not_mem h]
  | setRoot root =>
    rw [perform, putRoot_eq, result, Builder.setRoot]
    cases b.root with
    | none => rfl
    | some known => rfl
  | validate =>
    rw [perform_validate, result]
    cases h : b.build log <;>
      simp [discard, Functor.mapConst, EStateM.map, bind_run, h]

/-! ## When a call fails -/

section
variable {f : Fault} {s s' : Builder ρ × Log}

/-- The slots of a node are only looked at when its name is free. -/
theorem perform_registerNode_eq_error {name : String} {slots : Except Fault (List Slot)} :
    (registerNode name slots).perform s = .error f s' ↔
      (if name ∈ s.1.nodes then f = .grammar (.duplicate .node name) else slots = .error f) ∧
        s' = s := by
  obtain ⟨b, log⟩ := s
  rw [perform]
  split
  · rename_i h
    simp [putNode_of_mem h, eq_comm]
  · rename_i h
    cases slots <;> simp [putNode_of_not_mem h, eq_comm]

theorem perform_registerLeaf_eq_error {name : String} {generator : ρ} :
    (registerLeaf name generator).perform s = .error f s' ↔
      (name ∈ s.1.leaves ∧ f = .grammar (.duplicate .leaf name)) ∧ s' = s := by
  obtain ⟨b, log⟩ := s
  rw [perform]
  by_cases h : name ∈ b.leaves
  · simp [putLeaf_of_mem h, h, eq_comm]
  · simp [putLeaf_of_not_mem h, h]

theorem perform_setRoot_eq_error {root : Option String} :
    (setRoot root).perform s = .error f s' ↔
      (∃ known, s.1.root = some known ∧ f = .grammar (.rootAlreadySet known)) ∧ s' = s := by
  obtain ⟨b, log⟩ := s
  rw [perform, putRoot_eq]
  cases b.root <;> simp [eq_comm]

theorem perform_validate_eq_error :
    validate.perform s = .error f s' ↔
      FirstFault s.1.root s.1.nodes s.1.leaves f ∧ s' = s := by
  obtain ⟨b, log⟩ := s
  rw [perform_validate]
  cases h : b.build log with
  | ok g log' =>
    have hnone : ¬ FirstFault b.root b.nodes b.leaves f := by
      intro hf
      have hfail : b.build log = .error f log := Grammar.ofTables_eq_error.2 ⟨hf, rfl⟩
      rw [h] at hfail
      cases hfail
    simp [hnone]
  | error f' log' =>
    obtain ⟨hf', rfl⟩ := Grammar.ofTables_eq_error.1 h
    constructor
    · rintro ⟨⟩
      exact ⟨hf', rfl⟩
    · rintro ⟨hf, rfl⟩
      have hfail : b.build log' = .error f log' := Grammar.ofTables_eq_error.2 ⟨hf, rfl⟩
      rw [h] at hfail
      cases hfail
      rfl

/-- A call that fails leaves the builder and the record as they were. -/
theorem eq_of_perform_eq_error {c : Call ρ} (h : c.perform s = .error f s') : s' = s := by
  cases c with
  | registerNode name slots => exact (perform_registerNode_eq_error.1 h).2
  | terminal name slots => exact (perform_registerNode_eq_error.1 h).2
  | registerLeaf name generator => exact (perform_registerLeaf_eq_error.1 h).2
  | setRoot root => exact (perform_setRoot_eq_error.1 h).2
  | validate => exact (perform_validate_eq_error.1 h).2

end

/-- The builder and the record after a call, also after one that fails. -/
def after (c : Call ρ) (s : Builder ρ × Log) : Builder ρ × Log :=
  match c.perform s with
  | .ok _ s' => s'
  | .error _ s' => s'

/-- Whether a call goes through. -/
def succeeds (c : Call ρ) (s : Builder ρ × Log) : Bool :=
  match c.perform s with
  | .ok _ _ => true
  | .error _ _ => false

/-- The node that a call registers when its name is free. -/
def node? : Call ρ → Option (String × NodeDefinition)
  | .registerNode name (.ok slots) => some (name, ⟨name, slots⟩)
  | .terminal name (.ok slots) => some (name, ⟨name, slots⟩)
  | _ => none

/-- The leaf that a call registers when its name is free. -/
def leaf? : Call ρ → Option (String × LeafGenerator ρ)
  | .registerLeaf name generator => some (name, ⟨name, generator⟩)
  | _ => none

/-- The root that a call sets when there is none. -/
def root? : Call ρ → Option String
  | .setRoot root => root
  | _ => none

section
variable {b : Builder ρ} {log : Log}

/-- The builder after a call has what the call adds, as far as it was free. -/
theorem after_eq (c : Call ρ) (s : Builder ρ × Log) :
    (c.after s).1 =
      { root := s.1.root.or c.root?
        nodes := s.1.nodes.keepAll c.node?.toList
        leaves := s.1.leaves.keepAll c.leaf?.toList } := by
  obtain ⟨b, log⟩ := s
  have hnode : ∀ name slots, ((registerNode name slots).after (b, log)).1 =
      { b with nodes := b.nodes.keepAll (registerNode name slots : Call ρ).node?.toList } := by
    intro name slots
    by_cases h : name ∈ b.nodes
    · cases slots <;>
        simp [after, perform, putNode_of_mem h, node?, Table.keepAll, Table.keep_of_mem h]
    · cases slots <;>
        simp [after, perform, putNode_of_not_mem h, node?, Table.keepAll, Table.keep_of_not_mem h]
  cases c with
  | registerNode name slots =>
    rw [hnode]
    simp [root?, leaf?, Table.keepAll]
  | terminal name slots =>
    have hsame : (terminal name slots : Call ρ).after (b, log) =
        (registerNode name slots).after (b, log) := rfl
    rw [hsame, hnode]
    cases slots <;> simp [root?, leaf?, node?, Table.keepAll]
  | registerLeaf name generator =>
    by_cases h : name ∈ b.leaves
    · simp [after, perform, putLeaf_of_mem h, root?, leaf?, node?, Table.keepAll,
        Table.keep_of_mem h]
    · simp [after, perform, putLeaf_of_not_mem h, root?, leaf?, node?, Table.keepAll,
        Table.keep_of_not_mem h]
  | setRoot root =>
    obtain ⟨known, nodes, leaves⟩ := b
    cases known <;> simp [after, perform, putRoot_eq, root?, leaf?, node?, Table.keepAll]
  | validate =>
    rw [after, perform_validate]
    cases b.build log <;> simp [root?, leaf?, node?, Table.keepAll]

theorem after_of_fails {c : Call ρ} {s : Builder ρ × Log} (h : c.succeeds s = false) :
    c.after s = s := by
  rw [succeeds] at h
  rw [after]
  cases hc : c.perform s with
  | ok _ s' => simp [hc] at h
  | error f s' => exact eq_of_perform_eq_error hc

/-- A call only registers a node whose name is free. -/
theorem node_free_of_succeeds {c : Call ρ} (h : c.succeeds (b, log) = true) (name : String)
    (d : NodeDefinition) (hnode : c.node? = some (name, d)) : name ∉ b.nodes := by
  intro hmem
  cases c with
  | registerNode other slots =>
    cases slots <;> simp [node?] at hnode
    simp [succeeds, perform, hnode.1, putNode_of_mem hmem] at h
  | terminal other slots =>
    cases slots <;> simp [node?] at hnode
    simp [succeeds, perform, hnode.1, putNode_of_mem hmem] at h
  | registerLeaf _ _ => simp [node?] at hnode
  | setRoot _ => simp [node?] at hnode
  | validate => simp [node?] at hnode

/-- A call only registers a leaf whose name is free. -/
theorem leaf_free_of_succeeds {c : Call ρ} (h : c.succeeds (b, log) = true) (name : String)
    (l : LeafGenerator ρ) (hleaf : c.leaf? = some (name, l)) : name ∉ b.leaves := by
  intro hmem
  cases c with
  | registerLeaf other generator =>
    simp only [leaf?, Option.some.injEq, Prod.mk.injEq] at hleaf
    simp [succeeds, perform, hleaf.1, putLeaf_of_mem hmem] at h
  | registerNode _ _ => simp [leaf?] at hleaf
  | terminal _ _ => simp [leaf?] at hleaf
  | setRoot _ => simp [leaf?] at hleaf
  | validate => simp [leaf?] at hleaf

/-- A call that goes through puts what it registers at the ends of the tables. -/
theorem entries_after_of_succeeds {c : Call ρ} {s : Builder ρ × Log} (h : c.succeeds s = true) :
    (c.after s).1.nodes.entries = s.1.nodes.entries ++ c.node?.toList ∧
      (c.after s).1.leaves.entries = s.1.leaves.entries ++ c.leaf?.toList := by
  rw [after_eq]
  exact ⟨Table.entries_keepAll_toList (node_free_of_succeeds h),
    Table.entries_keepAll_toList (leaf_free_of_succeeds h)⟩

end

/-- The calls that register nodes. -/
def isNode : Call ρ → Bool
  | .registerNode _ _ => true
  | .terminal _ _ => true
  | _ => false

/-- The calls that register leaves. -/
def isLeaf : Call ρ → Bool
  | .registerLeaf _ _ => true
  | _ => false

theorem isNode_of_node? {c : Call ρ} {e : String × NodeDefinition} (h : c.node? = some e) :
    c.isNode = true := by
  cases c <;> simp [node?] at h <;> rfl

theorem isLeaf_of_leaf? {c : Call ρ} {e : String × LeafGenerator ρ} (h : c.leaf? = some e) :
    c.isLeaf = true := by
  cases c <;> simp [leaf?] at h
  rfl

end Call

/-! ## Many calls -/

/-- The builder and the record after calls one after the other. -/
def afterAll (calls : List (Call ρ)) (s : Builder ρ × Log) : Builder ρ × Log :=
  calls.foldl (fun s c => c.after s) s

/-- The calls that go through when calls are made one after the other. -/
def succeeding : List (Call ρ) → Builder ρ × Log → List (Call ρ)
  | [], _ => []
  | c :: rest, s =>
    if c.succeeds s then c :: succeeding rest (c.after s) else succeeding rest (c.after s)

/-- The names of the nodes that calls register. -/
def nodeNames (calls : List (Call ρ)) : List String := (calls.filterMap Call.node?).map Prod.fst

/-- The names of the leaves that calls register. -/
def leafNames (calls : List (Call ρ)) : List String := (calls.filterMap Call.leaf?).map Prod.fst

/-- A builder holds what the calls `done` register, and the first root that they set. -/
structure Holds (done : List (Call ρ)) (b : Builder ρ) : Prop where
  nodes : b.nodes.entries = done.filterMap Call.node?
  leaves : b.leaves.entries = done.filterMap Call.leaf?
  root : b.root = done.findSome? Call.root?

@[simp] theorem afterAll_cons (c : Call ρ) (rest : List (Call ρ)) (s : Builder ρ × Log) :
    afterAll (c :: rest) s = afterAll rest (c.after s) := rfl

/-- The calls that fail might as well not have been made. -/
theorem afterAll_succeeding (calls : List (Call ρ)) (s : Builder ρ × Log) :
    afterAll (succeeding calls s) s = afterAll calls s := by
  induction calls generalizing s with
  | nil => rfl
  | cons c rest ih =>
    rw [succeeding]
    cases h : c.succeeds s with
    | true => exact ih (c.after s)
    | false =>
      rw [afterAll_cons, Call.after_of_fails h]
      exact ih s

/-- The builder after calls has what all of them add, the first entry for a name counting. -/
theorem afterAll_eq (calls : List (Call ρ)) (s : Builder ρ × Log) :
    (afterAll calls s).1 =
      { root := s.1.root.or (calls.findSome? Call.root?)
        nodes := s.1.nodes.keepAll (calls.filterMap Call.node?)
        leaves := s.1.leaves.keepAll (calls.filterMap Call.leaf?) } := by
  induction calls generalizing s with
  | nil => simp [afterAll, Table.keepAll]
  | cons c rest ih =>
    rw [afterAll_cons, ih, c.after_eq, Table.keepAll_filterMap_cons, Table.keepAll_filterMap_cons,
      List.findSome?_cons]
    cases c.root? <;> simp

/-- The tables grow by what the calls that go through register. -/
theorem entries_afterAll (calls : List (Call ρ)) (s : Builder ρ × Log) :
    (afterAll calls s).1.nodes.entries =
        s.1.nodes.entries ++ (succeeding calls s).filterMap Call.node? ∧
      (afterAll calls s).1.leaves.entries =
        s.1.leaves.entries ++ (succeeding calls s).filterMap Call.leaf? := by
  induction calls generalizing s with
  | nil => simp [afterAll, succeeding]
  | cons c rest ih =>
    rw [afterAll_cons, succeeding, (ih _).1, (ih _).2]
    cases h : c.succeeds s with
    | true =>
      obtain ⟨hnodes, hleaves⟩ := Call.entries_after_of_succeeds h
      rw [hnodes, hleaves]
      constructor
      · cases hnode : c.node? <;> simp [hnode]
      · cases hleaf : c.leaf? <;> simp [hleaf]
    | false => simp [Call.after_of_fails h]

/-- A fresh builder holds what the calls that go through register. -/
theorem holds_afterAll (calls : List (Call ρ)) (log : Log) :
    Holds (succeeding calls ({}, log)) (afterAll calls ({}, log)).1 := by
  obtain ⟨hnodes, hleaves⟩ := entries_afterAll calls ({}, log)
  refine ⟨by simpa [Table.empty] using hnodes, by simpa [Table.empty] using hleaves, ?_⟩
  rw [← afterAll_succeeding, afterAll_eq]
  simp

/-- The nodes are those that the calls for nodes leave when they are made alone. -/
theorem nodes_afterAll_filter (calls : List (Call ρ)) (s : Builder ρ × Log) :
    (afterAll (calls.filter Call.isNode) s).1.nodes = (afterAll calls s).1.nodes := by
  have hnodes : (calls.filter Call.isNode).filterMap Call.node? = calls.filterMap Call.node? := by
    rw [List.filterMap_filter]
    apply List.filterMap_congr
    intro c _
    cases h : c.node? with
    | none => simp
    | some e => simp [Call.isNode_of_node? h]
  rw [afterAll_eq, afterAll_eq, hnodes]

/-- The leaves are those that the calls for leaves leave when they are made alone. -/
theorem leaves_afterAll_filter (calls : List (Call ρ)) (s : Builder ρ × Log) :
    (afterAll (calls.filter Call.isLeaf) s).1.leaves = (afterAll calls s).1.leaves := by
  have hleaves : (calls.filter Call.isLeaf).filterMap Call.leaf? = calls.filterMap Call.leaf? := by
    rw [List.filterMap_filter]
    apply List.filterMap_congr
    intro c _
    cases h : c.leaf? with
    | none => simp
    | some e => simp [Call.isLeaf_of_leaf? h]
  rw [afterAll_eq, afterAll_eq, hleaves]

/-- Calls of a fresh builder leave what those of them register that go through, and the others
leave nothing. A node fails exactly when one of its name has been registered, and then its slots
do not matter, or when its slots are faulty; a leaf fails exactly when one of its name has been
registered, whatever the nodes; a root fails exactly when one has been given before. A call that
fails leaves everything as it was, and asking for the grammar leaves the builder as it was. Of
several entries for a name the first one counts, and nodes and leaves do not interfere. All along
the next call does to the builder that is kept what the registration makes of it as a value. -/
theorem afterAll_exact (calls : List (Call ρ)) (log : Log) :
    let s := afterAll calls ({}, log)
    let done := succeeding calls ({}, log)
    (afterAll done ({}, log) = s ∧ Holds done s.1 ∧
      (nodeNames done).Nodup ∧ (leafNames done).Nodup) ∧
    (∀ name slots, ∀ c ∈ [Call.registerNode name slots, Call.terminal name slots], ∀ f s',
      c.perform s = .error f s' ↔
        (if name ∈ nodeNames done then f = .grammar (.duplicate .node name)
          else slots = .error f) ∧ s' = s) ∧
    (∀ name generator f s', (Call.registerLeaf name generator).perform s = .error f s' ↔
      (name ∈ leafNames done ∧ f = .grammar (.duplicate .leaf name)) ∧ s' = s) ∧
    (∀ root f s', (Call.setRoot root).perform s = .error f s' ↔
      (∃ known, calls.findSome? Call.root? = some known ∧
        f = .grammar (.rootAlreadySet known)) ∧ s' = s) ∧
    ((Call.validate.after s).1 = s.1 ∧
      ∀ f s', Call.validate.perform s = .error f s' → s' = s) ∧
    (∀ name, s.1.nodes.find? name = (calls.filterMap Call.node?).lookup name ∧
      s.1.leaves.find? name = (calls.filterMap Call.leaf?).lookup name) ∧
    ((afterAll (calls.filter Call.isNode) ({}, log)).1.nodes = s.1.nodes ∧
      (afterAll (calls.filter Call.isLeaf) ({}, log)).1.leaves = s.1.leaves) ∧
    ∀ c : Call ρ, c.perform s =
      match c.result s.1 s.2 with
      | .ok b' log' => .ok () (b', log')
      | .error f log' => .error f (s.1, log') := by
  intro s done
  have hholds : Holds done s.1 := holds_afterAll calls log
  have hs : s.1 = _ := afterAll_eq calls ({}, log)
  have hnodes : s.1.nodes.names = nodeNames done := by rw [Table.names, hholds.nodes, nodeNames]
  have hleaves : s.1.leaves.names = leafNames done := by
    rw [Table.names, hholds.leaves, leafNames]
  have hroot : s.1.root = calls.findSome? Call.root? := by simp [hs]
  refine ⟨⟨afterAll_succeeding calls _, hholds, hnodes ▸ s.1.nodes.nodup,
    hleaves ▸ s.1.leaves.nodup⟩, ?_, ?_, ?_, ⟨?_, ?_⟩, ?_,
    ⟨nodes_afterAll_filter calls _, leaves_afterAll_filter calls _⟩,
    fun c => c.perform_eq s.1 s.2⟩
  · intro name slots c hc f s'
    have hregister : c.perform s = (Call.registerNode name slots).perform s := by
      rcases List.mem_pair.1 hc with rfl | rfl
      · rfl
      · rfl
    have hmem : name ∈ s.1.nodes ↔ name ∈ nodeNames done := by rw [Table.mem_iff, hnodes]
    rw [hregister]
    simp only [Call.perform_registerNode_eq_error, hmem]
  · intro name generator f s'
    rw [Call.perform_registerLeaf_eq_error, Table.mem_iff, hleaves]
  · intro root f s'
    rw [Call.perform_setRoot_eq_error, hroot]
  · simp [Call.after_eq, Call.root?, Call.node?, Call.leaf?, Table.keepAll]
  · exact fun f s' h => Call.eq_of_perform_eq_error h
  · intro name
    rw [hs]
    exact ⟨by rw [Table.find?_keepAll]; rfl, by rw [Table.find?_keepAll]; rfl⟩

/-- A node whose slots are faulty leaves its name free. -/
example : (afterAll [Call.registerNode "empty" (.error .exhausted), .registerLeaf "empty" (),
    .terminal "empty" (.ok [])] ({}, [])).1.nodes.names = ["empty"] := by decide

end Builder

end RandomDerivation
