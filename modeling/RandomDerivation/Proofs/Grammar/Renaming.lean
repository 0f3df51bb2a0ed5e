import Mathlib.Data.List.Nodup
import Mathlib.Data.Set.Function
import RandomDerivation.Grammar.Grounding
import RandomDerivation.Proofs.Grammar.Checked
import RandomDerivation.Proofs.Grammar.Grounding

/-!
# Grammars under other names

The nodes and the leaves of a grammar can be renamed independently, also so that a node and a leaf
come to share a name, as long as two nodes stay different and two leaves do. The renamed tables
pass the check, and the passes that look for grounded nodes find the renamed ones.
-/

namespace RandomDerivation

namespace Table
variable {α β : Type}

/-- A table with other names and values, where different names stay different. -/
def relabel (t : Table α) (name : String → String) (value : α → β)
    (h : Set.InjOn name {k | k ∈ t}) : Table β where
  entries := t.entries.map fun e => (name e.1, value e.2)
  nodup := by
    have hnames : (t.entries.map fun e => (name e.1, value e.2)).map Prod.fst =
        t.names.map name := by simp [names]
    rw [hnames]
    exact List.Nodup.map_on (fun k hk k' hk' heq => h hk hk' heq) t.nodup

section
variable {t : Table α} {name : String → String} {value : α → β} {h : Set.InjOn name {k | k ∈ t}}

theorem names_relabel : (t.relabel name value h).names = t.names.map name := by
  simp [names, relabel]

theorem entries_relabel :
    (t.relabel name value h).entries = t.entries.map fun e => (name e.1, value e.2) := rfl

theorem values_relabel : (t.relabel name value h).values = t.values.map value := by
  simp [values, relabel]

theorem mem_relabel {k : String} : k ∈ t.relabel name value h ↔ ∃ k' ∈ t, name k' = k := by
  rw [mem_iff, names_relabel, List.mem_map]
  rfl

/-- What stands beside a new name is what stood beside the old one. -/
theorem find?_relabel {k : String} {a : α} (hk : t.find? k = some a) :
    (t.relabel name value h).find? (name k) = some (value a) :=
  find?_eq_some_iff.2 (List.mem_map.2 ⟨_, find?_eq_some_iff.1 hk, rfl⟩)

end

theorem relabel_id {t : Table α} {value : α → α} (hvalue : ∀ a, value a = a)
    (h : Set.InjOn (fun name => name) {k | k ∈ t}) :
    t.relabel (fun name => name) value h = t := by
  obtain ⟨entries, nodup⟩ := t
  simp [relabel, hvalue]

end Table

/-- New names for nodes and for leaves. -/
structure Renaming where
  node : String → String
  leaf : String → String

namespace Renaming

/-- Every name stays as it is. -/
protected def id : Renaming := ⟨fun name => name, fun name => name⟩

/-- The new names of a kind. -/
def of (σ : Renaming) : Kind → String → String
  | .node => σ.node
  | .leaf => σ.leaf

end Renaming

def Reference.rename (σ : Renaming) (r : Reference) : Reference := ⟨r.kind, σ.of r.kind r.name⟩

theorem Reference.rename_id (r : Reference) : r.rename .id = r := by
  match r with
  | ⟨.node, name⟩ => rfl
  | ⟨.leaf, name⟩ => rfl

namespace Slot

mutual

/-- A slot whose references have new names. -/
def rename (σ : Renaming) : Slot → Slot
  | .leaf name => .leaf (σ.leaf name)
  | .node name => .node (σ.node name)
  | .choice first others => .choice (first.rename σ) (renameAll σ others)
  | .foreign value => .foreign value

/-- Slots whose references have new names. -/
def renameAll (σ : Renaming) : List Slot → List Slot
  | [] => []
  | s :: rest => s.rename σ :: renameAll σ rest

end

def Item.rename (σ : Renaming) : Item → Item
  | .reference r => .reference (r.rename σ)
  | .foreign value => .foreign value

variable {σ : Renaming}

theorem renameAll_eq_map (slots : List Slot) : renameAll σ slots = slots.map (rename σ) := by
  induction slots with
  | nil => rfl
  | cons s rest ih => rw [renameAll, ih, List.map_cons]

theorem rename_choice (first : Slot) (others : List Slot) :
    (choice first others).rename σ = .choice (first.rename σ) (others.map (rename σ)) := by
  rw [rename, renameAll_eq_map]

/-- What is found in a renamed slot is what was found in it, renamed. -/
theorem items_rename (s : Slot) : (s.rename σ).items = s.items.map (Item.rename σ) := by
  induction s using Slot.induction with
  | leaf name => rfl
  | node name => rfl
  | choice first others ih =>
    rw [rename_choice, items_choice, items_choice, ← List.map_cons, List.flatMap_map,
      List.map_flatMap, List.flatMap_def, List.flatMap_def, List.map_congr_left ih]
  | foreign value => rfl

theorem itemsOfAll_rename (slots : List Slot) :
    itemsOfAll (slots.map (rename σ)) = (itemsOfAll slots).map (Item.rename σ) := by
  simp only [itemsOfAll_eq_flatMap, List.flatMap_map, List.map_flatMap, items_rename]

theorem rename_id (s : Slot) : s.rename .id = s := by
  induction s using Slot.induction with
  | leaf name => rfl
  | node name => rfl
  | choice first others ih =>
    obtain ⟨hfirst, hothers⟩ := List.forall_mem_cons.1 ih
    rw [rename_choice, hfirst, List.map_congr_left hothers, List.map_id']
  | foreign value => rfl

end Slot

def NodeDefinition.rename (σ : Renaming) (d : NodeDefinition) : NodeDefinition :=
  ⟨σ.node d.name, d.slots.map (Slot.rename σ)⟩

theorem NodeDefinition.rename_id (d : NodeDefinition) : d.rename .id = d := by
  rw [rename, List.map_congr_left fun s _ => Slot.rename_id s, List.map_id']
  rfl

variable {ρ : Type}

def LeafGenerator.rename (σ : Renaming) (leaf : LeafGenerator ρ) : LeafGenerator ρ :=
  ⟨σ.leaf leaf.name, leaf.generator⟩

/-- Two nodes of a grammar do not get the same name, and neither do two leaves. A node and a leaf
may. -/
structure Renaming.Fits (σ : Renaming) (g : Grammar ρ) : Prop where
  node : Set.InjOn σ.node {name | name ∈ g.nodes}
  leaf : Set.InjOn σ.leaf {name | name ∈ g.leaves}

theorem Renaming.fits_id (g : Grammar ρ) : Renaming.id.Fits g where
  node _ _ _ _ heq := heq
  leaf _ _ _ _ heq := heq

/-! ## Grammars -/

namespace Grammar

/-- The tables of a grammar with new names. -/
def renamedNodes (g : Grammar ρ) (σ : Renaming) (h : σ.Fits g) : Table NodeDefinition :=
  g.nodes.relabel σ.node (NodeDefinition.rename σ) h.node

@[inherit_doc renamedNodes]
def renamedLeaves (g : Grammar ρ) (σ : Renaming) (h : σ.Fits g) : Table (LeafGenerator ρ) :=
  g.leaves.relabel σ.leaf (LeafGenerator.rename σ) h.leaf

section
variable {g : Grammar ρ} {σ : Renaming} {h : σ.Fits g}

/-- A defined reference stays defined, as what it was. -/
theorem isDefined_rename {r : Reference} (hr : isDefined g.nodes g.leaves r = true) :
    isDefined (g.renamedNodes σ h) (g.renamedLeaves σ h) (r.rename σ) = true := by
  match r, hr with
  | ⟨.node, name⟩, hr =>
    exact Table.contains_iff.2 (Table.mem_relabel.2 ⟨name, Table.contains_iff.1 hr, rfl⟩)
  | ⟨.leaf, name⟩, hr =>
    exact Table.contains_iff.2 (Table.mem_relabel.2 ⟨name, Table.contains_iff.1 hr, rfl⟩)

/-- The renamed tables pass the check. -/
theorem checkReferences_rename :
    checkReferences (g.start.rename σ).name (g.renamedNodes σ h) (g.renamedLeaves σ h) =
      .ok () := by
  refine checkReferences_eq_ok.2 ⟨?_, ?_⟩
  · have hstart := isDefined_rename (h := h) g.isDefined_start
    rw [← Table.contains_iff, ← Table.contains_iff]
    unfold isDefined at hstart
    split at hstart
    · exact .inl hstart
    · exact .inr hstart
  · intro d' hd' item' hitem'
    rw [renamedNodes, Table.values_relabel] at hd'
    obtain ⟨d, hd, rfl⟩ := List.mem_map.1 hd'
    rw [NodeDefinition.items, NodeDefinition.rename, Slot.itemsOfAll_rename] at hitem'
    obtain ⟨item, hitem, rfl⟩ := List.mem_map.1 hitem'
    obtain ⟨r, rfl, hr⟩ := (checkReferences_eq_ok.1 g.checked).2 d hd item hitem
    exact ⟨r.rename σ, rfl, isDefined_rename hr⟩

end

/-- The grammar under new names. The name of the root is that of a node or of a leaf, as the root
is one. -/
def rename (g : Grammar ρ) (σ : Renaming) (h : σ.Fits g) : Grammar ρ where
  root := (g.start.rename σ).name
  nodes := g.renamedNodes σ h
  leaves := g.renamedLeaves σ h
  checked := checkReferences_rename

section
variable {g : Grammar ρ} {σ : Renaming} {h : σ.Fits g}

theorem nodes_rename : (g.rename σ h).nodes = g.renamedNodes σ h := rfl

theorem find?_nodes_rename {name : String} {d : NodeDefinition}
    (hd : g.nodes.find? name = some d) :
    (g.rename σ h).nodes.find? (σ.node name) = some (d.rename σ) :=
  Table.find?_relabel (h := h.node) hd

theorem find?_leaves_rename {name : String} {leaf : LeafGenerator ρ}
    (hleaf : g.leaves.find? name = some leaf) :
    (g.rename σ h).leaves.find? (σ.leaf name) = some (leaf.rename σ) :=
  Table.find?_relabel (h := h.leaf) hleaf

theorem start_rename (hkind : (g.rename σ h).rootKind = g.rootKind) :
    (g.rename σ h).start = g.start.rename σ := by
  rw [start, hkind]
  rfl

end

/-- Where every name stays as it is, so does the grammar. -/
theorem rename_id (g : Grammar ρ) : g.rename .id (Renaming.fits_id g) = g := by
  have hroot : (g.rename .id (Renaming.fits_id g)).root = g.root :=
    congrArg Reference.name (Reference.rename_id g.start)
  have hnodes : (g.rename .id (Renaming.fits_id g)).nodes = g.nodes :=
    Table.relabel_id NodeDefinition.rename_id (Renaming.fits_id g).node
  have hleaves : (g.rename .id (Renaming.fits_id g)).leaves = g.leaves :=
    Table.relabel_id (fun leaf => rfl) (Renaming.fits_id g).leaf
  -- That the tables pass the check is no further part of a grammar.
  generalize g.rename .id (Renaming.fits_id g) = g' at hroot hnodes hleaves
  cases g
  cases g'
  cases hroot
  cases hnodes
  cases hleaves
  rfl

end Grammar

/-- New names are told apart as the old ones are. -/
theorem contains_map_of_injOn {f : String → String} {names : Set String} (hf : Set.InjOn f names)
    {known : List String} (hknown : ∀ name ∈ known, name ∈ names) {name : String}
    (hname : name ∈ names) : (known.map f).contains (f name) = known.contains name := by
  rw [Bool.eq_iff_iff, List.contains_iff_mem, List.contains_iff_mem, List.mem_map]
  constructor
  · rintro ⟨other, hother, heq⟩
    rwa [← hf (hknown other hother) hname heq]
  · intro h
    exact ⟨name, h, rfl⟩

namespace Grammar

section
variable {g : Grammar ρ} {σ : Renaming} {known : List String}

/-- A node is seen to be grounded under its new name when it is under the old one. -/
theorem isGrounded_rename (h : σ.Fits g) (hknown : ∀ name ∈ known, name ∈ g.nodes)
    {d : NodeDefinition} (hd : d ∈ g.nodes.values) :
    (d.rename σ).isGrounded (known.map σ.node) = d.isGrounded known := by
  have hitems : ∀ item ∈ d.items,
      (item.rename σ).isGrounded (known.map σ.node) = item.isGrounded known := by
    intro item hitem
    obtain ⟨r, rfl, hr⟩ := (checkReferences_eq_ok.1 g.checked).2 d hd item hitem
    match r, hr with
    | ⟨.leaf, _⟩, _ => rfl
    | ⟨.node, name⟩, hr => exact contains_map_of_injOn h.node hknown (Table.contains_iff.1 hr)
  rw [NodeDefinition.isGrounded, NodeDefinition.isGrounded, NodeDefinition.rename,
    List.isEmpty_map, Slot.anyGrounded_eq_any, Slot.anyGrounded_eq_any, Slot.itemsOfAll_rename,
    List.any_map]
  congr 1
  rw [Bool.eq_iff_iff, List.any_eq_true, List.any_eq_true]
  apply exists_congr
  intro item
  apply and_congr_right
  intro hitem
  rw [Function.comp_apply, hitems item hitem]

/-- A pass over renamed nodes finds the renamed names. -/
theorem groundingPass_rename (h : σ.Fits g) {entries : List (String × NodeDefinition)}
    (hentries : ∀ e ∈ entries, e ∈ g.nodes.entries) (hknown : ∀ name ∈ known, name ∈ g.nodes) :
    groundingPass (entries.map fun e => (σ.node e.1, e.2.rename σ)) (known.map σ.node) =
      (groundingPass entries known).map σ.node := by
  induction entries generalizing known with
  | nil => rfl
  | cons e entries ih =>
    obtain ⟨he, hrest⟩ := List.forall_mem_cons.1 hentries
    have hname : e.1 ∈ g.nodes := List.mem_map_of_mem he
    rw [List.map_cons, groundingPass_cons, groundingPass_cons,
      contains_map_of_injOn h.node hknown hname,
      isGrounded_rename h hknown (List.mem_map_of_mem he)]
    split
    · exact ih hrest (List.forall_mem_cons.2 ⟨hname, hknown⟩)
    · exact ih hrest hknown

theorem groundingRounds_rename (h : σ.Fits g) (fuel : Nat)
    (hknown : ∀ name ∈ known, name ∈ g.nodes) :
    groundingRounds (g.nodes.entries.map fun e => (σ.node e.1, e.2.rename σ)) fuel
        (known.map σ.node) =
      (groundingRounds g.nodes.entries fuel known).map σ.node := by
  induction fuel generalizing known with
  | zero => rfl
  | succ fuel ih =>
    have hnext : ∀ name ∈ groundingPass g.nodes.entries known, name ∈ g.nodes := by
      apply forall_mem_groundingPass _ hknown
      intro _ _ e he _
      exact List.mem_map_of_mem he
    -- The passes stop after the same number of rounds, since they find equally many names.
    simp only [groundingRounds, groundingPass_rename h (fun e he => he) hknown, List.length_map]
    split
    · rfl
    · exact ih hnext

/-- The nodes that are not grounded are the same ones, in the same order, under their new
names. -/
theorem ungrounded_rename (h : σ.Fits g) :
    (g.rename σ h).ungrounded = g.ungrounded.map σ.node := by
  have hgrounded : groundedNames (g.renamedNodes σ h) = (groundedNames g.nodes).map σ.node := by
    rw [groundedNames, groundedNames, Table.size, renamedNodes, Table.entries_relabel,
      List.length_map]
    exact groundingRounds_rename h _ (List.forall_mem_nil _)
  have hnames : ∀ name ∈ groundedNames g.nodes, name ∈ g.nodes := by
    refine forall_mem_groundingRounds ?_ _ (by simp)
    intro _ _ e he _
    exact List.mem_map_of_mem he
  rw [ungrounded, ungrounded, nodes_rename, hgrounded, renamedNodes, Table.names_relabel,
    List.filter_map]
  congr 1
  apply List.filter_congr
  intro name hname
  rw [Function.comp_apply, contains_map_of_injOn h.node hnames hname]

end

end Grammar

end RandomDerivation
