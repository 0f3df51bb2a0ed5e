import RandomDerivation.Proofs.Grammar.Grounding
import RandomDerivation.Proofs.Position

/-!
# The first fault of a grammar

What is found in a slot stands at a position: the numbers of the alternatives on the way to it,
through choices inside of choices. What is found in a table of nodes stands at a position that
starts with the number of the definition and that of the slot. A grammar can be built if its root
is defined and nothing bad is found at any position. Otherwise the fault is that of the root, or
that of the first position at which something bad is found.
-/

namespace RandomDerivation
variable {ρ : Type}

namespace Slot

/-- What is found in a slot at a position. -/
inductive Holds : Slot → List Nat → Item → Prop where
  | leaf (name : String) : Holds (.leaf name) [] (.reference ⟨.leaf, name⟩)
  | node (name : String) : Holds (.node name) [] (.reference ⟨.node, name⟩)
  | foreign (value : Json) : Holds (.foreign value) [] (.foreign value)
  | choice {first s : Slot} {others : List Slot} {i : Nat} {inner : List Nat} {item : Item} :
    (first :: others)[i]? = some s → Holds s inner item →
      Holds (.choice first others) (i :: inner) item

mutual

/-- What is found in a slot, from left to right with its positions. -/
def positioned : Slot → Positioned Item
  | .leaf name => [([], .reference ⟨.leaf, name⟩)]
  | .node name => [([], .reference ⟨.node, name⟩)]
  | .choice first others => .numbered (positioned first :: positionedAll others)
  | .foreign value => [([], .foreign value)]

/-- What is found in each of several slots. -/
def positionedAll : List Slot → List (Positioned Item)
  | [] => []
  | s :: rest => positioned s :: positionedAll rest

end

theorem positionedAll_eq_map (slots : List Slot) : positionedAll slots = slots.map positioned := by
  induction slots with
  | nil => rfl
  | cons s rest ih => rw [positionedAll, List.map_cons, ih]

theorem positioned_choice (first : Slot) (others : List Slot) :
    (choice first others).positioned = .numbered ((first :: others).map positioned) := by
  rw [positioned, positionedAll_eq_map, List.map_cons]

/-- Without their positions, the things found in a slot are what it is made of. -/
theorem map_snd_positioned (s : Slot) : s.positioned.map Prod.snd = s.items := by
  induction s using Slot.induction with
  | leaf name => rfl
  | node name => rfl
  | choice first others ih =>
    rw [positioned_choice, Positioned.map_snd_numbered, items_choice, List.flatMap_map]
    rw [List.flatMap_def, List.flatMap_def, List.map_congr_left ih]
  | foreign value => rfl

theorem ascending_positioned (s : Slot) : s.positioned.Ascending := by
  induction s using Slot.induction with
  | leaf name => exact List.pairwise_singleton _ _
  | node name => exact List.pairwise_singleton _ _
  | choice first others ih =>
    rw [positioned_choice]
    apply Positioned.ascending_numbered
    intro xs hxs
    obtain ⟨s, hs, rfl⟩ := List.mem_map.1 hxs
    exact ih s hs
  | foreign value => exact List.pairwise_singleton _ _

/-- What is listed in a slot is what is found there. -/
theorem mem_positioned {s : Slot} {position : List Nat} {item : Item} :
    (position, item) ∈ s.positioned ↔ s.Holds position item := by
  induction s using Slot.induction generalizing position with
  | leaf name =>
    rw [positioned, List.mem_singleton]
    constructor
    · rintro ⟨⟩
      exact .leaf name
    · rintro ⟨⟩
      rfl
  | node name =>
    rw [positioned, List.mem_singleton]
    constructor
    · rintro ⟨⟩
      exact .node name
    · rintro ⟨⟩
      rfl
  | choice first others ih =>
    rw [positioned_choice, Positioned.mem_numbered]
    constructor
    · rintro ⟨i, inner, xs, rfl, hxs, hitem⟩
      rw [List.getElem?_map, Option.map_eq_some_iff] at hxs
      obtain ⟨s, hs, rfl⟩ := hxs
      exact .choice hs ((ih s (List.mem_of_getElem? hs)).1 hitem)
    · rintro (_ | _ | _ | ⟨hs, hitem⟩)
      refine ⟨_, _, _, rfl, ?_, (ih _ (List.mem_of_getElem? hs)).2 hitem⟩
      rw [List.getElem?_map, hs, Option.map_some]
  | foreign value =>
    rw [positioned, List.mem_singleton]
    constructor
    · rintro ⟨⟩
      exact .foreign value
    · rintro ⟨⟩
      rfl

end Slot

/-- What is found in a table of nodes at a position: the definition, and what one of its slots
holds. -/
def HoldsAt (nodes : Table NodeDefinition) (position : List Nat) (d : NodeDefinition)
    (item : Slot.Item) : Prop :=
  ∃ i j inner s, position = i :: j :: inner ∧ nodes.values[i]? = some d ∧
    d.slots[j]? = some s ∧ s.Holds inner item

/-- What is found in the slots of a definition, with the definition and with positions. -/
def NodeDefinition.positioned (d : NodeDefinition) : Positioned (NodeDefinition × Slot.Item) :=
  (Positioned.numbered (d.slots.map Slot.positioned)).map fun p => (p.1, (d, p.2))

/-- What is found in the slots of a table of nodes, with positions. -/
def positionedItems (nodes : Table NodeDefinition) : Positioned (NodeDefinition × Slot.Item) :=
  .numbered (nodes.values.map NodeDefinition.positioned)

theorem NodeDefinition.mem_positioned {d d' : NodeDefinition} {position : List Nat}
    {item : Slot.Item} :
    (position, (d', item)) ∈ d.positioned ↔
      d' = d ∧ ∃ j inner s, position = j :: inner ∧ d.slots[j]? = some s ∧ s.Holds inner item := by
  simp only [positioned, List.mem_map, Prod.exists, Prod.mk.injEq, Positioned.mem_numbered,
    List.getElem?_map, Option.map_eq_some_iff]
  constructor
  · rintro ⟨_, _, ⟨j, inner, _, rfl, ⟨s, hs, rfl⟩, hitem⟩, rfl, rfl, rfl⟩
    exact ⟨rfl, j, inner, s, rfl, hs, Slot.mem_positioned.1 hitem⟩
  · rintro ⟨rfl, j, inner, s, rfl, hs, hitem⟩
    exact ⟨_, _, ⟨j, inner, _, rfl, ⟨s, hs, rfl⟩, Slot.mem_positioned.2 hitem⟩, rfl, rfl, rfl⟩

/-- What is listed in a table is what is found there. -/
theorem mem_positionedItems {nodes : Table NodeDefinition} {position : List Nat}
    {d : NodeDefinition} {item : Slot.Item} :
    (position, (d, item)) ∈ positionedItems nodes ↔ HoldsAt nodes position d item := by
  simp only [positionedItems, Positioned.mem_numbered, List.getElem?_map, Option.map_eq_some_iff]
  constructor
  · rintro ⟨i, inner, _, rfl, ⟨d, hd, rfl⟩, hitem⟩
    obtain ⟨rfl, j, inner, s, rfl, hs, hitem⟩ := NodeDefinition.mem_positioned.1 hitem
    exact ⟨i, j, inner, s, rfl, hd, hs, hitem⟩
  · rintro ⟨i, j, inner, s, rfl, hd, hs, hitem⟩
    exact ⟨i, _, _, rfl, ⟨d, hd, rfl⟩,
      NodeDefinition.mem_positioned.2 ⟨rfl, j, inner, s, rfl, hs, hitem⟩⟩

theorem ascending_positionedItems (nodes : Table NodeDefinition) :
    (positionedItems nodes).Ascending := by
  apply Positioned.ascending_numbered
  intro xs hxs
  obtain ⟨d, -, rfl⟩ := List.mem_map.1 hxs
  rw [NodeDefinition.positioned, Positioned.Ascending, List.pairwise_map]
  apply Positioned.ascending_numbered
  intro ys hys
  obtain ⟨s, -, rfl⟩ := List.mem_map.1 hys
  exact s.ascending_positioned

theorem NodeDefinition.map_snd_positioned (d : NodeDefinition) :
    d.positioned.map Prod.snd = d.items.map fun item => (d, item) := by
  have hitems : (Positioned.numbered (d.slots.map Slot.positioned)).map Prod.snd = d.items := by
    rw [Positioned.map_snd_numbered, List.flatMap_map, items, Slot.itemsOfAll_eq_flatMap]
    rw [List.flatMap_def, List.flatMap_def,
      List.map_congr_left fun s _ => s.map_snd_positioned]
  rw [← hitems, positioned, List.map_map, List.map_map]
  rfl

/-! ## The check -/

/-- Something found in a slot is good if it is the name of a leaf or of a node that is defined. -/
def Slot.Item.IsGood (nodes : Table NodeDefinition) (leaves : Table (LeafGenerator ρ)) :
    Slot.Item → Prop
  | .reference ⟨.leaf, name⟩ => name ∈ leaves
  | .reference ⟨.node, name⟩ => name ∈ nodes
  | .foreign _ => False

/-- The fault of something bad found in a slot of a definition. -/
def itemFault (d : NodeDefinition) : Slot.Item → Fault
  | .reference r => .grammar (.unresolved r (.node d.name))
  | .foreign value => .notSlot value

section
variable {nodes : Table NodeDefinition} {leaves : Table (LeafGenerator ρ)}

theorem isGood_iff {item : Slot.Item} :
    item.IsGood nodes leaves ↔ ∃ r, item = .reference r ∧ isDefined nodes leaves r = true := by
  match item with
  | .reference ⟨.leaf, name⟩ => simp [Slot.Item.IsGood, isDefined, Table.contains_iff]
  | .reference ⟨.node, name⟩ => simp [Slot.Item.IsGood, isDefined, Table.contains_iff]
  | .foreign value => simp [Slot.Item.IsGood]

theorem checkItem_eq_ok_iff {site : String} {item : Slot.Item} :
    checkItem nodes leaves site item = .ok () ↔ item.IsGood nodes leaves := by
  rw [isGood_iff, checkItem_eq_ok]

theorem checkItem_eq_error {d : NodeDefinition} {item : Slot.Item} {f : Fault} :
    checkItem nodes leaves d.name item = .error f ↔
      ¬ item.IsGood nodes leaves ∧ f = itemFault d item := by
  rw [isGood_iff]
  cases item with
  | reference r =>
    by_cases hr : isDefined nodes leaves r = true
    · simp [checkItem, hr]
    · simp only [checkItem, hr, itemFault]
      simp [hr, eq_comm (a := f)]
  | foreign value => simp [checkItem, itemFault, eq_comm (a := f)]

/-- The check of the nodes is one check of all that is found in them, from left to right. -/
theorem forM_values_eq_forM_positionedItems :
    (nodes.values.forM fun d => d.items.forM (checkItem nodes leaves d.name)) =
      ((positionedItems nodes).map Prod.snd).forM fun p =>
        checkItem nodes leaves p.1.name p.2 := by
  rw [positionedItems, Positioned.map_snd_numbered, List.flatMap_map]
  simp only [NodeDefinition.map_snd_positioned]
  induction nodes.values with
  | nil => rfl
  | cons d values ih =>
    simp only [List.forM_eq_forM] at ih ⊢
    rw [List.forM_cons, List.flatMap_cons, List.forM_append, List.forM_map, ih]

/-- The check passes if the root is defined and nothing bad is found at any position. -/
theorem checkReferences_eq_ok_iff {root : String} :
    checkReferences root nodes leaves = .ok () ↔
      (root ∈ nodes ∨ root ∈ leaves) ∧
        ∀ position d item, HoldsAt nodes position d item → item.IsGood nodes leaves := by
  by_cases hroot : root ∈ nodes ∨ root ∈ leaves
  · rw [checkReferences_of_defined hroot, forM_values_eq_forM_positionedItems, forM_eq_ok]
    simp only [List.mem_map, forall_exists_index, and_imp, Prod.forall, checkItem_eq_ok_iff,
      hroot, true_and]
    constructor
    · intro h position d item hitem
      exact h d item position d item (mem_positionedItems.2 hitem) rfl
    · rintro h d item position _ _ hitem ⟨⟩
      exact h position d item (mem_positionedItems.1 hitem)
  · rw [checkReferences_of_undefined hroot]
    simp [hroot]

/-- The check fails at the first position at which something bad is found, if the root is
defined. -/
theorem checkReferences_eq_error {root : String} {f : Fault} :
    checkReferences root nodes leaves = .error f ↔
      (¬ (root ∈ nodes ∨ root ∈ leaves) ∧ f = .grammar (.unresolved ⟨.node, root⟩ .root)) ∨
        ((root ∈ nodes ∨ root ∈ leaves) ∧ ∃ position d item, HoldsAt nodes position d item ∧
          ¬ item.IsGood nodes leaves ∧ f = itemFault d item ∧
          ∀ earlier d' item', HoldsAt nodes earlier d' item' → earlier < position →
            item'.IsGood nodes leaves) := by
  by_cases hroot : root ∈ nodes ∨ root ∈ leaves
  · rw [checkReferences_of_defined hroot, forM_values_eq_forM_positionedItems,
      Positioned.forM_map_snd_eq_error (ascending_positionedItems nodes)]
    simp only [Prod.exists, Prod.forall, mem_positionedItems, checkItem_eq_ok_iff,
      checkItem_eq_error, hroot, not_true, false_and, true_and, false_or, and_assoc]
  · rw [checkReferences_of_undefined hroot]
    simp [hroot, eq_comm]

end

/-! ## Building grammars -/

/-- Why a root and two tables make no grammar. -/
inductive FirstFault (root : Option String) (nodes : Table NodeDefinition)
    (leaves : Table (LeafGenerator ρ)) : Fault → Prop where
  | rootNotSet : root = none → FirstFault root nodes leaves (.grammar .rootNotSet)
  | rootUndefined {name : String} :
    root = some name → name ∉ nodes → name ∉ leaves →
      FirstFault root nodes leaves (.grammar (.unresolved ⟨.node, name⟩ .root))
  /-- Something bad is found, and nothing bad at any earlier position. -/
  | item {name : String} {position : List Nat} {d : NodeDefinition} {item : Slot.Item} :
    root = some name → name ∈ nodes ∨ name ∈ leaves → HoldsAt nodes position d item →
      ¬ item.IsGood nodes leaves →
      (∀ earlier d' item', HoldsAt nodes earlier d' item' → earlier < position →
        item'.IsGood nodes leaves) →
      FirstFault root nodes leaves (itemFault d item)

namespace Grammar

theorem check_eq_error {root : Option String} {nodes : Table NodeDefinition}
    {leaves : Table (LeafGenerator ρ)} {f : Fault} :
    check root nodes leaves = .error f ↔ FirstFault root nodes leaves f := by
  cases root with
  | none =>
    constructor
    · intro h
      cases h
      exact .rootNotSet rfl
    · rintro (⟨-⟩ | ⟨⟨⟩⟩ | ⟨⟨⟩⟩)
      rfl
  | some name =>
    rw [check_some_eq_error, checkReferences_eq_error]
    constructor
    · rintro (⟨hroot, rfl⟩ | ⟨hroot, position, d, item, hitem, hbad, rfl, hearlier⟩)
      · rw [not_or] at hroot
        exact .rootUndefined rfl hroot.1 hroot.2
      · exact .item rfl hroot hitem hbad hearlier
    · rintro (⟨⟨⟩⟩ | ⟨⟨⟩, hnode, hleaf⟩ | ⟨⟨⟩, hdefined, hitem, hbad, hearlier⟩)
      · exact .inl ⟨not_or.2 ⟨hnode, hleaf⟩, rfl⟩
      · exact .inr ⟨hdefined, _, _, _, hitem, hbad, rfl, hearlier⟩

theorem ofTables_eq_ok_iff {root : Option String} {nodes : Table NodeDefinition}
    {leaves : Table (LeafGenerator ρ)} {g : Grammar ρ} {log log' : Log} :
    ofTables root nodes leaves log = .ok g log' ↔
      (root = some g.root ∧ nodes = g.nodes ∧ leaves = g.leaves) ∧
        log' = log ++ g.ungrounded.map .ungrounded := by
  constructor
  · intro h
    have hcheck : check root nodes leaves = .ok g := by
      simp only [ofTables, bind_eq_ok, ofExcept_eq_ok, pure_eq_ok] at h
      obtain ⟨_, _, ⟨hcheck, -⟩, _, _, -, rfl, -⟩ := h
      exact hcheck
    obtain ⟨rfl, rfl, rfl⟩ := check_eq_ok.1 hcheck
    rw [ofTables_eq_ok, EStateM.Result.ok.injEq] at h
    exact ⟨⟨rfl, rfl, rfl⟩, h.2.symm⟩
  · rintro ⟨⟨rfl, rfl, rfl⟩, rfl⟩
    exact g.ofTables_eq_ok log

/-- A grammar that cannot be built records nothing: its nodes are not even asked for whether they
are grounded. -/
theorem ofTables_eq_error {root : Option String} {nodes : Table NodeDefinition}
    {leaves : Table (LeafGenerator ρ)} {f : Fault} {log log' : Log} :
    ofTables root nodes leaves log = .error f log' ↔
      FirstFault root nodes leaves f ∧ log' = log := by
  rw [← check_eq_error]
  simp only [ofTables, bind_eq_error, ofExcept_eq_error, ofExcept_eq_ok]
  constructor
  · rintro (h | ⟨g, _, ⟨-, rfl⟩, hnote | ⟨_, _, -, hpure⟩⟩)
    · exact h
    · rw [forM_note] at hnote
      cases hnote
    · cases hpure
  · exact .inl

/-- The grammars that can be built are those with a defined root in which nothing bad is found at
any position. They are built as they are, and their ungrounded nodes are recorded. For any other
root and tables the fault is that of the root or of the first bad position, and nothing is
recorded. The fault of a foreign value shows the value, if all its numbers can be written. -/
theorem ofTables_exact (root : Option String) (nodes : Table NodeDefinition)
    (leaves : Table (LeafGenerator ρ)) (log : Log) :
    ((∃ g log', ofTables root nodes leaves log = .ok g log') ↔
      ∃ name, root = some name ∧ (name ∈ nodes ∨ name ∈ leaves) ∧
        ∀ position d item, HoldsAt nodes position d item → item.IsGood nodes leaves) ∧
    (∀ g log', ofTables root nodes leaves log = .ok g log' →
      (root = some g.root ∧ nodes = g.nodes ∧ leaves = g.leaves) ∧
        log' = log ++ g.ungrounded.map .ungrounded) ∧
    (∀ f log', ofTables root nodes leaves log = .error f log' ↔
      FirstFault root nodes leaves f ∧ log' = log) ∧
    ∀ value, (Fault.notSlot value).message =
      if value.isWritable then "not a slot specification: " ++ value.literal
      else unwritableMessage := by
  refine ⟨⟨?_, ?_⟩, fun g log' => ofTables_eq_ok_iff.1, fun f log' => ofTables_eq_error,
    fun value => rfl⟩
  · rintro ⟨g, log', h⟩
    obtain ⟨⟨hroot, rfl, rfl⟩, -⟩ := ofTables_eq_ok_iff.1 h
    exact ⟨g.root, hroot, checkReferences_eq_ok_iff.1 g.checked⟩
  · rintro ⟨name, rfl, hroot, hgood⟩
    cases h : ofTables (some name) nodes leaves log with
    | ok g log' => exact ⟨g, log', rfl⟩
    | error f log' =>
      obtain ⟨hfault, -⟩ := ofTables_eq_error.1 h
      cases hfault with
      | rootNotSet hnone => cases hnone
      | rootUndefined hsome hnode hleaf =>
        cases hsome
        exact absurd hroot (not_or.2 ⟨hnode, hleaf⟩)
      | item _ _ hitem hbad _ => exact absurd (hgood _ _ _ hitem) hbad

/-- The fault of a foreign value that cannot be written does not show any value. -/
theorem message_notSlot_ne {value : Json} (h : value.isWritable = false) (text : String) :
    (Fault.notSlot value).message ≠ "not a slot specification: " ++ text := by
  have hmessage : (Fault.notSlot value).message =
      if value.isWritable then "not a slot specification: " ++ value.literal
      else unwritableMessage := rfl
  obtain ⟨rest, hrest⟩ : ∃ rest, unwritableMessage = "Exceeds the limit (" ++ rest :=
    ⟨_, String.append_assoc⟩
  rw [hmessage, h, if_neg Bool.false_ne_true, hrest]
  intro heq
  have hfirst := congrArg (fun s => s.toList.head?) heq
  simp only [String.toList_append, List.head?_append] at hfirst
  have hlimit : "Exceeds the limit (".toList.head? = some 'E' := by decide
  have hvalue : "not a slot specification: ".toList.head? = some 'n' := by decide
  rw [hlimit, hvalue] at hfirst
  cases hfirst

/-- A whole number with one digit more than can be written. -/
def longNumber : Json := .int (Int.ofNat (Nat.pow 2 14285 - 1))

/-- The fault of a foreign value does not always show the value: this number is too long. -/
theorem ofTables_longNumber :
    ofTables (some "branch") ⟨[("branch", ⟨"branch", [.foreign longNumber]⟩)], by decide⟩
        (.empty : Table (LeafGenerator Producer)) [] = .error (.notSlot longNumber) [] ∧
      (Fault.notSlot longNumber).message ≠
        "not a slot specification: " ++ longNumber.literal :=
  ⟨rfl, message_notSlot_ne (by decide +kernel) _⟩

end Grammar

end RandomDerivation
