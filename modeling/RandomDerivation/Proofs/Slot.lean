import RandomDerivation.Slot

/-!
# What is found in slots

The things found in a choice are those found in its alternatives, and something is found in every
slot. Where nothing foreign is found, the references of a slot are all that it is made of.
-/

namespace RandomDerivation.Slot

/-- What holds of slots without alternatives, and of every choice of whose alternatives it holds,
holds of all slots. -/
theorem induction {P : Slot → Prop} (leaf : ∀ name, P (.leaf name)) (node : ∀ name, P (.node name))
    (choice : ∀ first others, (∀ s ∈ first :: others, P s) → P (.choice first others))
    (foreign : ∀ value, P (.foreign value)) : (s : Slot) → P s
  | .leaf name => leaf name
  | .node name => node name
  | .choice first others =>
    choice first others fun s _hs => induction leaf node choice foreign s
  | .foreign value => foreign value
termination_by s => s
decreasing_by
  have := List.sizeOf_lt_of_mem _hs
  simp only [List.cons.sizeOf_spec, Slot.choice.sizeOf_spec] at *
  omega

theorem itemsOfAll_eq_flatMap (slots : List Slot) : itemsOfAll slots = slots.flatMap items := by
  induction slots with
  | nil => rfl
  | cons s rest ih => rw [itemsOfAll, List.flatMap_cons, ih]

theorem items_choice (first : Slot) (others : List Slot) :
    (choice first others).items = (first :: others).flatMap items := by
  rw [items, List.flatMap_cons, itemsOfAll_eq_flatMap]

theorem mem_itemsOfAll {slots : List Slot} {item : Item} :
    item ∈ itemsOfAll slots ↔ ∃ s ∈ slots, item ∈ s.items := by
  rw [itemsOfAll_eq_flatMap, List.mem_flatMap]

/-- A choice is made of what its alternatives are made of. -/
theorem mem_items_choice {first : Slot} {others : List Slot} {item : Item} :
    item ∈ (choice first others).items ↔ ∃ i, item ∈ ((first :: others).get i).items := by
  have hitems : (choice first others).items = itemsOfAll (first :: others) := rfl
  rw [hitems, mem_itemsOfAll]
  constructor
  · rintro ⟨s, hs, hitem⟩
    obtain ⟨i, rfl⟩ := List.get_of_mem hs
    exact ⟨i, hitem⟩
  · rintro ⟨i, hitem⟩
    exact ⟨_, List.get_mem _ i, hitem⟩

/-- Something is found in every slot. -/
theorem exists_mem_items : (s : Slot) → ∃ item, item ∈ s.items
  | .leaf name => ⟨.reference ⟨.leaf, name⟩, by simp [items]⟩
  | .node name => ⟨.reference ⟨.node, name⟩, by simp [items]⟩
  | .choice first others => by
    obtain ⟨item, hitem⟩ := exists_mem_items first
    exact ⟨item, by simp [items, hitem]⟩
  | .foreign value => ⟨.foreign value, by simp [items]⟩

/-- No foreign value is found in a slot. -/
def IsNative (s : Slot) : Prop := ∀ item ∈ s.items, ∃ r, item = .reference r

@[simp] theorem isNative_leaf (name : String) : (leaf name).IsNative := by simp [IsNative, items]

@[simp] theorem isNative_node (name : String) : (node name).IsNative := by simp [IsNative, items]

theorem not_isNative_foreign {value : Json} : ¬ (foreign value).IsNative := by
  simp [IsNative, items]

theorem isNative_choice {first : Slot} {others : List Slot} :
    (choice first others).IsNative ↔ ∀ s ∈ first :: others, s.IsNative := by
  rw [IsNative, items_choice]
  simp only [List.mem_flatMap, IsNative]
  constructor
  · intro h s hs item hitem
    exact h item ⟨s, hs, hitem⟩
  · rintro h item ⟨s, hs, hitem⟩
    exact h s hs item hitem

theorem reference_mem_of_mem_split {items : List Item} {r : Reference}
    (h : r ∈ (split items).1) : .reference r ∈ items := by
  induction items with
  | nil => simp [split] at h
  | cons item rest ih =>
    cases item with
    | foreign value => simp [split] at h
    | reference r' =>
      simp only [split, List.mem_cons] at h
      rcases h with rfl | hrest
      · simp
      · simp [ih hrest]

theorem mem_split_of_reference_mem {items : List Item}
    (h : ∀ item ∈ items, ∃ r, item = .reference r) {r : Reference}
    (hr : .reference r ∈ items) : r ∈ (split items).1 := by
  induction items with
  | nil => simp at hr
  | cons item rest ih =>
    obtain ⟨r', rfl⟩ := h item (by simp)
    simp only [split, List.mem_cons]
    rcases List.mem_cons.1 hr with heq | hrest
    · cases heq
      exact .inl rfl
    · exact .inr (ih (fun item hitem => h item (by simp [hitem])) hrest)

/-- The references of a slot without foreign values are all that it is made of. -/
theorem mem_references_iff {s : Slot} (h : ∀ item ∈ s.items, ∃ r, item = .reference r)
    {r : Reference} : r ∈ s.references ↔ .reference r ∈ s.items :=
  ⟨reference_mem_of_mem_split, mem_split_of_reference_mem h⟩

end RandomDerivation.Slot
