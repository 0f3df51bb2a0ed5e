import RandomDerivation.Proofs.Derivation.Legal
import RandomDerivation.Proofs.Random.Prefix

/-!
# Which words a derivation reads

A derivation reads words in a fixed order: those for the slots of a node, one slot after the
other, and then those for its children. What it reads next depends on what it has read, but never
on how much is left. So the words of a tree stand at the front of the list. Words behind them
change nothing and stay where they are, and without all of them the derivation comes to the end
of the list.

What a derivation looks up is defined, since a grammar is checked; so nothing but the end of the
list makes it fail.
-/

namespace RandomDerivation.Grammar
variable {g : Grammar Producer}

theorem readsPrefix_produceLeaf {name : String} (hname : name ∈ g.leaves) :
    ReadsPrefix (World.around ()) (g.produceLeaf name) := by
  obtain ⟨leaf, hleaf⟩ := Table.exists_find?_of_mem hname
  simp only [produceLeaf, hleaf]
  exact leaf.generator.readsPrefix_draw.draw.map _

/-- The words for a slot whose references are all defined: those of the choices on the way, and
those of a leaf. -/
theorem readsPrefix_resolve {s : Slot}
    (hs : ∀ item ∈ s.items, ∃ r, item = .reference r ∧ isDefined g.nodes g.leaves r = true) :
    ReadsPrefix (World.around ()) (g.resolve s) := by
  induction s using resolve.induct with
  | case1 name =>
    obtain ⟨r, heq, hr⟩ := hs (.reference ⟨.leaf, name⟩) (by simp [Slot.items])
    cases heq
    rw [resolve]
    exact (readsPrefix_produceLeaf (Table.contains_iff.1 hr)).map _
  | case2 name =>
    rw [resolve]
    exact ReadsPrefix.pure _
  | case3 first others ih =>
    rw [resolve]
    apply (readsPrefix_below (Nat.succ_pos others.length)).draw.bind
    intro _ i _ _
    apply ih i
    intro item hitem
    exact hs item (Slot.mem_items_choice.2 ⟨i, hitem⟩)
  | case4 value =>
    -- The check has found no foreign value.
    obtain ⟨r, heq, -⟩ := hs (.foreign value) (by simp [Slot.items])
    cases heq

/-- The words for several slots are those of the first slot, and behind them those of the
others. -/
theorem readsPrefix_resolveAll {slots : List Slot}
    (hslots : ∀ s ∈ slots, ∀ item ∈ s.items,
      ∃ r, item = .reference r ∧ isDefined g.nodes g.leaves r = true) :
    ReadsPrefix (World.around ()) (g.resolveAll slots) := by
  induction slots with
  | nil => exact ReadsPrefix.pure []
  | cons s rest ih =>
    rw [resolveAll]
    apply (readsPrefix_resolve (hslots s (by simp))).bind
    intro _ filling _ _
    exact (ih fun s hs => hslots s (by simp [hs])).map _

theorem readsPrefix_mapM {child : Reference → Action Unit Tree} {fillings : List Filling}
    (h : ∀ r, .pending r ∈ fillings → ReadsPrefix (World.around ()) (child r)) :
    ReadsPrefix (World.around ()) (fillings.mapM (Filling.complete child)) := by
  induction fillings with
  | nil => exact ReadsPrefix.pure []
  | cons filling rest ih =>
    have hfilling : ReadsPrefix (World.around ()) (filling.complete child) := by
      cases filling with
      | tree t => exact ReadsPrefix.pure t
      | pending r => exact h r (by simp)
    rw [List.mapM_cons]
    apply hfilling.bind
    intro _ t _ _
    exact (ih fun r hr => h r (by simp [hr])).map _

/-- The words for a defined reference: those for the slots of the node, all of them, and behind
them those for the children. -/
theorem readsPrefix_grow (levels : Nat) {r : Reference}
    (hr : isDefined g.nodes g.leaves r = true) :
    ReadsPrefix (World.around ()) (g.grow levels r) := by
  induction levels generalizing r with
  | zero =>
    match r, hr with
    | ⟨.leaf, name⟩, hr => exact readsPrefix_produceLeaf (Table.contains_iff.1 hr)
    | ⟨.node, name⟩, _ => exact ReadsPrefix.pure _
  | succ levels ih =>
    match r, hr with
    | ⟨.leaf, name⟩, hr => exact readsPrefix_produceLeaf (Table.contains_iff.1 hr)
    | ⟨.node, name⟩, hr =>
      obtain ⟨d, hd⟩ := Table.exists_find?_of_mem (Table.contains_iff.1 hr)
      rw [grow_succ_node hd]
      apply (readsPrefix_resolveAll fun s hs _ hitem =>
        exists_reference_of_mem_items hd hs hitem).bind
      intro w fillings w' hfillings
      have hchildren : ∀ r, .pending r ∈ fillings →
          ReadsPrefix (World.around ()) (g.grow levels r) := by
        rintro ⟨kind, child⟩ hpending
        obtain ⟨rfl, hchild⟩ := pending_of_resolveAll hd hfillings hpending
        exact ih (Table.contains_iff.2 hchild)
      exact (readsPrefix_mapM hchildren).map _

/-- The words of a tree stand at the front of the list that it is derived from. With any words
behind the list the same tree is derived, and these words are left too. From any part of the list
that lacks some of the words of the tree, the derivation takes all words and fails because none
is left. -/
theorem reads_of_generate {bound : Nat} {words : List UInt32} {spare : Option Float} {t : Tree}
    {w' : World Unit} (h : g.generate bound ⟨⟨.listed words, spare⟩, ()⟩ = .ok t w') :
    ∃ left spare', left <:+ words ∧ w' = ⟨⟨.listed left, spare'⟩, ()⟩ ∧
      (∀ more, g.generate bound ⟨⟨.listed (words ++ more), spare⟩, ()⟩ =
        .ok t ⟨⟨.listed (left ++ more), spare'⟩, ()⟩) ∧
      ∀ front, front <+: words → front.length < words.length - left.length →
        ∃ spare₁, g.generate bound ⟨⟨.listed front, spare⟩, ()⟩ =
          .error .exhausted ⟨⟨.listed [], spare₁⟩, ()⟩ := by
  have hreads : ReadsPrefix (World.around ()) (g.generate bound) := by
    rw [generate_eq_grow]
    exact readsPrefix_grow (bound + 1) g.isDefined_start
  obtain ⟨used, left, spare', rfl, rfl, hused⟩ := hreads.reads_of_ok h
  refine ⟨left, spare', List.suffix_append used left, rfl, ?_, ?_⟩
  · intro more
    rw [List.append_assoc]
    exact hused.returns (left ++ more)
  · intro front hfront hshort
    rw [List.length_append, Nat.add_sub_cancel] at hshort
    obtain ⟨missing, rfl⟩ := List.prefix_of_prefix_length_le hfront (List.prefix_append used left)
      (Nat.le_of_lt hshort)
    apply hused.exhausts front missing rfl
    rintro rfl
    simp at hshort

/-- One word is behind those of the tree. The second of the others is of no use to the draw that
takes it. -/
theorem reads_of_generate_cutOffTree :
    nested.generate 0 ⟨⟨.listed [0, 0x80000000, 0x40000000, 0, 7], none⟩, ()⟩ =
        .ok cutOffTree ⟨⟨.listed [7], none⟩, ()⟩ ∧
      nested.generate 0 ⟨⟨.listed [0, 0x80000000, 0x40000000, 0, 7, 8, 9], none⟩, ()⟩ =
        .ok cutOffTree ⟨⟨.listed [7, 8, 9], none⟩, ()⟩ ∧
      ∃ spare, nested.generate 0 ⟨⟨.listed [0, 0x80000000, 0x40000000], none⟩, ()⟩ =
        .error .exhausted ⟨⟨.listed [], spare⟩, ()⟩ := by
  have h : nested.generate 0 ⟨⟨.listed [0, 0x80000000, 0x40000000, 0, 7], none⟩, ()⟩ =
      .ok cutOffTree ⟨⟨.listed [7], none⟩, ()⟩ := generate_cutOffTree [7]
  obtain ⟨left, spare, -, hleft, hmore, hfront⟩ := reads_of_generate h
  cases hleft
  exact ⟨h, hmore [8, 9], hfront [0, 0x80000000, 0x40000000] (by decide) (by decide)⟩

end RandomDerivation.Grammar
