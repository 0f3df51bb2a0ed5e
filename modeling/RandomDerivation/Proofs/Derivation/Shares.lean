import RandomDerivation.Proofs.Derivation.Legal
import RandomDerivation.Proofs.Random.Shares

/-!
# Equal shares of alternatives

Slots that are joined one after the other make a single choice: the first slot gives its own
alternatives, and every other slot is one more alternative, also when it is a choice itself. When
a choice is filled, the next word selects one of its alternatives or is discarded, and every
alternative is selected by the same number of words.
-/

namespace RandomDerivation

namespace Slot

/-- Slots joined one after the other, from left to right. -/
def chain? (first : Slot) (rest : List Slot) : Option Slot := rest.foldlM join? first

/-- A slot takes any alternative. -/
theorem join?_eq_or {r : Slot} (hr : ∀ value, r ≠ foreign value) (s : Slot) :
    join? r s = some (r.or s) := by
  cases r with
  | leaf name => exact join?_leaf name s
  | node name => exact join?_node name s
  | choice first others => exact join?_choice first others s
  | foreign value => exact absurd rfl (hr value)

/-- With an alternative more, a slot is a choice. -/
theorem exists_or_eq_choice (r s : Slot) : ∃ a as, r.or s = choice a as := by
  cases r <;> exact ⟨_, _, rfl⟩

/-- Joining slots never fails when the first of them is one. -/
theorem chain?_eq_foldl {first : Slot} (hfirst : ∀ value, first ≠ foreign value)
    (rest : List Slot) : chain? first rest = some (rest.foldl or first) := by
  induction rest generalizing first with
  | nil => rfl
  | cons s rest ih =>
    have hnext : ∀ value, first.or s ≠ foreign value := by
      intro value
      obtain ⟨a, as, hchoice⟩ := exists_or_eq_choice first s
      simp [hchoice]
    calc chain? first (s :: rest) = chain? (first.or s) rest := by
          simp only [chain?, List.foldlM_cons, join?_eq_or hfirst, Option.bind_eq_bind,
            Option.bind_some]
      _ = some ((s :: rest).foldl or first) := ih hnext

theorem alternatives_foldl_or (first : Slot) (rest : List Slot) :
    (rest.foldl or first).alternatives = first.alternatives ++ rest := by
  induction rest generalizing first with
  | nil => simp
  | cons s rest ih =>
    rw [List.foldl_cons, ih, alternatives_or, List.append_assoc, List.singleton_append]

theorem items_foldl_or (first : Slot) (rest : List Slot) :
    (rest.foldl or first).items = (first :: rest).flatMap items := by
  induction rest generalizing first with
  | nil => simp
  | cons s rest ih =>
    rw [List.foldl_cons, ih, List.flatMap_cons, items_or, List.flatMap_cons, List.flatMap_cons,
      List.append_assoc]

/-- A chain of slots is a single choice: between the alternatives of the first slot and the other
slots. It is made of what the slots are made of. -/
theorem exists_choice_of_chain {first : Slot} {rest : List Slot}
    (hfirst : ∀ value, first ≠ foreign value) (hrest : rest ≠ []) :
    ∃ a as, chain? first rest = some (choice a as) ∧ a :: as = first.alternatives ++ rest ∧
      (choice a as).items = (first :: rest).flatMap items := by
  obtain ⟨a, as, hchoice⟩ : ∃ a as, rest.foldl or first = choice a as := by
    rw [← List.dropLast_append_getLast hrest, List.foldl_append]
    exact exists_or_eq_choice _ _
  refine ⟨a, as, ?_, ?_, ?_⟩
  · rw [chain?_eq_foldl hfirst, hchoice]
  · rw [← alternatives_foldl_or, hchoice, alternatives]
  · rw [← items_foldl_or, hchoice]

/-- Behind items without foreign values the references go on. -/
theorem split_append {items later : List Item} (h : ∀ item ∈ items, ∃ r, item = .reference r) :
    (split (items ++ later)).1 = (split items).1 ++ (split later).1 := by
  induction items with
  | nil => rfl
  | cons item items ih =>
    obtain ⟨r, rfl⟩ := h item (by simp)
    simp only [List.cons_append, split, ih fun item hitem => h item (by simp [hitem])]

/-- The references of slots without foreign values, one slot after the other. -/
theorem split_flatMap_items {slots : List Slot} (h : ∀ s ∈ slots, s.IsNative) :
    (split (slots.flatMap items)).1 = slots.flatMap references := by
  induction slots with
  | nil => rfl
  | cons s slots ih =>
    rw [List.flatMap_cons, List.flatMap_cons, split_append (h s (by simp)),
      ih fun s hs => h s (by simp [hs])]
    rfl

end Slot

namespace Grammar
variable {ρ μ : Type} [Produces ρ μ]

/-- How a choice is filled, word by word: the next word selects an alternative, each one being
selected by the same number of words, or it is discarded and the choice is filled as if the word
had not been there. From a seeded source it may be that no number would ever come, with the word or
without it. -/
structure SharesEqually (g : Grammar ρ) (first : Slot) (others : List Slot) : Prop where
  share : ∀ i : Fin (others.length + 1),
    {v : UInt32 | Draw.selected? (others.length + 1) v = some i}.ncard =
      2 ^ (32 - Draw.bitLength (others.length + 1))
  selects : ∀ (w : World μ) (v : UInt32) (s : Source) (i : Fin (others.length + 1)),
    Source.word w.source = .ok v s → Draw.selected? (others.length + 1) v = some i →
      g.resolve (.choice first others) w =
        g.resolve ((first :: others).get i) { w with source := s }
  discards : ∀ (w : World μ) (v : UInt32) (s : Source),
    Source.word w.source = .ok v s → Draw.selected? (others.length + 1) v = none →
      (w.source.Waits (others.length + 1) ∧ s.Waits (others.length + 1)) ∨
        g.resolve (.choice first others) w = g.resolve (.choice first others) { w with source := s }

theorem sharesEqually (g : Grammar ρ) (first : Slot) {others : List Slot}
    (h : others.length + 1 < 2 ^ 32) : g.SharesEqually first others where
  share := ncard_selected h
  selects w v s i hword hselected := by
    have hdraw : draw (Draw.below (others.length + 1)) w = .ok i { w with source := s } := by
      rw [draw, below_of_selected h hword hselected]
    rw [resolve, bind_run_of_ok hdraw]
  discards w v s hword hdiscarded := by
    apply (below_of_discarded h hword (Nat.succ_pos _) hdiscarded).imp id
    intro hbelow
    have hdraw : draw (Draw.below (others.length + 1)) w =
        draw (Draw.below (others.length + 1)) { w with source := s } := by
      simp only [draw, hbelow]
    simp only [resolve, bind_run, hdraw]

/-- A chain of slots is a single choice between the alternatives of the first slot and the other
slots as they are, and it refers to what the slots refer to, in order. When a choice with fewer
than `2^32` alternatives is filled, each of them is selected by the same number of words, and every
other word is discarded. -/
theorem shares_of_chain :
    (∀ (first : Slot) (rest : List Slot), (∀ value, first ≠ .foreign value) → rest ≠ [] →
      ∃ a as, Slot.chain? first rest = some (.choice a as) ∧
        a :: as = first.alternatives ++ rest ∧
        (Slot.choice a as).items = (first :: rest).flatMap Slot.items ∧
        ((∀ s ∈ first :: rest, s.IsNative) →
          (Slot.choice a as).references = (first :: rest).flatMap Slot.references)) ∧
      ∀ (g : Grammar ρ) (first : Slot) (others : List Slot), others.length + 1 < 2 ^ 32 →
        g.SharesEqually first others := by
  refine ⟨?_, fun g first others => g.sharesEqually first⟩
  intro first rest hfirst hrest
  obtain ⟨a, as, hchain, has, hitems⟩ := Slot.exists_choice_of_chain hfirst hrest
  refine ⟨a, as, hchain, has, hitems, ?_⟩
  intro hnative
  rw [Slot.references, hitems, Slot.split_flatMap_items hnative]

/-- Three alternatives, the second of which is a choice again. The first word is discarded. -/
theorem shares_of_chain_nested :
    ∃ a as, Slot.chain? (.leaf "color") [.choice (.node "empty") [.leaf "color"], .node "branch"] =
        some (.choice a as) ∧
      a :: as = [.leaf "color", .choice (.node "empty") [.leaf "color"], .node "branch"] ∧
      (Slot.choice a as).references =
        [⟨.leaf, "color"⟩, ⟨.node, "empty"⟩, ⟨.leaf, "color"⟩, ⟨.node, "branch"⟩] ∧
      {v : UInt32 | Draw.selected? 3 v = some 1}.ncard = 2 ^ 30 ∧
      nested.resolve (.choice a as) ⟨.ofList [0xC0000000, 0x80000000], ()⟩ =
        .ok (.pending ⟨.node, "branch"⟩) ⟨.ofList [], ()⟩ := by
  obtain ⟨hchain, hshares⟩ := shares_of_chain (ρ := Producer)
  obtain ⟨a, as, hjoined, has, -, hreferences⟩ := hchain (.leaf "color")
    [.choice (.node "empty") [.leaf "color"], .node "branch"] nofun nofun
  have hnative : ∀ s ∈ [.leaf "color", .choice (.node "empty") [.leaf "color"], .node "branch"],
      Slot.IsNative s := by
    simp [Slot.isNative_choice]
  have hall : a :: as = [.leaf "color", .choice (.node "empty") [.leaf "color"], .node "branch"] :=
    has
  obtain ⟨rfl, rfl⟩ := List.cons_eq_cons.1 hall
  have hequal := hshares nested (.leaf "color")
    [.choice (.node "empty") [.leaf "color"], .node "branch"] (by decide)
  refine ⟨_, _, hjoined, rfl, hreferences hnative, hequal.share 1, ?_⟩
  have hdiscarded : Draw.selected? 3 0xC0000000 = none := rfl
  have hselected : Draw.selected? 3 0x80000000 = some 2 := rfl
  rcases hequal.discards ⟨.ofList [0xC0000000, 0x80000000], ()⟩ _ _ rfl hdiscarded with
    ⟨⟨⟨t, spare, hseeded⟩, -⟩, -⟩ | hagain
  · cases hseeded
  · rw [hagain, hequal.selects _ _ _ 2 rfl hselected]
    have hnode : nested.resolve (.node "branch") = pure (.pending ⟨.node, "branch"⟩) := by
      rw [resolve]
    exact congrFun hnode _

end Grammar

end RandomDerivation
