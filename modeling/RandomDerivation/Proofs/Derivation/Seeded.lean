import RandomDerivation.Proofs.Derivation.Legal
import RandomDerivation.Proofs.Derivation.Safety
import RandomDerivation.Proofs.Json.Writable
import RandomDerivation.Proofs.Random.Seeded
import RandomDerivation.Tree.Outline

/-!
# Derivations from a seed

The leaves of a configuration draw their values from the random source and do nothing else. So a
derivation from a seed returns a tree as soon as its draws return. If all values that the leaves
make can be written, then so can the tree.
-/

namespace RandomDerivation

/-- All values that a producer makes can be written. -/
def Producer.Writes (p : Producer) : Prop :=
  ∀ s v s', p.draw s = .ok v s' → v.isWritable = true

namespace Grammar

/-- The value at the root of a legal derivation was made by a leaf, if there is one. -/
theorem Legal.value_eq {ρ : Type} {g : Grammar ρ} {made : String × Json → Prop}
    {bound depth : Nat} {r : Reference} {t : Tree} (h : g.Legal made bound depth r t) :
    t.value = .null ∨ made (t.kind, t.value) := by
  cases h with
  | leaf _ hvalue => exact .inr hvalue
  | expanded => exact .inl rfl
  | cutOff => exact .inl rfl

variable {g : Grammar Producer} {bound : Nat} {w w' : World Unit}

/-- The values that are made between two worlds can be written, if those of all leaves can. -/
theorem History.isWritable (hleaves : ∀ name leaf, g.leaves.find? name = some leaf →
      leaf.generator.Writes) {calls : List (String × Json)} (h : g.History w calls w') :
    ∀ call ∈ calls, call.2.isWritable = true := by
  induction h with
  | rest => simp
  | draw _ _ ih => exact ih
  | call hleaf hvalue _ ih =>
    exact List.forall_mem_cons.2 ⟨hleaves _ _ hleaf _ _ _ (draw_eq_ok hvalue), ih⟩

/-- A tree can be written when the values of its leaves can. -/
theorem isWritable_of_generate (hleaves : ∀ name leaf, g.leaves.find? name = some leaf →
      leaf.generator.Writes) {t : Tree} (h : g.generate bound w = .ok t w') :
    t.isWritable = true := by
  rw [generate_eq_grow] at h
  obtain ⟨calls, hcalls, hlegal⟩ := legal_of_grow (Nat.zero_add _) g.isDefined_start h
  rw [Tree.isWritable, List.all_eq_true]
  rintro ⟨depth, u⟩ hp
  obtain ⟨-, r, hr⟩ := hlegal.of_mem_walk (Nat.zero_le _) hp
  simp only at hr ⊢
  rcases hr.value_eq with hnull | hmade
  · rw [hnull]
    rfl
  · exact hcalls.isWritable hleaves _ hmade

/-- A source that is seeded stays so while values are made. -/
theorem History.isSeeded {calls : List (String × Json)} (h : g.History w calls w')
    (hw : w.source.IsSeeded) : w'.source.IsSeeded := by
  have hstep : ∀ {α : Type} {d : Draw α} {a : α} {w w' : World Unit}, ReturnsOrWaits d →
      RandomDerivation.draw d w = .ok a w' → w.source.IsSeeded → w'.source.IsSeeded := by
    intro α d a w w' hd hdraw hs
    rcases hd _ hs with ⟨b, s, hok, hseeded⟩ | ⟨-, s, herror⟩
    · rw [draw_eq_ok hdraw] at hok
      cases hok
      exact hseeded
    · rw [draw_eq_ok hdraw] at herror
      cases herror
  induction h with
  | rest => exact hw
  | draw hdraw _ ih => exact ih (hstep (returnsOrWaits_below _) hdraw hw)
  | call hleaf hvalue _ ih => exact ih (hstep (Producer.returnsOrWaits_draw _) hvalue hw)

/-- A draw from a seeded source fails only when it would go on for ever. -/
theorem waits_of_draw_eq_error {α : Type} {d : Draw α} {f : Fault} (hd : ReturnsOrWaits d)
    (h : draw d w = .error f w') (hw : w.source.IsSeeded) :
    f = .exhausted ∧ ∃ s n, Source.Waits s n := by
  rcases hd _ hw with ⟨a, s, hok, -⟩ | ⟨hwaits, s, herror⟩
  · rw [draw_eq_error h] at hok
    cases hok
  · rw [draw_eq_error h] at herror
    cases herror
    exact ⟨rfl, hwaits⟩

/-- A derivation from a seeded source fails only when one of its draws would go on for ever. -/
theorem waits_of_generate_eq_error (hw : w.source.IsSeeded) {f : Fault}
    (h : g.generate bound w = .error f w') : f = .exhausted ∧ ∃ s n, Source.Waits s n := by
  obtain ⟨calls, w₁, hcalls, hfault⟩ := failsOutside_of_derive g.isDefined_start h
  have hw₁ := hcalls.isSeeded hw
  cases hfault with
  | draw _ hdraw => exact waits_of_draw_eq_error (returnsOrWaits_below _) hdraw hw₁
  | call _ hcall => exact waits_of_draw_eq_error (Producer.returnsOrWaits_draw _) hcall hw₁

end Grammar

end RandomDerivation
