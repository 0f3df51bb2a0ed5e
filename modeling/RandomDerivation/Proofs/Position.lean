import RandomDerivation.Proofs.Grammar.Checked

/-!
# Positions

A position inside of something nested is the list of the numbers on the way to it, from the
outermost one on. Positions are ordered like words: the first number in which they differ counts.
What is listed with its positions in this order is checked from left to right, so the fault of the
check is that of the first position at which something is wrong.
-/

namespace RandomDerivation
variable {α ε : Type}

/-- Things with their positions. -/
abbrev Positioned (α : Type) := List (List Nat × α)

namespace Positioned

/-- What stands at the positions of several things, one after the other: positions inside of the
thing with number `i` start with `i`. -/
def numbered (things : List (Positioned α)) : Positioned α :=
  things.zipIdx.flatMap fun (xs, i) => xs.map fun p => (i :: p.1, p.2)

/-- Positions ascend from left to right. -/
def Ascending (xs : Positioned α) : Prop := xs.Pairwise fun p q => p.1 < q.1

theorem mem_numbered {things : List (Positioned α)} {position : List Nat} {a : α} :
    (position, a) ∈ numbered things ↔
      ∃ i inner xs, position = i :: inner ∧ things[i]? = some xs ∧ (inner, a) ∈ xs := by
  simp only [numbered, List.mem_flatMap, List.mem_map, Prod.mk.injEq]
  constructor
  · rintro ⟨⟨xs, i⟩, hxs, ⟨inner, _⟩, ha, rfl, rfl⟩
    exact ⟨i, inner, xs, rfl, List.mem_zipIdx_iff_getElem?.1 hxs, ha⟩
  · rintro ⟨i, inner, xs, rfl, hxs, ha⟩
    exact ⟨(xs, i), List.mem_zipIdx_iff_getElem?.2 hxs, (inner, a), ha, rfl, rfl⟩

theorem pairwise_zipIdx (things : List α) (k : Nat) :
    (things.zipIdx k).Pairwise fun a b => a.2 < b.2 := by
  induction things generalizing k with
  | nil => exact .nil
  | cons a things ih =>
    rw [List.zipIdx_cons, List.pairwise_cons]
    refine ⟨?_, ih (k + 1)⟩
    intro b hb
    exact List.le_snd_of_mem_zipIdx hb

/-- Several things whose positions ascend are listed so that all positions ascend. -/
theorem ascending_numbered {things : List (Positioned α)} (h : ∀ xs ∈ things, Ascending xs) :
    Ascending (numbered things) := by
  rw [Ascending, numbered, List.pairwise_flatMap]
  constructor
  · rintro ⟨xs, i⟩ hxs
    rw [List.pairwise_map]
    apply (h xs (List.fst_mem_of_mem_zipIdx hxs)).imp
    intro p q hpq
    exact List.cons_lt_cons_iff.2 (.inr ⟨rfl, hpq⟩)
  · apply (pairwise_zipIdx things 0).imp
    rintro ⟨xs, i⟩ ⟨ys, j⟩ hij p hp q hq
    obtain ⟨_, -, rfl⟩ := List.mem_map.1 hp
    obtain ⟨_, -, rfl⟩ := List.mem_map.1 hq
    exact List.cons_lt_cons_iff.2 (.inl hij)

/-- Without their positions, things are listed one after the other. -/
theorem map_snd_numbered (things : List (Positioned α)) :
    (numbered things).map Prod.snd = things.flatMap fun xs => xs.map Prod.snd := by
  conv => rhs; rw [← List.zipIdx_map_fst 0 things, List.flatMap_map]
  simp only [numbered, List.map_flatMap, List.map_map]
  rfl

/-- A check from left to right fails with the fault of the first position whose thing does not
pass. -/
theorem forM_map_snd_eq_error {xs : Positioned α} (hxs : Ascending xs) {f : α → Except ε Unit}
    {e : ε} :
    (xs.map Prod.snd).forM f = .error e ↔
      ∃ position a, (position, a) ∈ xs ∧ f a = .error e ∧
        ∀ earlier b, (earlier, b) ∈ xs → earlier < position → f b = .ok () := by
  have hmap : (xs.map Prod.snd).forM f = xs.forM fun p => f p.2 := List.forM_map
  rw [hmap, forM_eq_error]
  constructor
  · rintro ⟨before, ⟨position, a⟩, after, rfl, hbefore, ha⟩
    refine ⟨position, a, by simp, ha, ?_⟩
    intro earlier b hb hlt
    obtain ⟨-, hafter, -⟩ := List.pairwise_append.1 hxs
    rcases List.mem_append.1 hb with hb | hb
    · exact hbefore _ hb
    rcases List.mem_cons.1 hb with heq | hb
    · cases heq
      exact absurd hlt (List.lt_irrefl _)
    · exact absurd (List.rel_of_pairwise_cons hafter hb) (List.lt_asymm hlt)
  · rintro ⟨position, a, hmem, ha, hearlier⟩
    obtain ⟨before, after, rfl⟩ := List.append_of_mem hmem
    refine ⟨before, (position, a), after, rfl, ?_, ha⟩
    rintro ⟨earlier, b⟩ hb
    obtain ⟨-, -, hlt⟩ := List.pairwise_append.1 hxs
    exact hearlier earlier b (by simp [hb]) (hlt _ hb (position, a) List.mem_cons_self)

end Positioned

end RandomDerivation
