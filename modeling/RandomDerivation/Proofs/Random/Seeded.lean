import Mathlib.Data.Fintype.BigOperators
import Mathlib.Data.Fintype.Pigeonhole
import Mathlib.Logic.Function.Iterate
import RandomDerivation.Producer
import RandomDerivation.Proofs.Action

/-!
# Draws from a seeded source

A seeded source has a word for every draw. Only a number below a bound can still fail to come:
every attempt may give a number that is too large. A twister has finitely many states, so after as
many attempts as there are states it is back at an earlier one, and from then on the attempts only
repeat. So when a draw from a seeded source fails, no number of attempts would have been enough.
-/

namespace RandomDerivation

/-- A system with fewer than `count` states reaches everything that it can reach in fewer than
`count` steps. -/
theorem exists_iterate_lt {σ : Type} {count : Nat} {code : σ → Fin count}
    (hcode : Function.Injective code) (next : σ → σ) (P : σ → Prop) (s : σ)
    (h : ∃ i, P (next^[i] s)) : ∃ i < count, P (next^[i] s) := by
  classical
  refine ⟨Nat.find h, ?_, Nat.find_spec h⟩
  by_contra hlate
  -- Two of the states up to the first good one are the same.
  obtain ⟨j, k, hne, heq⟩ := Fintype.exists_ne_map_eq_of_card_lt
    (fun j : Fin (Nat.find h + 1) => code (next^[j] s))
    (by rw [Fintype.card_fin, Fintype.card_fin]; omega)
  have hstate := hcode heq
  wlog hjk : j.val < k.val
  · have hlt : k.val < j.val := by
      have := Fin.val_ne_of_ne hne
      omega
    exact this hcode next P s h hlate k j hne.symm heq.symm hstate.symm hlt
  -- So the steps between the two are not needed.
  have hgood : P (next^[Nat.find h - k + j] s) := by
    have hspec := Nat.find_spec h
    have hlast : Nat.find h = Nat.find h - k + k := by omega
    rw [hlast, Function.iterate_add_apply, ← hstate, ← Function.iterate_add_apply] at hspec
    exact hspec
  exact Nat.find_min h (by omega) hgood

/-- The states of a twister can be numbered. -/
theorem Twister.exists_code :
    ∃ code : Twister → Fin Twister.stateCount, Function.Injective code := by
  let parts : Twister → Fin 624 × (Fin 624 → Fin (2 ^ 32)) :=
    fun t => (t.place, fun i => t.words[i].toFin)
  have hparts : Function.Injective parts := by
    rintro ⟨words, place⟩ ⟨words', place'⟩ h
    simp only [parts, Prod.mk.injEq] at h
    obtain ⟨rfl, hwords⟩ := h
    congr 1
    apply Vector.ext
    intro i hi
    have hword := congrFun hwords ⟨i, hi⟩
    exact UInt32.toFin_inj.1 hword
  -- The number of states is too large to be computed, so it is not compared with itself.
  have hcount : ∀ {count n b m : Nat}, count = n * Nat.pow b (m * n) →
      Fintype.card (Fin n × (Fin n → Fin (b ^ m))) = count := by
    intro count n b m h
    rw [h, Fintype.card_prod, Fintype.card_fun, Fintype.card_fin, Fintype.card_fin,
      ← Nat.pow_mul, Nat.pow_eq]
  have hcard := hcount Twister.stateCount.eq_def
  refine ⟨fun t => Fin.cast hcard (Fintype.equivFin _ (parts t)), ?_⟩
  intro t t' h
  exact hparts ((Fintype.equivFin _).injective (Fin.cast_injective hcard h))

namespace Source

/-- A source that has a word for every draw. -/
def seeded (t : Twister) (spare : Option Float) : Source := ⟨.seeded t, spare⟩

/-- Every source that grows out of a seed is one of these, and stays one. -/
def IsSeeded (s : Source) : Prop := ∃ t spare, s = seeded t spare

theorem isSeeded_ofSeed (seed : Int) : (ofSeed seed).IsSeeded := ⟨_, _, rfl⟩

/-- A number below `n` is drawn from the source again and again, and it never comes. -/
def Waits (s : Source) (n : Nat) : Prop :=
  s.IsSeeded ∧ ∀ fuel, ∃ s', Draw.attempts n (Draw.bitLength n) fuel s = .error .exhausted s'

end Source

/-- Bits can always be drawn from a twister, whatever normal value is kept. -/
theorem exists_bits_seeded (k : Nat) (t : Twister) :
    ∃ r : Nat × Twister, ∀ spare,
      Draw.bits k (.seeded t spare) = .ok r.1 (.seeded r.2 spare) := by
  induction k using Nat.strongRecOn generalizing t with
  | ind k ih =>
    by_cases hzero : k = 0
    · refine ⟨(0, t), fun spare => ?_⟩
      rw [Draw.bits, if_pos hzero]
      rfl
    by_cases hk : k ≤ 32
    · refine ⟨(t.next.1.toNat >>> (32 - k), t.next.2), fun spare => ?_⟩
      rw [Draw.bits, if_neg hzero, if_pos hk]
      rfl
    · obtain ⟨r, hr⟩ := ih (k - 32) (by omega) t.next.2
      refine ⟨(r.1 <<< 32 ||| t.next.1.toNat, r.2), fun spare => ?_⟩
      have hword : Source.word (.seeded t spare) = .ok t.next.1 (.seeded t.next.2 spare) := rfl
      rw [Draw.bits, if_neg hzero, if_neg hk, bind_run_of_ok hword, bind_run_of_ok (hr spare)]
      rfl

section
variable {n k : Nat} {bits : Twister → Nat × Twister}

/-- Attempts return when one of them gives a number below the bound. -/
theorem attempts_seeded_eq_ok
    (hbits : ∀ t spare, Draw.bits k (.seeded t spare) = .ok (bits t).1 (.seeded (bits t).2 spare))
    {fuel : Nat} {t : Twister} (spare : Option Float)
    (h : ∃ i < fuel, (bits ((fun t => (bits t).2)^[i] t)).1 < n) :
    ∃ a t', Draw.attempts n k fuel (.seeded t spare) = .ok a (.seeded t' spare) := by
  induction fuel generalizing t with
  | zero => simp at h
  | succ fuel ih =>
    rw [Draw.attempts, bind_run_of_ok (hbits t spare)]
    by_cases hsmall : (bits t).1 < n
    · rw [dif_pos hsmall]
      exact ⟨_, _, rfl⟩
    · rw [dif_neg hsmall]
      apply ih
      obtain ⟨i, hi, hlater⟩ := h
      cases i with
      | zero => exact absurd hlater hsmall
      | succ i => exact ⟨i, by omega, hlater⟩

/-- Attempts are given up when none of them gives a number below the bound. -/
theorem attempts_seeded_eq_error
    (hbits : ∀ t spare, Draw.bits k (.seeded t spare) = .ok (bits t).1 (.seeded (bits t).2 spare))
    (fuel : Nat) {t : Twister} (spare : Option Float)
    (h : ∀ i < fuel, ¬ (bits ((fun t => (bits t).2)^[i] t)).1 < n) :
    ∃ t', Draw.attempts n k fuel (.seeded t spare) = .error .exhausted (.seeded t' spare) := by
  induction fuel generalizing t with
  | zero => exact ⟨t, rfl⟩
  | succ fuel ih =>
    have hlarge : ¬ (bits t).1 < n := h 0 (by omega)
    rw [Draw.attempts, bind_run_of_ok (hbits t spare), dif_neg hlarge]
    apply ih
    intro i hi
    exact h (i + 1) (by omega)

end

/-- A number below a bound is drawn from a seeded source, or it would never come. -/
theorem below_seeded (n : Nat) {s : Source} (hs : s.IsSeeded) :
    (∃ i s', Draw.below n s = .ok i s' ∧ s'.IsSeeded) ∨
      s.Waits n ∧ ∃ s', Draw.below n s = .error .exhausted s' := by
  obtain ⟨t, spare, rfl⟩ := hs
  choose bits hbits using exists_bits_seeded (Draw.bitLength n)
  by_cases h : ∃ i, (bits ((fun t => (bits t).2)^[i] t)).1 < n
  · obtain ⟨code, hcode⟩ := Twister.exists_code
    have hearly := exists_iterate_lt hcode (fun t => (bits t).2) (fun t => (bits t).1 < n) t h
    obtain ⟨i, t', hrun⟩ := attempts_seeded_eq_ok hbits spare hearly
    exact .inl ⟨i, _, hrun, _, _, rfl⟩
  · have hnever : ∀ fuel, ∃ s',
        Draw.attempts n (Draw.bitLength n) fuel (.seeded t spare) = .error .exhausted s' := by
      intro fuel
      obtain ⟨t', hrun⟩ := attempts_seeded_eq_error hbits fuel spare fun i _ hi => h ⟨i, hi⟩
      exact ⟨_, hrun⟩
    exact .inr ⟨⟨⟨_, _, rfl⟩, hnever⟩, hnever _⟩

/-- On a seeded source a draw returns and leaves a seeded source, or it would go on for ever. -/
def ReturnsOrWaits {α : Type} (d : Draw α) : Prop :=
  ∀ s, s.IsSeeded →
    (∃ a s', d s = .ok a s' ∧ s'.IsSeeded) ∨
      (∃ s₁ n, Source.Waits s₁ n) ∧ ∃ s', d s = .error .exhausted s'

namespace ReturnsOrWaits
variable {α β : Type}

theorem pure (a : α) : ReturnsOrWaits (Pure.pure a) :=
  fun s hs => .inl ⟨a, s, rfl, hs⟩

theorem bind {d : Draw α} {e : α → Draw β} (hd : ReturnsOrWaits d)
    (he : ∀ a, ReturnsOrWaits (e a)) : ReturnsOrWaits (d >>= e) := by
  intro s hs
  rcases hd s hs with ⟨a, s', ha, hs'⟩ | ⟨hwaits, s', ha⟩
  · rw [bind_run_of_ok ha]
    exact he a s' hs'
  · rw [bind_run_of_error ha]
    exact .inr ⟨hwaits, s', rfl⟩

/-- What is made from the result of a draw. -/
theorem map {d : Draw α} (hd : ReturnsOrWaits d) (e : α → β) :
    ReturnsOrWaits (do return e (← d)) :=
  hd.bind fun a => ReturnsOrWaits.pure (e a)

end ReturnsOrWaits

theorem returnsOrWaits_below (n : Nat) : ReturnsOrWaits (Draw.below n) := by
  intro s hs
  rcases below_seeded n hs with hreturns | ⟨hwaits, hfails⟩
  · exact .inl hreturns
  · exact .inr ⟨⟨s, n, hwaits⟩, hfails⟩

theorem returnsOrWaits_unit : ReturnsOrWaits Draw.unit := by
  rintro _ ⟨t, spare, rfl⟩
  exact .inl ⟨_, _, rfl, _, _, rfl⟩

theorem returnsOrWaits_normal : ReturnsOrWaits Draw.normal := by
  rintro _ ⟨t, spare, rfl⟩
  cases spare with
  | some z => exact .inl ⟨z, _, rfl, t, none, rfl⟩
  | none => exact .inl ⟨_, _, rfl, _, _, rfl⟩

namespace Producer

/-- The values of producers can be drawn from every seeded source, if the draws return. -/
theorem returnsOrWaits_draw (p : Producer) : ReturnsOrWaits p.draw := by
  cases p with
  | const value => exact ReturnsOrWaits.pure value
  | uniform low high => exact (returnsOrWaits_unit.map _).map _
  | randint low high h => exact ((returnsOrWaits_below _).map _).map _
  | choice first others => exact (returnsOrWaits_below _).map _
  | gauss mu sigma => exact (returnsOrWaits_normal.map _).map _

end Producer

end RandomDerivation
