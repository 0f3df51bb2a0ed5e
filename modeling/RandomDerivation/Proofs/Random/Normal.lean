import RandomDerivation.Proofs.Decimal.Exact
import RandomDerivation.Proofs.Random.Attains

/-!
# Normal values

A new pair of normal values is made from two reals of the unit interval, each of them `k / 2^53`
for a natural `k` below `2^53`. The logarithm is taken of what one of them leaves of one, which is
a positive double. A value that is kept from an earlier pair is given out without a logarithm.
-/

namespace RandomDerivation.Draw
variable {s s' : Source}

/-- The numerators of reals have 53 bits. -/
theorem unitNumerator_lt {k : Nat} (h : unitNumerator s = .ok k s') : k < 2 ^ 53 := by
  simp only [unitNumerator, bind_eq_ok, pure_eq_ok] at h
  obtain ⟨a, _, -, b, _, -, rfl, -⟩ := h
  have ha : (a >>> 5).toNat < 2 ^ 27 := by
    have := a.toNat_lt
    rw [UInt32.toNat_shiftRight, Nat.shiftRight_eq_div_pow]
    exact Nat.div_lt_of_lt_mul this
  have hb : (b >>> 6).toNat < 2 ^ 26 := by
    have := b.toNat_lt
    rw [UInt32.toNat_shiftRight, Nat.shiftRight_eq_div_pow]
    exact Nat.div_lt_of_lt_mul this
  omega

theorem unit_eq_ok {x : Float} (h : unit s = .ok x s') : ∃ k < 2 ^ 53, x = unitOf k := by
  simp only [unit, bind_eq_ok, pure_eq_ok] at h
  obtain ⟨k, _, hk, rfl, -⟩ := h
  exact ⟨k, unitNumerator_lt hk, rfl⟩

/-- A new pair of normal values: the logarithm is taken of `1 - k / 2^53`. -/
theorem normalPair_eq_ok {z : Float} (h : normalPair s = .ok z s') :
    ∃ (angle x : Float) (k : Nat), k < 2 ^ 53 ∧
      Decimal.value? x = some (1 - (k : ℚ) / 2 ^ 53) ∧
      z = Float.cos angle * radius x ∧ s'.spare = some (Float.sin angle * radius x) := by
  rw [normalPair, bind_eq_ok] at h
  obtain ⟨u, s₁, -, h⟩ := h
  rw [bind_eq_ok] at h
  obtain ⟨v, s₂, hv, h⟩ := h
  obtain ⟨k, hk, rfl⟩ := unit_eq_ok hv
  simp only [bind_run, modify_run, pure_run, EStateM.Result.ok.injEq] at h
  obtain ⟨rfl, rfl⟩ := h
  exact ⟨u * (2.0 * pi), 1.0 - unitOf k, k, hk, Decimal.value?_one_sub_share hk, rfl, rfl⟩

theorem normal_of_spare {z : Float} (h : s.spare = some z) :
    normal s = .ok z { s with spare := none } := by
  obtain ⟨words, spare⟩ := s
  cases h
  rfl

theorem normal_of_none (h : s.spare = none) : normal s = normalPair s := by
  obtain ⟨words, spare⟩ := s
  cases h
  rfl

end RandomDerivation.Draw
