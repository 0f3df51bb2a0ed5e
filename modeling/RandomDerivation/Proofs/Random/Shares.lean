import Mathlib.Data.Set.Card
import Mathlib.Order.Interval.Finset.Nat
import RandomDerivation.Proofs.Random.Prefix
import RandomDerivation.Proofs.Random.Seeded

/-!
# The shares of a number below a bound

A number below a bound is made of the first bits of a word, as many as the bound has. Words whose
first bits make a number that is too large are of no use, and the draw goes on as if they had not
been there. Every number has the same share of the other words, namely those that differ in the
bits behind the first ones.
-/

namespace RandomDerivation
variable {n k : Nat} {s s' : Source} {v : UInt32}

/-- The number below `n` that a word selects: the one that its first bits make, if it is below `n`.
Any other word is discarded. -/
def Draw.selected? (n : Nat) (v : UInt32) : Option (Fin n) :=
  if h : v.toNat >>> (32 - bitLength n) < n then some ⟨_, h⟩ else none

theorem selected_eq_some {i : Fin n} :
    Draw.selected? n v = some i ↔ v.toNat >>> (32 - Draw.bitLength n) = i.val := by
  unfold Draw.selected?
  split
  · simp [Fin.ext_iff]
  · rename_i hlarge
    simp only [reduceCtorEq, false_iff]
    intro heq
    exact hlarge (heq ▸ i.isLt)

theorem selected_eq_none :
    Draw.selected? n v = none ↔ ¬ v.toNat >>> (32 - Draw.bitLength n) < n := by
  unfold Draw.selected?
  split <;> simp_all

theorem bitLength_le (h : n < 2 ^ k) : Draw.bitLength n ≤ k := by
  unfold Draw.bitLength
  split
  · exact Nat.zero_le k
  · rename_i hn
    exact (Nat.log2_lt hn).2 h

/-- Every number below the bound is selected by as many words as there are values of the bits
behind the first ones. -/
theorem ncard_selected (hn : n < 2 ^ 32) (i : Fin n) :
    {v : UInt32 | Draw.selected? n v = some i}.ncard = 2 ^ (32 - Draw.bitLength n) := by
  set size := 2 ^ (32 - Draw.bitLength n) with hsize
  have hpos : 0 < size := Nat.two_pow_pos _
  have hlast : i.val * size + size ≤ 2 ^ 32 := by
    have hi : i.val < 2 ^ Draw.bitLength n := Nat.lt_trans i.isLt (lt_two_pow_bitLength n)
    calc i.val * size + size = (i.val + 1) * size := (Nat.succ_mul _ _).symm
      _ ≤ 2 ^ Draw.bitLength n * size := Nat.mul_le_mul_right size hi
      _ = 2 ^ 32 := by rw [hsize, ← Nat.pow_add, Nat.add_sub_cancel' (bitLength_le hn)]
  -- These words begin with the first bits and count up from there.
  have himage : Set.image UInt32.toNat {v | Draw.selected? n v = some i} =
      Finset.Ico (i.val * size) (i.val * size + size) := by
    ext m
    have hshift : m >>> (32 - Draw.bitLength n) = i.val ↔
        i.val * size ≤ m ∧ m < i.val * size + size := by
      rw [Nat.shiftRight_eq_div_pow, Nat.div_eq_iff hpos]
      omega
    simp only [Set.mem_image, Set.mem_ofPred_eq, selected_eq_some, Finset.coe_Ico, Set.mem_Ico]
    rw [← hshift]
    constructor
    · rintro ⟨v, hv, rfl⟩
      exact hv
    · intro hm
      have hlt : m < 2 ^ 32 := Nat.lt_of_lt_of_le (hshift.1 hm).2 hlast
      exact ⟨m.toUInt32, by rwa [Nat.toUInt32, UInt32.toNat_ofNat_of_lt' hlt],
        UInt32.toNat_ofNat_of_lt' hlt⟩
  have hinjective : Function.Injective UInt32.toNat := fun v v' => UInt32.toNat_inj.1
  rw [← Set.ncard_image_of_injective _ hinjective, himage, Set.ncard_coe_finset, Nat.card_Ico,
    Nat.add_sub_cancel_left]

/-- Up to 32 bits are the first bits of a word. -/
theorem bits_of_word (hk : 0 < k) (hk' : k ≤ 32) (hword : Source.word s = .ok v s') :
    Draw.bits k s = .ok (v.toNat >>> (32 - k)) s' := by
  rw [Draw.bits, if_neg (by omega), if_pos hk', bind_run_of_ok hword, pure_run]

/-- A source that has a word allows an attempt. -/
theorem exists_reach_eq_succ (hword : Source.word s = .ok v s') : ∃ fuel, s.reach = fuel + 1 := by
  obtain ⟨words, spare⟩ := s
  cases words with
  | seeded t =>
    obtain ⟨code, -⟩ := Twister.exists_code
    have hpos : 0 < Source.reach ⟨.seeded t, spare⟩ := Fin.pos (code t)
    exact Nat.exists_eq_succ_of_ne_zero hpos.ne'
  | listed left =>
    cases left with
    | nil => cases hword
    | cons w rest => exact ⟨rest.length, rfl⟩

theorem Source.IsSeeded.of_word (hs : s.IsSeeded) (hword : Source.word s = .ok v s') :
    s'.IsSeeded := by
  obtain ⟨t, spare, rfl⟩ := hs
  cases hword
  exact ⟨_, _, rfl⟩

/-- More attempts than those that were needed change nothing. -/
theorem attempts_mono {fuel fuel' : Nat} {i : Fin n} (hfuel : fuel ≤ fuel')
    (h : Draw.attempts n k fuel s = .ok i s') : Draw.attempts n k fuel' s = .ok i s' := by
  induction fuel generalizing s fuel' with
  | zero => cases h
  | succ fuel ih =>
    obtain ⟨fuel', rfl⟩ : ∃ more, fuel' = more + 1 := ⟨fuel' - 1, by omega⟩
    simp only [Draw.attempts, bind_eq_ok] at h ⊢
    obtain ⟨r, s₁, hbits, hlater⟩ := h
    refine ⟨r, s₁, hbits, ?_⟩
    by_cases hsmall : r < n
    · rwa [dif_pos hsmall] at hlater ⊢
    · rw [dif_neg hsmall] at hlater ⊢
      exact ih (by omega) hlater

section
variable (hn : n < 2 ^ 32) (hword : Source.word s = .ok v s')
include hn hword

/-- A word that selects a number is all that is drawn. -/
theorem below_of_selected {i : Fin n} (h : Draw.selected? n v = some i) :
    Draw.below n s = .ok i s' := by
  have hpos : 0 < n := by have := i.isLt; omega
  have hbits := bits_of_word (bitLength_pos hpos) (bitLength_le hn) hword
  obtain ⟨fuel, hfuel⟩ := exists_reach_eq_succ hword
  have hvalue := selected_eq_some.1 h
  rw [Draw.below, hfuel, Draw.attempts, bind_run_of_ok hbits, dif_pos (hvalue ▸ i.isLt), pure_run]
  congr 1
  exact Fin.ext hvalue

/-- A word that is discarded takes an attempt. -/
theorem attempts_of_discarded (hpos : 0 < n) (h : Draw.selected? n v = none) (fuel : Nat) :
    Draw.attempts n (Draw.bitLength n) (fuel + 1) s =
      Draw.attempts n (Draw.bitLength n) fuel s' := by
  have hbits := bits_of_word (bitLength_pos hpos) (bitLength_le hn) hword
  rw [Draw.attempts, bind_run_of_ok hbits, dif_neg (selected_eq_none.1 h)]

/-- Behind a word that is discarded a number is drawn as if the word had not been there. From a
seeded source it may be that no number would ever come, with the word or without it. -/
theorem below_of_discarded (hpos : 0 < n) (h : Draw.selected? n v = none) :
    (s.Waits n ∧ s'.Waits n) ∨ Draw.below n s = Draw.below n s' := by
  have hattempt := attempts_of_discarded hn hword hpos h
  obtain ⟨words, spare⟩ := s
  cases words with
  | listed left =>
    have hbits := bits_of_word (bitLength_pos hpos) (bitLength_le hn) hword
    right
    rw [below_listed hpos, bind_run_of_ok hbits, dif_neg (selected_eq_none.1 h)]
  | seeded t =>
    have hs : Source.IsSeeded ⟨.seeded t, spare⟩ := ⟨t, spare, rfl⟩
    have hs' := hs.of_word hword
    rcases below_seeded n hs with ⟨i, s₁, hrun, -⟩ | ⟨hwaits, -⟩
    · right
      obtain ⟨fuel, hfuel⟩ := exists_reach_eq_succ hword
      rw [hrun]
      rw [Draw.below, hfuel, hattempt] at hrun
      cases hword
      have hreach : fuel ≤ Source.reach ⟨.seeded t.next.2, spare⟩ :=
        Nat.le_of_succ_le (Nat.le_of_eq hfuel.symm)
      exact (attempts_mono hreach hrun).symm
    · left
      refine ⟨hwaits, hs', fun fuel => ?_⟩
      rw [← hattempt]
      exact hwaits.2 (fuel + 1)

end

end RandomDerivation
