import Mathlib.Logic.Function.Iterate
import RandomDerivation.Proofs.Random.Seeded

/-!
# The first words of a seed

Seeding a twister goes around its ring twice, and each word that it writes depends on the word
written before. What the ring holds afterwards is told here by recursion on the place, without a
ring that is written to, for a seed of a single word. The first draws read no word that another
draw has renewed, so the words that they give can be told, and computed, one by one.
-/

namespace RandomDerivation

namespace Twister

/-- The words that grow out of a single one. -/
def grown (seed : UInt32) : Nat → UInt32
  | 0 => seed
  | i + 1 => blend 1812433253 (grown seed i) + (i + 1).toUInt32

theorem getElem_ofWord (seed : UInt32) {i : Nat} (hi : i < 624) :
    (ofWord seed)[i] = grown seed i := by
  -- After so many rounds the places up to their number are written.
  have hrounds : ∀ rounds (hrounds : rounds ≤ 623) i (hi : i ≤ rounds),
      (Nat.fold rounds (fun i hi (ring : Vector UInt32 624) =>
        ring.set (i + 1) (blend 1812433253 ring[i] + (i + 1).toUInt32))
        ((Vector.replicate 624 0).set 0 seed))[i] = grown seed i := by
    intro rounds hrounds
    induction rounds with
    | zero =>
      intro i hi
      obtain rfl : i = 0 := by omega
      simp [grown]
    | succ rounds ih =>
      intro i hi
      rw [Nat.fold_succ]
      by_cases hlast : i = rounds + 1
      · subst hlast
        rw [Vector.getElem_set_self, ih (by omega) rounds le_rfl, grown]
      · rw [Vector.getElem_set_ne _ _ (by omega)]
        exact ih (by omega) i (by omega)
  exact hrounds 623 le_rfl i (by omega)

section
variable {before after next : Nat → UInt32} {s : Stirring} {k : Nat} {factor : UInt32}
  {change : UInt32 → Fin 624 → UInt32}

/-- The places of a ring up to `k` hold the words of `after`, and the place stirred last is the
last of them. All places behind hold what they held before. -/
structure Stirring.Holds (before after : Nat → UInt32) (k : Nat) (s : Stirring) : Prop where
  last : s.last.val = k
  stirred : ∀ i (_ : i < 624), i ≤ k → s.ring[i] = after i
  left : ∀ i (_ : i < 624), k < i → s.ring[i] = before i

/-- Stirring the next word, which is not yet the last one of the ring. -/
theorem Stirring.Holds.step (h : s.Holds before after k) (hk : k < 622)
    (hafter : after (k + 1) =
      change (before (k + 1) ^^^ blend factor (after k)) ⟨k + 1, by omega⟩) :
    (s.step factor change).Holds before after (k + 1) := by
  obtain ⟨hlast, hstirred, hleft⟩ := h
  have hhere : s.last + 1 = ⟨k + 1, by omega⟩ := by
    have hlt : s.last < Fin.last 623 := by
      rw [Fin.lt_def, hlast, Fin.val_last]
      omega
    exact Fin.ext (by rw [Fin.val_add_one_of_lt hlt, hlast])
  have hring : s.step factor change =
      ⟨s.ring.set (k + 1) (after (k + 1)), ⟨k + 1, by omega⟩⟩ := by
    have hne : (⟨k + 1, by omega⟩ : Fin 624) ≠ 623 := by
      intro heq
      have : k + 1 = 623 := congrArg Fin.val heq
      omega
    simp only [Stirring.step, hhere, if_neg hne, hafter, Fin.getElem_fin, hlast]
    rw [hstirred k (by omega) le_rfl, hleft (k + 1) (by omega) (by omega)]
  rw [hring]
  refine ⟨rfl, ?_, ?_⟩
  · intro i hi hle
    by_cases heq : i = k + 1
    · subst heq
      exact Vector.getElem_set_self _
    · rw [Vector.getElem_set_ne _ _ (by omega)]
      exact hstirred i hi (by omega)
  · intro i hi hlt
    rw [Vector.getElem_set_ne _ _ (by omega)]
    exact hleft i hi (by omega)

/-- Stirring the last word of the ring, which is copied to place zero for the next time around. -/
theorem Stirring.Holds.turn (h : s.Holds before after 622)
    (hafter : after 623 = change (before 623 ^^^ blend factor (after 622)) 623)
    (hnext : next 0 = after 623) : (s.step factor change).Holds after next 0 := by
  obtain ⟨hlast, hstirred, hleft⟩ := h
  have hhere : s.last + 1 = 623 := by
    have heq : s.last = 622 := Fin.ext hlast
    rw [heq]
    rfl
  have hring : s.step factor change =
      ⟨(s.ring.set 623 (after 623)).set 0 (after 623), 0⟩ := by
    have hplace : ((623 : Fin 624) : Nat) = 623 := rfl
    simp only [Stirring.step, hhere, if_true, Fin.getElem_fin, hlast, hplace,
      Vector.getElem_set_self]
    rw [hstirred 622 (by omega) le_rfl, hleft 623 (by omega) (by omega), ← hafter]
  rw [hring]
  refine ⟨rfl, ?_, ?_⟩
  · intro i hi hle
    obtain rfl : i = 0 := by omega
    rw [hnext]
    exact Vector.getElem_set_self _
  · intro i hi hlt
    rw [Vector.getElem_set_ne _ _ (by omega)]
    by_cases heq : i = 623
    · subst heq
      exact Vector.getElem_set_self _
    · rw [Vector.getElem_set_ne _ _ (by omega)]
      exact hstirred i hi (by omega)

theorem Stirring.Holds.iterate (h : s.Holds before after k) (rounds : Nat)
    (hrounds : k + rounds ≤ 622)
    (hafter : ∀ i (_ : i < 622), k ≤ i → after (i + 1) =
      change (before (i + 1) ^^^ blend factor (after i)) ⟨i + 1, by omega⟩) :
    ((Stirring.step factor change)^[rounds] s).Holds before after (k + rounds) := by
  induction rounds with
  | zero => exact h
  | succ rounds ih =>
    rw [Function.iterate_succ_apply']
    exact (ih (by omega) hafter).step (by omega) (hafter _ (by omega) (by omega))

end

section
variable (seed : UInt32)

/-- A round of the first time around the ring. -/
def mix : Stirring → Stirring := Stirring.step 1664525 fun word _ => word + seed

/-- A round of the second time. -/
def settle : Stirring → Stirring :=
  Stirring.step 1566083941 fun word here => word - here.val.toUInt32

/-- The words that the first time leaves at the places behind zero. -/
def mixed : Nat → UInt32
  | 0 => grown 19650218 0
  | i + 1 => (grown 19650218 (i + 1) ^^^ blend 1664525 (mixed i)) + seed

/-- The words that the second time leaves. The round for place one still belongs to the first
time. -/
def settled : Nat → UInt32
  | 0 => mixed seed 623
  | 1 => (mixed seed 1 ^^^ blend 1664525 (mixed seed 623)) + seed
  | i + 2 => (mixed seed (i + 2) ^^^ blend 1566083941 (settled (i + 1))) - (i + 2).toUInt32

/-- The words that are in the ring before the first draw. -/
def seedWord : Nat → UInt32
  | 0 => 0x80000000
  | 1 => (settled seed 1 ^^^ blend 1566083941 (settled seed 623)) - 1
  | i + 2 => settled seed (i + 2)

/-- After the two times around the ring, the word at place zero is replaced. -/
theorem getElem_ofWords_singleton {i : Nat} (hi : i < 624) :
    (ofWords #[seed]).words[i] = if 0 = i then 0x80000000 else
      (settle^[623] ((mix seed)^[624] ⟨ofWord 19650218, 0⟩)).ring[i] := by
  have hfold : ∀ (f : Stirring → Stirring) rounds s,
      Nat.fold rounds (fun _ _ => f) s = f^[rounds] s := by
    intro f rounds s
    induction rounds with
    | zero => rfl
    | succ rounds ih => rw [Nat.fold_succ, ih, Function.iterate_succ_apply']
  have hround : ∀ i (s : Stirring), (s.step 1664525 fun word _ =>
      word + #[seed].getD (i % 1) 0 + (i % 1).toUInt32) = mix seed s := by
    intro i s
    simp [Nat.mod_one, mix]
  have hmix : ∀ s, Nat.fold (max 624 1) (fun i _ (s : Stirring) => s.step 1664525 fun word _ =>
      word + #[seed].getD (i % 1) 0 + (i % 1).toUInt32) s = (mix seed)^[624] s := by
    intro s
    simp only [hround]
    exact hfold _ _ _
  rw [← hmix, ← hfold]
  exact Vector.getElem_set (by omega) hi

/-- The words that seeding leaves. -/
theorem getElem_ofWords {i : Nat} (hi : i < 624) :
    (ofWords #[seed]).words[i] = seedWord seed i := by
  have hgrown : Stirring.Holds (grown 19650218) (mixed seed) 0 ⟨ofWord 19650218, 0⟩ := by
    refine ⟨rfl, ?_, fun i hi _ => getElem_ofWord _ hi⟩
    intro i hi hle
    obtain rfl : i = 0 := by omega
    exact getElem_ofWord _ hi
  have hmixed : ((mix seed)^[624] ⟨ofWord 19650218, 0⟩).Holds (mixed seed) (settled seed) 1 := by
    rw [Function.iterate_succ_apply', Function.iterate_succ_apply']
    exact ((hgrown.iterate 622 le_rfl fun _ _ _ => rfl).turn rfl rfl).step (by omega) rfl
  have hsettled : (settle^[621] ((mix seed)^[624] ⟨ofWord 19650218, 0⟩)).Holds
      (mixed seed) (settled seed) 622 := by
    apply hmixed.iterate 621 le_rfl
    intro i _ hi
    obtain ⟨i, rfl⟩ := Nat.exists_eq_succ_of_ne_zero (by omega : i ≠ 0)
    rfl
  -- The last round has come back to place one.
  let final : Nat → UInt32 := fun i => if i = 0 then settled seed 623 else seedWord seed 1
  have hfinal : (settle^[623] ((mix seed)^[624] ⟨ofWord 19650218, 0⟩)).Holds
      (settled seed) final 1 := by
    rw [Function.iterate_succ_apply', Function.iterate_succ_apply']
    exact (hsettled.turn rfl rfl).step (by omega) rfl
  rw [getElem_ofWords_singleton seed hi]
  match i, hi with
  | 0, _ => rfl
  | 1, hi => exact (if_neg (by omega)).trans (hfinal.stirred 1 hi le_rfl)
  | i + 2, hi => exact (if_neg (by omega)).trans (hfinal.left (i + 2) hi (by omega))

/-- The twister of a seed behind so many draws. -/
def drawn (draws : Nat) : Twister := (fun t => t.next.2)^[draws] (ofWords #[seed])

theorem drawn_succ (draws : Nat) : drawn seed (draws + 1) = (drawn seed draws).next.2 :=
  Function.iterate_succ_apply' _ _ _

/-- The first draws renew the words from place zero on, and leave those that are still to be
renewed. -/
theorem holds_drawn {draws : Nat} (h : draws ≤ 227) :
    (drawn seed draws).place.val = draws ∧
      ∀ i (_ : i < 624), draws ≤ i → (drawn seed draws).words[i] = seedWord seed i := by
  induction draws with
  | zero => exact ⟨rfl, fun i hi _ => getElem_ofWords seed hi⟩
  | succ draws ih =>
    obtain ⟨hplace, hwords⟩ := ih (by omega)
    rw [drawn_succ]
    constructor
    · have hlt : (drawn seed draws).place < Fin.last 623 := by
        rw [Fin.lt_def, hplace, Fin.val_last]
        omega
      exact (Fin.val_add_one_of_lt hlt).trans (congrArg (· + 1) hplace)
    · intro i hi hle
      refine (Vector.getElem_set_ne (drawn seed draws).place.isLt hi ?_).trans
        (hwords i hi (by omega))
      rw [hplace]
      omega

/-- The word that a seed gives in one of its first draws. -/
def drawnWord (draws : Nat) : UInt32 :=
  temper (renewed (seedWord seed draws) (seedWord seed (draws + 1)) (seedWord seed (draws + 397)))

theorem next_drawn {draws : Nat} (h : draws < 227) :
    (drawn seed draws).next = (drawnWord seed draws, drawn seed (draws + 1)) := by
  obtain ⟨hplace, hwords⟩ := holds_drawn seed h.le
  have hword : ∀ (i : Fin 624) j (hj : j < 624), i.val = j → draws ≤ j →
      (drawn seed draws).words[i] = seedWord seed j := by
    rintro i j hj rfl hle
    exact hwords _ hj hle
  have hfollowing : ((drawn seed draws).place + 1).val = draws + 1 := by
    rw [Fin.val_add, hplace]
    exact Nat.mod_eq_of_lt (by omega)
  have hdistant : ((drawn seed draws).place + 397).val = draws + 397 := by
    rw [Fin.val_add, hplace]
    exact Nat.mod_eq_of_lt (by omega)
  have hfirst : (drawn seed draws).next.1 = drawnWord seed draws := by
    rw [next, drawnWord, hword _ draws (by omega) hplace le_rfl,
      hword _ _ (by omega) hfollowing (by omega), hword _ _ (by omega) hdistant (by omega)]
  rw [drawn_succ, ← hfirst]

end

end Twister

namespace Source

/-- The source of a seed of one word, behind so many draws. -/
def drawn (seed : UInt32) (draws : Nat) : Source := .seeded (.drawn seed draws) none

theorem ofSeed_eq_drawn {seed : Int} (h : seed.natAbs < 0x100000000) :
    ofSeed seed = drawn seed.natAbs.toUInt32 0 := by
  simp [ofSeed, Twister.ofSeed, Twister.digits, h, drawn, Twister.drawn, seeded]

/-- One of the first words of a seed starts with the bits of a number below `n`. -/
def Gives (seed : UInt32) (draws : Nat) {n : Nat} (i : Fin n) : Prop :=
  draws < 227 ∧ Draw.bitLength n ≤ 32 ∧
    (Twister.drawnWord seed draws).toNat >>> (32 - Draw.bitLength n) = i

instance (seed : UInt32) (draws : Nat) {n : Nat} (i : Fin n) : Decidable (Gives seed draws i) :=
  inferInstanceAs (Decidable (_ ∧ _ ∧ _))

/-- This number is drawn at the first attempt. -/
theorem below_of_gives {seed : UInt32} {draws n : Nat} {i : Fin n} (h : Gives seed draws i) :
    Draw.below n (drawn seed draws) = .ok i (drawn seed (draws + 1)) := by
  obtain ⟨hdraws, hbits, hi⟩ := h
  have hn : n ≠ 0 := fun hn => (hn ▸ i).elim0
  have hzero : Draw.bitLength n ≠ 0 := by simp [Draw.bitLength, hn]
  have hword : Draw.bits (Draw.bitLength n) (drawn seed draws) =
      .ok i (drawn seed (draws + 1)) := by
    have hnext : Source.word (drawn seed draws) =
        .ok (Twister.drawnWord seed draws) (drawn seed (draws + 1)) := by
      simp only [drawn, seeded, word, Twister.next_drawn seed hdraws]
    rw [Draw.bits, if_neg hzero, if_pos hbits, bind_run_of_ok hnext, hi]
    rfl
  have hreach : (drawn seed draws).reach ≠ 0 := by
    -- The number of states is too large to be computed.
    have hpositive : ∀ {count m : Nat}, count = 624 * Nat.pow 2 m → count ≠ 0 := by
      rintro _ m rfl
      exact (Nat.mul_pos (by omega) (Nat.two_pow_pos m)).ne'
    exact hpositive Twister.stateCount.eq_def
  obtain ⟨fuel, hfuel⟩ := Nat.exists_eq_succ_of_ne_zero hreach
  rw [Draw.below, hfuel, Draw.attempts, bind_run_of_ok hword, dif_pos i.isLt]
  rfl

/-- The first word of the seed 5. -/
example : Gives 5 0 (0x9f767c45 : Fin 0xffffffff) := by decide +kernel

end Source

end RandomDerivation
