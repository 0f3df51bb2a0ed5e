import Mathlib.Algebra.Ring.Nat
import RandomDerivation.Proofs.Action

/-!
# What some words make a draw return

A draw can return a value when some list of words makes it do so. The words are all read and what
follows them is not, so that the words for two draws, one after the other, are the words for their
sequence. Every draw can return every value of its range: numbers of any size, which take several
words, and numbers below a bound, which are drawn again until they fit.
-/

namespace RandomDerivation
variable {σ α β : Type} {place : Source → σ}

/-- Whatever normal value is kept, some words make a computation return a value with a property.
It reads these words and nothing behind them. The state of the computation has the source in a
`place` of its own. -/
def Attains (place : Source → σ) (x : EStateM Fault σ α) (P : α → Prop) : Prop :=
  ∀ spare, ∃ words a spare', P a ∧
    ∀ rest, x (place ⟨.listed (words ++ rest), spare⟩) = .ok a (place ⟨.listed rest, spare'⟩)

/-- The world of a source and a memory. -/
def World.around {μ : Type} (memory : μ) (s : Source) : World μ := ⟨s, memory⟩

namespace Attains

theorem pure {a : α} {P : α → Prop} (h : P a) : Attains place (Pure.pure a) P :=
  fun spare => ⟨[], a, spare, h, fun _ => rfl⟩

theorem mono {x : EStateM Fault σ α} {P Q : α → Prop} (hx : Attains place x P)
    (h : ∀ a, P a → Q a) : Attains place x Q := by
  intro spare
  obtain ⟨words, a, spare', ha, hrun⟩ := hx spare
  exact ⟨words, a, spare', h a ha, hrun⟩

/-- The words for a sequence are those for the first computation, followed by those for the
second. -/
theorem bind {x : EStateM Fault σ α} {f : α → EStateM Fault σ β} {P : α → Prop} {Q : β → Prop}
    (hx : Attains place x P) (hf : ∀ a, P a → Attains place (f a) Q) :
    Attains place (x >>= f) Q := by
  intro spare
  obtain ⟨words, a, spare₁, ha, hrun⟩ := hx spare
  obtain ⟨later, b, spare', hb, hrun'⟩ := hf a ha spare₁
  refine ⟨words ++ later, b, spare', hb, ?_⟩
  intro rest
  rw [List.append_assoc, bind_run_of_ok (hrun _)]
  exact hrun' rest

/-- Whatever a computation returns can be worked on. -/
theorem map {x : EStateM Fault σ α} (hx : Attains place x (fun _ => True)) (f : α → β) :
    Attains place (do return f (← x)) (fun _ => True) :=
  hx.bind fun _ _ => Attains.pure trivial

/-- A draw from the source of a world. -/
theorem draw {μ : Type} {memory : μ} {d : Draw α} {P : α → Prop} (hd : Attains id d P) :
    Attains (World.around memory) (RandomDerivation.draw d) P := by
  intro spare
  obtain ⟨words, a, spare', ha, hrun⟩ := hd spare
  refine ⟨words, a, spare', ha, ?_⟩
  intro rest
  have hrun := hrun rest
  simp only [id_eq] at hrun
  simp only [RandomDerivation.draw, World.around, hrun]

end Attains

theorem attains_word (w : UInt32) : Attains id Source.word (· = w) :=
  fun spare => ⟨[w], w, spare, rfl, fun _ => rfl⟩

/-- The first bits of a word can be any. -/
theorem shift_of_first_bits {k r : Nat} (hk : k ≤ 32) (hr : r < 2 ^ k) :
    (r <<< (32 - k)).toUInt32.toNat >>> (32 - k) = r := by
  have hpow : 2 ^ k * 2 ^ (32 - k) = 2 ^ 32 := by
    rw [← Nat.pow_add]
    congr 1
    omega
  have hlt : r <<< (32 - k) < 2 ^ 32 := by
    rw [Nat.shiftLeft_eq, ← hpow]
    exact Nat.mul_lt_mul_of_pos_right hr (Nat.two_pow_pos _)
  rw [Nat.toUInt32, UInt32.toNat_ofNat_of_lt' hlt, Nat.shiftLeft_shiftRight]

/-- A number of any number of bits can be drawn. -/
theorem attains_bits {k r : Nat} (hr : r < 2 ^ k) : Attains id (Draw.bits k) (· = r) := by
  induction k using Nat.strongRecOn generalizing r with
  | ind k ih =>
    rw [Draw.bits]
    by_cases hzero : k = 0
    · rw [if_pos hzero]
      subst hzero
      exact Attains.pure (by omega)
    rw [if_neg hzero]
    by_cases hk : k ≤ 32
    · rw [if_pos hk]
      refine (attains_word (r <<< (32 - k)).toUInt32).bind ?_
      rintro _ rfl
      exact Attains.pure (shift_of_first_bits hk hr)
    · rw [if_neg hk]
      have hhigh : r / 2 ^ 32 < 2 ^ (k - 32) := by
        rw [Nat.div_lt_iff_lt_mul (Nat.two_pow_pos _), ← Nat.pow_add]
        rwa [Nat.sub_add_cancel (by omega)]
      have hlow : r % 2 ^ 32 < 2 ^ 32 := Nat.mod_lt _ (Nat.two_pow_pos _)
      refine (attains_word (r % 2 ^ 32).toUInt32).bind ?_
      rintro _ rfl
      refine (ih (k - 32) (by omega) hhigh).bind ?_
      rintro _ rfl
      apply Attains.pure
      rw [Nat.toUInt32, UInt32.toNat_ofNat_of_lt' hlow, ← Nat.shiftLeft_add_eq_or_of_lt hlow,
        Nat.shiftLeft_eq, Nat.mul_comm, Nat.div_add_mod]

theorem lt_two_pow_bitLength (n : Nat) : n < 2 ^ Draw.bitLength n := by
  unfold Draw.bitLength
  split
  · omega
  · exact Nat.lt_log2_self

theorem bitLength_pos {n : Nat} (h : 0 < n) : 0 < Draw.bitLength n := by
  unfold Draw.bitLength
  split <;> omega

/-- Without words no bits are drawn. -/
theorem bits_listed_nil {k : Nat} (hk : 0 < k) (spare : Option Float) :
    Draw.bits k ⟨.listed [], spare⟩ = .error .exhausted ⟨.listed [], spare⟩ := by
  rw [Draw.bits, if_neg (by omega)]
  split
  · exact bind_run_of_error (Source.word_listed_nil spare) _
  · exact bind_run_of_error (Source.word_listed_nil spare) _

/-- Every number below a bound can be drawn, at the first attempt. -/
theorem attains_below {n : Nat} (i : Fin n) : Attains id (Draw.below n) (· = i) := by
  intro spare
  have hn : 0 < n := by have := i.isLt; omega
  have hi : i.val < 2 ^ Draw.bitLength n := Nat.lt_trans i.isLt (lt_two_pow_bitLength n)
  obtain ⟨words, _, spare', rfl, hrun⟩ := attains_bits hi spare
  simp only [id_eq] at hrun
  refine ⟨words, i, spare', rfl, ?_⟩
  intro rest
  obtain ⟨w, words, rfl⟩ : ∃ w later, words = w :: later := by
    cases words with
    | nil =>
      have hnil := hrun []
      rw [List.append_nil, bits_listed_nil (bitLength_pos hn)] at hnil
      cases hnil
    | cons w later => exact ⟨w, later, rfl⟩
  calc Draw.below n ⟨.listed (w :: words ++ rest), spare⟩
      = (Draw.bits (Draw.bitLength n) >>= fun r =>
          if h : r < n then pure ⟨r, h⟩
          else Draw.attempts n (Draw.bitLength n) (words ++ rest).length)
            ⟨.listed (w :: words ++ rest), spare⟩ := rfl
    _ = .ok i ⟨.listed rest, spare'⟩ := by
      rw [bind_run_of_ok (hrun rest), dif_pos i.isLt, pure_run]

theorem attains_range {low high n : Int} (hlow : low ≤ n) (hhigh : n ≤ high) :
    Attains id (Draw.range low high) (· = n) := by
  have hlt : (n - low).toNat < (high - low + 1).toNat := by omega
  refine (attains_below ⟨(n - low).toNat, hlt⟩).bind ?_
  rintro _ rfl
  apply Attains.pure
  simp only
  omega

theorem attains_member {first v : α} {others : List α} (h : v ∈ first :: others) :
    Attains id (Draw.member first others) (· = v) := by
  obtain ⟨i, rfl⟩ := List.get_of_mem h
  refine (attains_below i).bind ?_
  rintro _ rfl
  exact Attains.pure rfl

theorem range_eq_ok {low high n : Int} (hbounds : low ≤ high) {s s' : Source}
    (h : Draw.range low high s = .ok n s') : low ≤ n ∧ n ≤ high := by
  rw [Draw.range, bind_eq_ok] at h
  obtain ⟨i, s₁, -, hn⟩ := h
  obtain ⟨rfl, -⟩ := pure_eq_ok.1 hn
  have := i.isLt
  omega

theorem member_eq_ok {first a : α} {others : List α} {s s' : Source}
    (h : Draw.member first others s = .ok a s') : a ∈ first :: others := by
  rw [Draw.member, bind_eq_ok] at h
  obtain ⟨i, s₁, -, ha⟩ := h
  obtain ⟨rfl, -⟩ := pure_eq_ok.1 ha
  exact List.get_mem _ _

theorem attains_unit : Attains id Draw.unit (fun _ => True) := by
  intro spare
  exact ⟨[0, 0], _, spare, trivial, fun _ => rfl⟩

theorem attains_normal : Attains id Draw.normal (fun _ => True) := by
  intro spare
  cases spare with
  | some z => exact ⟨[], z, none, trivial, fun _ => rfl⟩
  | none => exact ⟨[0, 0, 0, 0], _, _, trivial, fun _ => rfl⟩

namespace Producer

/-- The values that producers without reals make. -/
inductive Makes : Producer → Json → Prop where
  | const (value : Json) : Makes (.const value) value
  | randint {low high n : Int} (h : low ≤ high) :
    low ≤ n → n ≤ high → Makes (.randint low high h) (.int n)
  | choice {first value : Json} {others : List Json} :
    value ∈ first :: others → Makes (.choice first others) value

/-- Every value that a producer makes can be drawn. -/
theorem attains {p : Producer} {value : Json} (h : p.Makes value) :
    Attains id p.draw (· = value) := by
  cases h with
  | const => exact Attains.pure rfl
  | randint h hlow hhigh =>
    refine (attains_range hlow hhigh).bind ?_
    rintro _ rfl
    exact Attains.pure rfl
  | choice h => exact attains_member h

/-- The producers without reals. -/
def isDiscrete : Producer → Bool
  | .const _ => true
  | .randint _ _ _ => true
  | .choice _ _ => true
  | .uniform _ _ => false
  | .gauss _ _ => false

/-- What is drawn for a producer without reals is one of the values that it makes. -/
theorem makes_of_draw {p : Producer} (hp : p.isDiscrete = true) {s s' : Source} {value : Json}
    (h : p.draw s = .ok value s') : p.Makes value := by
  cases p with
  | const value =>
    obtain ⟨rfl, -⟩ := pure_eq_ok.1 h
    exact .const value
  | randint low high hbounds =>
    simp only [draw, bind_eq_ok, pure_eq_ok] at h
    obtain ⟨n, _, hn, rfl, -⟩ := h
    obtain ⟨hlow, hhigh⟩ := range_eq_ok hbounds hn
    exact .randint hbounds hlow hhigh
  | choice first others => exact .choice (member_eq_ok h)
  | uniform => cases hp
  | gauss => cases hp

/-- Every producer can return. -/
theorem attains_any (p : Producer) : Attains id p.draw (fun _ => True) := by
  cases p with
  | const value => exact Attains.pure trivial
  | uniform low high => exact (attains_unit.map _).map _
  | randint low high h =>
    exact (attains (.randint h (Int.le_refl low) h)).mono fun _ _ => trivial
  | choice first others =>
    exact (attains (.choice (List.mem_cons_self))).mono fun _ _ => trivial
  | gauss mu sigma => exact (attains_normal.map _).map _

end Producer

end RandomDerivation
