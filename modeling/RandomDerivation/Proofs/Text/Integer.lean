import Mathlib.Data.List.DropRight
import RandomDerivation.Proofs.Json.Scalar

/-!
# Whole numbers that are written and read

A whole number is written with the ten ASCII digits, and a dash in front if it is negative. What
is written is read as the same number, if it has no more digits than may be read. It holds no
blanks that would be dropped and no underscores that would be skipped.
-/

namespace RandomDerivation.Integer

theorem digitValue?_of_isDigit {c : Char} (h : Json.isDigit c = true) :
    digitValue? c = some (c.toNat - '0'.toNat) := by
  have hrange : 0x30 ≤ c.toNat ∧ c.toNat ≤ 0x39 := by
    simpa [Json.isDigit, Char.le_def, UInt32.le_iff_toNat_le] using h
  have hfirst : (decide (0x30 ≤ c.toNat) && decide (c.toNat < 0x30 + 10)) = true := by
    simp only [Bool.and_eq_true, decide_eq_true_eq]
    omega
  obtain ⟨later, hzeros⟩ : ∃ later, zeros = 0x30 :: later := ⟨_, rfl⟩
  have hfind : zeros.find? (fun z => z ≤ c.toNat && c.toNat < z + 10) = some 0x30 := by
    rw [hzeros]
    exact List.find?_cons_of_pos hfirst
  rw [digitValue?, hfind]
  rfl

theorem not_isBlank_of_isDigit {c : Char} (h : Json.isDigit c = true) : isBlank c = false := by
  have hrange : 0x30 ≤ c.toNat ∧ c.toNat ≤ 0x39 := by
    simpa [Json.isDigit, Char.le_def, UInt32.le_iff_toNat_le] using h
  simp only [isBlank, Bool.or_eq_false_iff, Bool.and_eq_false_iff, beq_eq_false_iff_ne,
    decide_eq_false_iff_not]
  omega

/-- Without blanks there is nothing to be dropped. -/
theorem trim_eq_self {s : List Char} (h : ∀ c ∈ s, isBlank c = false) : trim s = s := by
  have hdrop : ∀ s : List Char, (∀ c ∈ s, isBlank c = false) → s.dropWhile isBlank = s := by
    intro s hs
    cases s with
    | nil => rfl
    | cons c cs => exact List.dropWhile_cons_of_neg (by simp [hs c (by simp)])
  have hreverse : ∀ c ∈ s.reverse, isBlank c = false := by simpa using h
  rw [trim, hdrop s h, hdrop s.reverse hreverse, List.reverse_reverse]

/-- The values of a row of ASCII digits, one after the other. -/
theorem digits?_of_isDigit {ds : List Char} (hne : ds ≠ [])
    (h : ∀ c ∈ ds, Json.isDigit c = true) :
    digits? ds = some (ds.map fun c => c.toNat - '0'.toNat) := by
  induction ds with
  | nil => exact absurd rfl hne
  | cons c rest ih =>
    obtain ⟨hc, hrest⟩ := List.forall_mem_cons.1 h
    cases rest with
    | nil => simp [digits?, digitValue?_of_isDigit hc]
    | cons d rest =>
      have hd : d ≠ '_' := Json.ne_of_isDigit (hrest d (by simp)) rfl
      have hlater := ih (by simp) hrest
      simp [digits?, digitValue?_of_isDigit hc, hlater, hd]

theorem ofDigits_map (ds : List Char) :
    ofDigits (ds.map fun c => c.toNat - '0'.toNat) = Json.digitsValue ds := by
  rw [ofDigits, Json.digitsValue, List.foldl_map]

/-- A number is read as it was written. -/
theorem read?_write {n : Int} (h : isWritable n = true) : read? (write n) = some n := by
  have hall : ∀ c ∈ Nat.toDigits 10 n.natAbs, Json.isDigit c = true :=
    fun c hc => Json.isDigit_of_mem_toDigits hc
  have hdigits := digits?_of_isDigit Nat.toDigits_ne_nil hall
  have hvalue := (ofDigits_map (Nat.toDigits 10 n.natAbs)).trans
    (Json.digitsValue_toDigits n.natAbs)
  have hlength : ¬ maxDigits < (Nat.toDigits 10 n.natAbs).length := by
    simpa [isWritable] using h
  have hblank : ∀ c ∈ Nat.toDigits 10 n.natAbs, isBlank c = false :=
    fun c hc => not_isBlank_of_isDigit (hall c hc)
  by_cases hneg : n < 0
  · have htrim : trim ('-' :: Nat.toDigits 10 n.natAbs) = '-' :: Nat.toDigits 10 n.natAbs := by
      apply trim_eq_self
      intro c hc
      rcases List.mem_cons.1 hc with rfl | hc
      · rfl
      · exact hblank c hc
    simp only [read?, Json.toList_write_of_neg hneg, htrim, hdigits, List.length_map, hvalue,
      Option.bind_eq_bind, Option.bind_some, if_neg hlength, if_true, Option.some.injEq]
    omega
  · obtain ⟨d, ds, hcons, hd⟩ := Json.exists_toDigits_eq_cons n.natAbs
    have htrim := trim_eq_self hblank
    have hminus : d ≠ '-' := Json.ne_of_isDigit hd rfl
    have hplus : d ≠ '+' := Json.ne_of_isDigit hd rfl
    rw [hcons] at htrim hdigits hlength hvalue
    have hrest : read? (write n) = (do
        let digits ← digits? (d :: ds)
        if maxDigits < digits.length then none else some (ofDigits digits : Int)) := by
      rw [read?, Json.toList_write_of_not_neg hneg, hcons, htrim]
      split
      · rename_i heq
        split at heq
        · rename_i hfront
          exact absurd (List.cons_eq_cons.1 hfront).1 hminus
        · rename_i hfront
          exact absurd (List.cons_eq_cons.1 hfront).1 hplus
        · cases heq
          rfl
    simp only [hrest, hdigits, List.length_map, hvalue, Option.bind_eq_bind, Option.bind_some,
      if_neg hlength, Option.some.injEq]
    omega

/-- Only the end is dropped when no blank stands at the front. -/
theorem trim_cons_prefix {c : Char} {s : List Char} (hc : isBlank c = false) :
    trim (c :: s) <+: c :: s := by
  have hfront : (c :: s).dropWhile isBlank = c :: s := List.dropWhile_cons_of_neg (by simp [hc])
  rw [trim, hfront]
  exact List.rdropWhile_prefix isBlank (c :: s)

theorem exists_digit_of_digits? {s : List Char} {digits : List Nat} (h : digits? s = some digits) :
    ∃ c rest, s = c :: rest ∧ (digitValue? c).isSome = true := by
  cases s with
  | nil => cases h
  | cons c rest =>
    refine ⟨c, rest, rfl, ?_⟩
    cases hc : digitValue? c with
    | some d => rfl
    | none => simp [digits?, hc] at h

/-- A dash at the front of a text that is read as a number has a digit behind it. -/
theorem exists_digit_of_read? {text : String} {n : Int} {rest : List Char}
    (htext : text.toList = '-' :: rest) (h : read? text = some n) :
    ∃ c behind, rest = c :: behind ∧ (digitValue? c).isSome = true := by
  have hprefix : trim ('-' :: rest) <+: '-' :: rest := trim_cons_prefix rfl
  rw [read?, htext] at h
  cases htrim : trim ('-' :: rest) with
  | nil => simp [htrim, digits?] at h
  | cons c body =>
    rw [htrim, List.cons_prefix_cons] at hprefix
    obtain ⟨rfl, behind, rfl⟩ := hprefix
    rw [htrim] at h
    obtain ⟨digits, hdigits, -⟩ := Option.bind_eq_some_iff.1 h
    obtain ⟨c, later, rfl, hc⟩ := exists_digit_of_digits? hdigits
    exact ⟨c, later ++ behind, rfl, hc⟩

end RandomDerivation.Integer
