import Mathlib.Data.List.Basic
import RandomDerivation.Json.Reader
import RandomDerivation.Json.Writer

/-!
# Strings, numbers and words as they are written

The parts of a document without parts of their own. What is written for one of them is read as
this value again, and what stands behind it is left. For a string this goes character by character:
each is written in one of three ways, and the reader knows all three. For a number it needs that
the digits do not go on in what follows.
-/

namespace RandomDerivation.Json

/-- A step returns a value and leaves the given rest of the text. -/
def Gives {α : Type} {s : List Char} (x : Step α s) (a : α) (rest : List Char) : Prop :=
  ∃ h, x = .ok ⟨(a, rest), h⟩

/-- The ways in which a character is written: as itself, or behind a backslash as a letter or by
its number. -/
inductive Written (c : Char) : List Char → Prop where
  | plain : c ≠ '"' → c ≠ '\\' → ¬ c.toNat < 0x20 → Written c [c]
  | letter {letter : Char} : letter ≠ 'u' → unescape? letter = some c → Written c ['\\', letter]
  | number : c.toNat < 0x20 →
    Written c ['\\', 'u', '0', '0', Nat.digitChar (c.toNat / 16), Nat.digitChar (c.toNat % 16)]

theorem written_escape (c : Char) : Written c (escape c) := by
  fun_cases escape c with
  | case1 => exact .letter (by decide) rfl
  | case2 => exact .letter (by decide) rfl
  | case3 => exact .letter (by decide) rfl
  | case4 => exact .letter (by decide) rfl
  | case5 => exact .letter (by decide) rfl
  | case6 => exact .letter (by decide) rfl
  | case7 => exact .letter (by decide) rfl
  | case8 _ _ _ _ _ _ _ _ hcontrol => exact .number hcontrol
  | case9 _ hquote hback _ _ _ _ _ hcontrol => exact .plain hquote hback hcontrol

theorem hexValue?_digitChar : ∀ d < 16, hexValue? (Nat.digitChar d) = some d := by decide

/-- The number of a control character is read as this character. -/
theorem codePoint_of_control {c : Char} (hc : c.toNat < 0x20) {rest : List Char}
    (hrest : rest ≠ []) :
    Gives (codePoint ('0' :: '0' :: Nat.digitChar (c.toNat / 16) ::
      Nat.digitChar (c.toNat % 16) :: rest)) c rest := by
  have hhigh := hexValue?_digitChar (c.toNat / 16) (by omega)
  have hlow := hexValue?_digitChar (c.toNat % 16) (by omega)
  have hzero : hexValue? '0' = some 0 := rfl
  have hempty : rest.isEmpty = false := by simpa using hrest
  have hsum : c.toNat / 16 * 16 + c.toNat % 16 = c.toNat := by omega
  have hunit : codeUnit? ('0' :: '0' :: Nat.digitChar (c.toNat / 16) ::
      Nat.digitChar (c.toNat % 16) :: rest) = some (c.toNat, rest) := by
    simp [codeUnit?, hempty, hzero, hhigh, hlow, hsum]
  have hnotHigh : isHigh c.toNat = false := by
    simp [isHigh]
    omega
  have hnotLow : isLow c.toNat = false := by
    simp [isLow]
    omega
  unfold codePoint
  split
  · rename_i hnone
    rw [hunit] at hnone
    cases hnone
  · rename_i hsome
    rw [hunit] at hsome
    cases hsome
    refine ⟨by simp; omega, ?_⟩
    simp [ofUnit, hnotHigh, hnotLow]

/-- A character in front of a string that is read is read with it, however it is written. -/
theorem Written.stringBody {opening s cs rest written : List Char} {c : Char}
    (hc : Written c written) (hs : s ≠ []) (h : Gives (stringBody opening s) cs rest) :
    Gives (stringBody opening (written ++ s)) (c :: cs) rest := by
  obtain ⟨hlt, heq⟩ := h
  cases hc with
  | plain hquote hback hcontrol =>
    rw [List.singleton_append, stringBody.eq_def]
    simp only [hquote, hback, hcontrol, if_false, heq]
    exact ⟨_, rfl⟩
  | letter hu hletter =>
    rw [List.cons_append, List.singleton_append, stringBody.eq_def]
    simp only [Char.reduceEq, if_false, if_true, hletter, heq]
    exact ⟨_, rfl⟩
  | number hcontrol =>
    obtain ⟨hlt', heq'⟩ := codePoint_of_control hcontrol hs
    simp only [List.cons_append, List.nil_append]
    rw [stringBody.eq_def]
    simp only [Char.reduceEq, if_false, if_true, heq', bind, Except.bind, heq]
    exact ⟨_, rfl⟩

/-- The characters of a string are read as they were written, up to the closing quote; `opening`
is only needed for the place of a fault. -/
theorem stringBody_escape (opening cs rest : List Char) :
    Gives (stringBody opening (cs.flatMap escape ++ '"' :: rest)) cs rest := by
  induction cs with
  | nil =>
    rw [List.flatMap_nil, List.nil_append, stringBody.eq_def]
    exact ⟨_, rfl⟩
  | cons c cs ih =>
    rw [List.flatMap_cons, List.append_assoc]
    exact (written_escape c).stringBody (by simp) ih

theorem quoted_append (s : String) (rest : List Char) :
    quoted s ++ rest = '"' :: (s.toList.flatMap escape ++ '"' :: rest) := by
  simp [quoted]

theorem value_quoted (s : String) (rest : List Char) :
    Gives (value (quoted s ++ rest)) (.str s) rest := by
  rw [quoted_append]
  obtain ⟨hlt, heq⟩ := stringBody_escape ('"' :: (s.toList.flatMap escape ++ '"' :: rest))
    s.toList rest
  rw [value.eq_def]
  simp only [heq, bind, Except.bind, pure, Except.pure, String.ofList_toList]
  exact ⟨_, rfl⟩

/-! ## Numbers -/

/-- A text that does not go on with a digit, a point or the mark of an exponent. -/
def EndsNumber (rest : List Char) : Prop :=
  ∀ c ∈ rest.head?, isDigit c = false ∧ c ≠ '.' ∧ c ≠ 'e' ∧ c ≠ 'E'

theorem endsNumber_cons {c : Char} (hc : isDigit c = false ∧ c ≠ '.' ∧ c ≠ 'e' ∧ c ≠ 'E')
    (s : List Char) : EndsNumber (c :: s) := by
  intro d hd
  obtain rfl := Option.some.inj hd
  exact hc

theorem ne_of_isDigit {c d : Char} (hd : isDigit d = true) (hc : isDigit c = false) : d ≠ c := by
  rintro rfl
  simp [hd] at hc

theorem isDigit_of_mem_toDigits {n : Nat} {c : Char} (h : c ∈ Nat.toDigits 10 n) :
    isDigit c = true := by
  have hdigit := Nat.isDigit_of_mem_toDigits (by decide) (by decide) h
  simpa [isDigit, Char.isDigit, Char.le_def] using hdigit

/-- The first digit of a number is no zero, unless the number is. -/
theorem head?_toDigits_ne_zero {n : Nat} (h : 0 < n) : (Nat.toDigits 10 n).head? ≠ some '0' := by
  induction n using Nat.strongRecOn with
  | ind n ih =>
    by_cases hn : n < 10
    · have hall : ∀ d < 10, 0 < d → Nat.digitChar d ≠ '0' := by decide
      simp [Nat.toDigits_of_lt_base hn, hall n hn h]
    · rw [Nat.toDigits_of_base_le (by decide) (by omega),
        List.head?_append_of_ne_nil _ Nat.toDigits_ne_nil]
      exact ih _ (by omega) (by omega)

/-- The text of a number is a digit with more behind it. -/
theorem exists_toDigits_eq_cons (n : Nat) :
    ∃ d ds, Nat.toDigits 10 n = d :: ds ∧ isDigit d = true := by
  obtain ⟨d, ds, hdigits⟩ := List.exists_cons_of_ne_nil (Nat.toDigits_ne_nil (n := n) (b := 10))
  exact ⟨d, ds, hdigits, isDigit_of_mem_toDigits (n := n) (by simp [hdigits])⟩

theorem toList_write_of_neg {n : Int} (h : n < 0) :
    (Integer.write n).toList = '-' :: Nat.toDigits 10 n.natAbs := by
  simp [Integer.write, h]

theorem toList_write_of_not_neg {n : Int} (h : ¬ n < 0) :
    (Integer.write n).toList = Nat.toDigits 10 n.natAbs := by
  simp [Integer.write, h]

theorem digitsValue_toDigits (n : Nat) : digitsValue (Nat.toDigits 10 n) = n :=
  Nat.ofDigitChars_toDigits (by decide) (by decide)

section
variable {rest : List Char} (hrest : EndsNumber rest)
include hrest

theorem takeWhile_isDigit {ds : List Char} (h : ∀ c ∈ ds, isDigit c = true) :
    (ds ++ rest).takeWhile isDigit = ds ∧ (ds ++ rest).dropWhile isDigit = rest := by
  rw [List.takeWhile_append_of_pos h, List.dropWhile_append_of_pos h]
  cases rest with
  | nil => simp
  | cons c rest => simp [(hrest c rfl).1]

theorem wholeDigits?_toDigits (n : Nat) :
    wholeDigits? (Nat.toDigits 10 n ++ rest) = some (Nat.toDigits 10 n, rest) := by
  obtain ⟨c, ds, hdigits⟩ := List.exists_cons_of_ne_nil (Nat.toDigits_ne_nil (n := n) (b := 10))
  have hall : ∀ d ∈ c :: ds, isDigit d = true := by
    rw [← hdigits]
    exact fun d hd => isDigit_of_mem_toDigits hd
  obtain ⟨hc, hds⟩ := List.forall_mem_cons.1 hall
  obtain ⟨htake, hdrop⟩ := takeWhile_isDigit hrest hds
  by_cases hzero : c = '0'
  · obtain rfl : n = 0 := by
      by_contra hn
      apply head?_toDigits_ne_zero (Nat.pos_of_ne_zero hn)
      rw [hdigits, hzero, List.head?_cons]
    rfl
  · rw [hdigits, List.cons_append, wholeDigits?, if_neg hzero, if_pos hc, htake, hdrop]

theorem fraction_eq_none : fraction rest = (none, rest) := by
  unfold fraction
  split
  · exact absurd rfl (hrest '.' rfl).2.1
  · rfl

theorem power_eq_none : power rest = (none, rest) := by
  unfold power
  split
  · obtain ⟨-, -, he, hE⟩ := hrest _ rfl
    rw [if_neg (by simp [he, hE])]
  · rfl

theorem numeral?_write (n : Int) :
    numeral? ((Integer.write n).toList ++ rest) =
      some (⟨decide (n < 0), Nat.toDigits 10 n.natAbs, none, none⟩, rest) := by
  have hwhole := wholeDigits?_toDigits hrest n.natAbs
  have hfraction := fraction_eq_none hrest
  have hpower := power_eq_none hrest
  by_cases hn : n < 0
  · rw [toList_write_of_neg hn]
    simp [numeral?, hn, hwhole, hfraction, hpower]
  · rw [toList_write_of_not_neg hn]
    have hsign : ∀ body, Nat.toDigits 10 n.natAbs ++ rest ≠ '-' :: body := by
      intro body heq
      rw [heq] at hwhole
      cases hwhole
    simp [numeral?, hn, hwhole, hfraction, hpower]

end

/-- The value of a number that has not too many digits. -/
theorem value_of_isWritable {n : Int} (h : Integer.isWritable n = true) :
    (⟨decide (n < 0), Nat.toDigits 10 n.natAbs, none, none⟩ : Numeral).value = .ok (.int n) := by
  rw [Integer.isWritable, decide_eq_true_iff] at h
  rw [Numeral.value]
  simp only [Nat.not_lt.2 h, if_false, digitsValue_toDigits, decide_eq_true_iff]
  congr 2
  split <;> omega

/-- A character that starts neither a string nor a container. -/
def StartsScalar (c : Char) : Prop := c ≠ '"' ∧ c ≠ '[' ∧ c ≠ '\x7b'

theorem value_eq_scalar {s : List Char} (h : ∀ c ∈ s.head?, StartsScalar c) :
    value s = scalar s := by
  rw [value.eq_def]
  split
  · exact absurd rfl (h '"' rfl).1
  · exact absurd rfl (h '[' rfl).2.1
  · exact absurd rfl (h '\x7b' rfl).2.2
  · rfl

theorem value_null (rest : List Char) : Gives (value ("null".toList ++ rest)) .null rest := by
  rw [value_eq_scalar (by simp [StartsScalar])]
  exact ⟨_, rfl⟩

theorem value_bool (b : Bool) (rest : List Char) :
    Gives (value (scalarText (.bool b) ++ rest)) (.bool b) rest := by
  cases b with
  | false =>
    rw [value_eq_scalar (by simp [StartsScalar, scalarText])]
    exact ⟨_, rfl⟩
  | true =>
    rw [value_eq_scalar (by simp [StartsScalar, scalarText])]
    exact ⟨_, rfl⟩

theorem constant?_eq_none {c : Char} {s : List Char}
    (h : ∀ k ∈ constants, k.first = c → after? k.others s = none) :
    constant? (c :: s) = none := by
  refine List.findSome?_eq_none_iff.2 fun k hk => ?_
  split
  · rename_i hfirst
    have hnone := h k hk hfirst
    split
    · rename_i hsome
      rw [hnone] at hsome
      cases hsome
    · rfl
  · rfl

/-- The text of a number is no word. -/
theorem constant?_write (n : Int) (rest : List Char) :
    constant? ((Integer.write n).toList ++ rest) = none := by
  obtain ⟨d, ds, hdigits, hd⟩ := exists_toDigits_eq_cons n.natAbs
  -- The one word with a sign goes on with a letter.
  have hword : ∀ k ∈ constants, k.first = '-' → after? k.others (d :: (ds ++ rest)) = none := by
    simp [constants, after?, (ne_of_isDigit hd (c := 'I') rfl).symm]
  have hfirst : ∀ k ∈ constants, isDigit k.first = false := by decide
  by_cases hn : n < 0
  · rw [toList_write_of_neg hn, hdigits]
    exact constant?_eq_none hword
  · rw [toList_write_of_not_neg hn, hdigits]
    exact constant?_eq_none fun k hk heq => absurd heq.symm (ne_of_isDigit hd (hfirst k hk))

theorem startsScalar_write (n : Int) (rest : List Char) :
    ∀ c ∈ ((Integer.write n).toList ++ rest).head?, StartsScalar c := by
  obtain ⟨d, ds, hdigits, hd⟩ := exists_toDigits_eq_cons n.natAbs
  by_cases hn : n < 0
  · simp [toList_write_of_neg hn, StartsScalar]
  · have hstarts : StartsScalar d :=
      ⟨ne_of_isDigit hd rfl, ne_of_isDigit hd rfl, ne_of_isDigit hd rfl⟩
    simpa [toList_write_of_not_neg hn, hdigits] using hstarts

theorem value_write {n : Int} (hn : Integer.isWritable n = true) {rest : List Char}
    (hrest : EndsNumber rest) :
    Gives (value ((Integer.write n).toList ++ rest)) (.int n) rest := by
  have hvalue := value_of_isWritable hn
  rw [value_eq_scalar (startsScalar_write n rest), scalar, constant?_write]
  dsimp only
  split
  · rename_i hnone
    rw [numeral?_write hrest] at hnone
    cases hnone
  · rename_i hsome
    rw [numeral?_write hrest] at hsome
    cases hsome
    simp only [hvalue, bind, Except.bind]
    exact ⟨_, rfl⟩

end RandomDerivation.Json
