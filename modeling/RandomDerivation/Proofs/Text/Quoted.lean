import Mathlib.Algebra.Ring.Nat
import RandomDerivation.Text.Quoted

/-!
# Quoted text is read back

A quoted text shows which string it was written for, and where it ends, whatever stands behind it.
The first character shows the kind of the quotes. Then every character of the string can be told
from what is written for it: behind a backslash stands the character itself, a letter for it, or a
letter that tells how many hexadecimal digits there are. The closing quote is none of these, as
inside of the text it has a backslash.
-/

namespace RandomDerivation

/-- A text has no control characters in front of the space. -/
def IsLine (s : List Char) : Prop := ∀ c ∈ s, 32 ≤ c.toNat

instance : DecidablePred IsLine := fun s => List.decidableBAll (fun c => 32 ≤ Char.toNat c) s

namespace IsLine
variable {c : Char} {s t : List Char}

theorem nil : IsLine [] := fun _ hc => nomatch hc

theorem cons (hc : 32 ≤ c.toNat) (hs : IsLine s) : IsLine (c :: s) :=
  List.forall_mem_cons.2 ⟨hc, hs⟩

theorem append (hs : IsLine s) (ht : IsLine t) : IsLine (s ++ t) :=
  List.forall_mem_append.2 ⟨hs, ht⟩

theorem newline_not_mem (h : IsLine s) : '\n' ∉ s := fun hmem => absurd (h _ hmem) (by decide)

end IsLine

namespace Quoted

/-- The value of a hexadecimal digit. -/
def hexDigit (c : Char) : Nat :=
  if c ≤ '9' then c.toNat - '0'.toNat else c.toNat - 'a'.toNat + 10

/-- The number that hexadecimal digits denote. -/
def hexNumber (digits : List Char) : Nat := digits.foldl (fun n c => 16 * n + hexDigit c) 0

theorem hexDigit_digitChar : ∀ d < 16, hexDigit (Nat.digitChar d) = d := by decide

theorem le_digitChar : ∀ d < 16, 32 ≤ (Nat.digitChar d).toNat := by decide

theorem hexNumber_toDigits (n : Nat) : hexNumber (Nat.toDigits 16 n) = n := by
  induction n using Nat.strongRecOn with
  | ind n ih =>
    by_cases hn : n < 16
    · simp [Nat.toDigits_of_lt_base hn, hexNumber, hexDigit_digitChar n hn]
    · have hlast : n % 16 < 16 := by omega
      have hfront : hexNumber (Nat.toDigits 16 (n / 16)) = n / 16 := ih _ (by omega)
      rw [hexNumber] at hfront
      rw [Nat.toDigits_of_base_le (by decide) (by omega), hexNumber, List.foldl_append, hfront]
      simp only [List.foldl_cons, List.foldl_nil, hexDigit_digitChar _ hlast]
      omega

theorem hexNumber_hex (width n : Nat) : hexNumber (hex width n) = n := by
  have hzeros : ∀ k, (List.replicate k '0').foldl (fun n c => 16 * n + hexDigit c) 0 = 0 := by
    intro k
    induction k with
    | zero => rfl
    | succ k ih => simpa [List.replicate_succ, hexDigit] using ih
  have hdigits := hexNumber_toDigits n
  rw [hexNumber] at hdigits
  rw [hex, hexNumber, List.foldl_append, hzeros, hdigits]

theorem length_hex {width n : Nat} (hwidth : 0 < width) (hn : n < 16 ^ width) :
    (hex width n).length = width := by
  have hle := (Nat.length_toDigits_le_iff (by decide) hwidth).2 hn
  simp only [hex, List.length_append, List.length_replicate]
  omega

theorem isLine_toDigits (n : Nat) : IsLine (Nat.toDigits 16 n) := by
  induction n using Nat.strongRecOn with
  | ind n ih =>
    by_cases hn : n < 16
    · rw [Nat.toDigits_of_lt_base hn]
      exact .cons (le_digitChar n hn) .nil
    · have hlast : n % 16 < 16 := by omega
      rw [Nat.toDigits_of_base_le (by decide) (by omega)]
      exact (ih _ (by omega)).append (.cons (le_digitChar _ hlast) .nil)

theorem isLine_hex (width n : Nat) : IsLine (hex width n) := by
  have hzeros : IsLine (List.replicate (width - (Nat.toDigits 16 n).length) '0') := by
    intro c hc
    rw [List.eq_of_mem_replicate hc]
    decide
  exact hzeros.append (isLine_toDigits n)

/-- The character that so many hexadecimal digits stand for, and what stands behind them. -/
def coded (width : Nat) (s : List Char) : Char × List Char :=
  (Char.ofNat (hexNumber (s.take width)), s.drop width)

/-- The character that is written first between quotes, and what stands behind it. -/
def next? : List Char → Option (Char × List Char)
  | [] => none
  | '\\' :: 'n' :: rest => some ('\n', rest)
  | '\\' :: 'r' :: rest => some ('\r', rest)
  | '\\' :: 't' :: rest => some ('\t', rest)
  | '\\' :: 'x' :: rest => some (coded 2 rest)
  | '\\' :: 'u' :: rest => some (coded 4 rest)
  | '\\' :: 'U' :: rest => some (coded 8 rest)
  | '\\' :: c :: rest => some (c, rest)
  | c :: rest => some (c, rest)

/-- The two kinds of quotes. -/
def IsMark (mark : Char) : Prop := mark = '\'' ∨ mark = '"'

theorem isMark_markOf (s : List Char) : IsMark (markOf s) := by
  unfold markOf
  split
  · exact .inr rfl
  · exact .inl rfl

theorem IsMark.le_toNat {mark : Char} (h : IsMark mark) : 32 ≤ mark.toNat := by
  obtain rfl | rfl := h <;> decide

theorem coded_hex {c : Char} {width : Nat} (hwidth : 0 < width) (hc : c.toNat < 16 ^ width)
    (rest : List Char) : coded width (hex width c.toNat ++ rest) = (c, rest) := by
  have hlength := length_hex hwidth hc
  rw [coded, List.take_left' hlength, List.drop_left' hlength, hexNumber_hex, Char.ofNat_toNat]

theorem next?_plain {c : Char} (hc : c ≠ '\\') (rest : List Char) :
    next? (c :: rest) = some (c, rest) := by
  unfold next?
  split <;> simp_all

theorem next?_escapeCode (c : Char) (rest : List Char) :
    next? (escapeCode c ++ rest) = some (c, rest) := by
  have hbound : c.toNat < 16 ^ 8 := UInt32.toNat_lt c.val
  unfold escapeCode
  dsimp only
  split
  · rename_i hlt
    exact congrArg some (coded_hex (by decide) hlt rest)
  · split
    · rename_i hlt
      exact congrArg some (coded_hex (by decide) hlt rest)
    · exact congrArg some (coded_hex (by decide) hbound rest)

/-- What is written for a character is read as this character. -/
theorem next?_escape {mark : Char} (hmark : IsMark mark) (c : Char) (rest : List Char) :
    next? (escape mark c ++ rest) = some (c, rest) := by
  fun_cases escape mark c with
  | case1 hback =>
    obtain rfl | rfl := hback
    · obtain rfl | rfl := hmark <;> rfl
    · rfl
  | case2 _ hc => rw [hc]; rfl
  | case3 _ _ hc => rw [hc]; rfl
  | case4 _ _ _ hc => rw [hc]; rfl
  | case5 hback => exact next?_plain (fun heq => hback (.inr heq)) rest
  | case6 => exact next?_escapeCode c rest

/-- The characters between quotes end at the closing quote. -/
theorem flatMap_escape_inj {mark : Char} (hmark : IsMark mark) {s t x y : List Char}
    (h : s.flatMap (escape mark) ++ mark :: x = t.flatMap (escape mark) ++ mark :: y) :
    s = t ∧ x = y := by
  have hend (r : List Char) : next? (mark :: r) = some (mark, r) := by
    obtain rfl | rfl := hmark <;> rfl
  -- The mark itself is never written without a backslash.
  have hnever {c : Char} {r z : List Char} : mark :: r ≠ escape mark c ++ z := by
    intro heq
    have hread := hend r
    rw [heq, next?_escape hmark] at hread
    obtain ⟨rfl, -⟩ := Prod.mk.inj (Option.some.inj hread)
    rw [escape, if_pos (.inl rfl)] at heq
    obtain rfl | rfl := hmark <;> cases heq
  induction s generalizing t with
  | nil =>
    cases t with
    | nil => exact ⟨rfl, (List.cons.inj h).2⟩
    | cons d t =>
      rw [List.flatMap_cons, List.append_assoc] at h
      exact absurd h hnever
  | cons c s ih =>
    cases t with
    | nil =>
      rw [List.flatMap_cons, List.append_assoc] at h
      exact absurd h.symm hnever
    | cons d t =>
      rw [List.flatMap_cons, List.flatMap_cons, List.append_assoc, List.append_assoc] at h
      have hread := congrArg next? h
      rw [next?_escape hmark, next?_escape hmark] at hread
      obtain ⟨rfl, hrest⟩ := Prod.mk.inj (Option.some.inj hread)
      obtain ⟨rfl, rfl⟩ := ih hrest
      exact ⟨rfl, rfl⟩

theorem quoteChars_append (s x : List Char) :
    quoteChars s ++ x = markOf s :: (s.flatMap (escape (markOf s)) ++ markOf s :: x) := by
  simp [quoteChars]

/-- A quoted text shows its string and its end. -/
theorem quoteChars_append_inj {s t x y : List Char} (h : quoteChars s ++ x = quoteChars t ++ y) :
    s = t ∧ x = y := by
  rw [quoteChars_append, quoteChars_append] at h
  obtain ⟨hmark, hbody⟩ := List.cons.inj h
  rw [← hmark] at hbody
  exact flatMap_escape_inj (isMark_markOf s) hbody

theorem isLine_escapeCode (c : Char) : IsLine (escapeCode c) := by
  have hcode {letter : Char} (hletter : 32 ≤ letter.toNat) (width : Nat) :
      IsLine ('\\' :: letter :: hex width c.toNat) :=
    .cons (by decide) (.cons hletter (isLine_hex width _))
  unfold escapeCode
  dsimp only
  split
  · exact hcode (by decide) 2
  · split
    · exact hcode (by decide) 4
    · exact hcode (by decide) 8

theorem isLine_escape {mark : Char} (hmark : IsMark mark) (c : Char) :
    IsLine (escape mark c) := by
  have hletter {letter : Char} (hletter : 32 ≤ letter.toNat) : IsLine ['\\', letter] :=
    .cons (by decide) (.cons hletter .nil)
  fun_cases escape mark c with
  | case1 hback =>
    obtain rfl | rfl := hback
    · exact hletter hmark.le_toNat
    · exact hletter (by decide)
  | case2 => exact hletter (by decide)
  | case3 => exact hletter (by decide)
  | case4 => exact hletter (by decide)
  | case5 _ _ _ _ hprintable =>
    have hc : 32 ≤ c.toNat := Nat.le_of_not_lt fun hcontrol => by
      rw [Printable.not_isPrintable_of_control hcontrol] at hprintable
      cases hprintable
    exact .cons hc .nil
  | case6 => exact isLine_escapeCode c

/-- A quoted text has no control characters. -/
theorem isLine_quoteChars (s : List Char) : IsLine (quoteChars s) := by
  have hmark := isMark_markOf s
  have hbody : IsLine (s.flatMap (escape (markOf s))) := by
    intro c hc
    obtain ⟨d, -, hd⟩ := List.mem_flatMap.1 hc
    exact isLine_escape hmark d c hd
  exact .cons hmark.le_toNat (hbody.append (.cons hmark.le_toNat .nil))

end Quoted

end RandomDerivation
