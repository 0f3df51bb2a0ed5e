import Mathlib.Data.List.TakeWhile
import RandomDerivation.CommandLine.Request
import RandomDerivation.Proofs.Text.Integer

/-!
# Numbers among arguments

A negative number begins with a dash, as an option does. No option begins with a dash and a digit,
so that a text which begins like a negative number is never taken for one of them. A whole number
as it is written is sorted as a plain argument, and can be given as the value of an option; a text
that is read as a number need not be, for its underscores may keep it from looking like one.
-/

namespace RandomDerivation.CommandLine

/-- A dash and a row of digits, the first of which is `d`. -/
structure IsNegative (text : String) (d : Char) (ds : List Char) : Prop where
  toList_eq : text.toList = '-' :: d :: ds
  isDigit : ∀ c ∈ d :: ds, Json.isDigit c = true

/-- A dash and a digit of any script, `d`, with any characters behind them. -/
structure FrontDigit (text : String) (d : Char) (rest : List Char) : Prop where
  toList_eq : text.toList = '-' :: d :: rest
  isDigit : (Integer.digitValue? d).isSome = true

/-- No name of an option has a digit behind its first dash. -/
def NoDigits (options : List Opt) : Prop :=
  ∀ o ∈ options, ∀ name ∈ o.names,
    name.toList[1]?.any (fun c => (Integer.digitValue? c).isSome) = false

instance (options : List Opt) : Decidable (NoDigits options) :=
  inferInstanceAs (Decidable (∀ o ∈ options, ∀ name ∈ o.names,
    name.toList[1]?.any (fun c => (Integer.digitValue? c).isSome) = false))

/-- Whether the value of an option is sorted as a plain argument. -/
def isPlain (text : String) : Bool :=
  !startsWith "-" text || isNegativeNumber text || text.toList.contains ' '

/-- The value of an option, sorted. -/
def Token.ofValue (text : String) : Token := if isPlain text then .plain text else .unknown text

theorem noDigits_main : NoDigits mainLayout.options := by decide

theorem noDigits_generate : NoDigits generateLayout.options := by decide

/-- What does not start with a dash is no option. -/
theorem classifyOne_of_not_startsWith {options : List Opt} {text : String}
    (h : startsWith "-" text = false) : classifyOne options text = .ok (.plain text) := by
  rw [classifyOne, h]
  rfl

theorem takeWhile_ne_of_isDigit {cs : List Char} (h : ∀ c ∈ cs, Json.isDigit c = true) {c : Char}
    (hc : Json.isDigit c = false) : cs.takeWhile (· ≠ c) = cs := by
  rw [List.takeWhile_eq_self_iff]
  intro x hx
  exact decide_eq_true (Json.ne_of_isDigit (h x hx) hc)

theorem isDigits_of_isDigit {cs : List Char} (hne : cs ≠ [])
    (h : ∀ c ∈ cs, Json.isDigit c = true) : isDigits cs = true := by
  have hall : (cs.all fun c => (Integer.digitValue? c).isSome) = true := by
    rw [List.all_eq_true]
    intro c hc
    rw [Integer.digitValue?_of_isDigit (h c hc)]
    rfl
  have hempty : cs.isEmpty = false := by simpa using hne
  rw [isDigits, hall, hempty]
  rfl

/-- What has no digit value is no digit. -/
theorem ne_of_digitValue? {d c : Char} (hd : (Integer.digitValue? d).isSome = true)
    (hc : (Integer.digitValue? c).isSome = false) : d ≠ c := by
  rintro rfl
  rw [hd] at hc
  cases hc

namespace FrontDigit
variable {options : List Opt} {text : String} {d : Char} {rest : List Char}
  (h : FrontDigit text d rest)
include h

theorem startsWith_eq_true : startsWith "-" text = true := by
  rw [startsWith, List.isPrefixOf_iff_prefix, h.toList_eq]
  exact ⟨_, rfl⟩

theorem ne_of_startsWith_dashes {other : String} (hother : startsWith "--" other = true) :
    text ≠ other := by
  rintro rfl
  have hfirst : d ≠ '-' := ne_of_digitValue? h.isDigit rfl
  simp [startsWith, h.toList_eq, List.isPrefixOf, hfirst.symm] at hother

/-- What stands in front of an attached text still begins with the dash and the digit. -/
theorem exists_front : ∃ behind, (splitAtEquals text).1.toList = '-' :: d :: behind := by
  have hd : d ≠ '=' := ne_of_digitValue? h.isDigit rfl
  have hfront : text.toList.takeWhile (· ≠ '=') = '-' :: d :: rest.takeWhile (· ≠ '=') := by
    simp [h.toList_eq, hd]
  simp only [splitAtEquals]
  split
  · exact ⟨rest, h.toList_eq⟩
  · exact ⟨_, by rw [String.toList_ofList, hfront]⟩

section
variable (hoptions : NoDigits options) {o : Opt} (ho : o ∈ options) {name : String}
  (hname : name ∈ o.names)
include hoptions ho hname

/-- The name of an option does not begin with a dash and a digit. -/
theorem not_prefix_of_mem_names {behind : List Char} :
    ¬ '-' :: d :: behind <+: name.toList := by
  rintro ⟨later, heq⟩
  have hsecond : name.toList[1]? = some d := by rw [← heq]; rfl
  have hfree := hoptions o ho name hname
  rw [hsecond, Option.any_some, h.isDigit] at hfree
  cases hfree

theorem ne_of_mem_names {behind : List Char} : name.toList ≠ '-' :: d :: behind := by
  intro heq
  exact h.not_prefix_of_mem_names hoptions ho hname ⟨[], by rw [List.append_nil, heq]⟩

end

section
variable (hoptions : NoDigits options)
include hoptions

theorem findOption?_eq_none {name : String} {behind : List Char}
    (hname : name.toList = '-' :: d :: behind) : findOption? options name = none := by
  rw [findOption?, List.find?_eq_none]
  intro o ho hmem
  exact h.ne_of_mem_names hoptions ho (List.contains_iff_mem.1 hmem) hname

/-- What begins like a negative number is not taken for a shortened option or flags of one
letter. -/
theorem readings_eq_nil : readings options text = [] := by
  have hfirst : d ≠ '-' := ne_of_digitValue? h.isDigit rfl
  have hlong : startsWith "--" text = false := by
    simp [startsWith, h.toList_eq, List.isPrefixOf, hfirst.symm]
  simp only [readings, hlong, Bool.false_eq_true, if_false, List.filterMap_eq_nil_iff]
  rintro ⟨_, _⟩ hmem
  simp only [List.mem_flatMap, List.mem_map, Prod.mk.injEq] at hmem
  obtain ⟨o, ho, name, hname, rfl, rfl⟩ := hmem
  have hletter : name ≠ String.ofList (text.toList.take 2) := by
    intro heq
    have hlist := congrArg String.toList heq
    rw [String.toList_ofList, h.toList_eq] at hlist
    exact h.ne_of_mem_names hoptions ho hname hlist
  have hshort : ¬ startsWith text name = true := by
    rw [startsWith, List.isPrefixOf_iff_prefix, h.toList_eq]
    exact h.not_prefix_of_mem_names hoptions ho hname
  simp only [if_neg hletter, if_neg hshort]

/-- What begins like a negative number is sorted by whether it is one. -/
theorem classifyOne_eq : classifyOne options text = .ok (.ofValue text) := by
  have hne : text ≠ "-" := by
    rintro rfl
    cases h.toList_eq
  have hreadings : classifyOne.byReadings options text = .ok (.ofValue text) := by
    simp only [classifyOne.byReadings, h.readings_eq_nil hoptions, Token.ofValue, isPlain,
      h.startsWith_eq_true, Bool.not_true, Bool.false_or]
    split <;> rfl
  obtain ⟨_, hfront⟩ := h.exists_front
  have hnone := h.findOption?_eq_none hoptions hfront
  simp only [classifyOne, h.startsWith_eq_true, h.findOption?_eq_none hoptions h.toList_eq,
    if_neg hne, hreadings, Bool.not_true, Bool.false_eq_true, if_false]
  cases hsplit : splitAtEquals text with
  | mk front attached =>
    rw [hsplit] at hnone
    cases attached with
    | none => rfl
    | some _ => simp only [hnone]

end

end FrontDigit

namespace IsNegative
variable {text : String} {d : Char} {ds : List Char} (h : IsNegative text d ds)
include h

theorem frontDigit : FrontDigit text d ds := by
  refine ⟨h.toList_eq, ?_⟩
  rw [Integer.digitValue?_of_isDigit (h.isDigit d (by simp))]
  rfl

theorem isNegativeNumber_eq_true : isNegativeNumber text = true := by
  have hlast : (d :: ds).getLast? ≠ some '\n' := by
    intro hlast
    have hdigit := h.isDigit _ (List.mem_of_getLast? hlast)
    cases hdigit
  have hwhole : (d :: ds).takeWhile (· ≠ '.') = d :: ds := takeWhile_ne_of_isDigit h.isDigit rfl
  simp only [isNegativeNumber, h.toList_eq, if_neg hlast, hwhole, List.drop_length]
  exact isDigits_of_isDigit (by simp) h.isDigit

end IsNegative

/-- A whole number is written with a dash in front, or does not start with one. -/
theorem isNegative_or_not_startsWith_write (n : Int) :
    (∃ d ds, IsNegative (Integer.write n) d ds) ∨ startsWith "-" (Integer.write n) = false := by
  obtain ⟨d, ds, hcons, hd⟩ := Json.exists_toDigits_eq_cons n.natAbs
  by_cases hneg : n < 0
  · have htext := Json.toList_write_of_neg hneg
    rw [hcons] at htext
    exact .inl ⟨d, ds, htext, fun c hc => Json.isDigit_of_mem_toDigits (hcons ▸ hc)⟩
  · have hne : d ≠ '-' := Json.ne_of_isDigit hd rfl
    right
    simp [startsWith, Json.toList_write_of_not_neg hneg, hcons, List.isPrefixOf, hne.symm]

/-- A whole number as it is written is a plain argument, also when it is negative. -/
theorem isPlain_write (n : Int) : isPlain (Integer.write n) = true := by
  rw [isPlain]
  rcases isNegative_or_not_startsWith_write n with ⟨d, ds, hnegative⟩ | hdash
  · rw [hnegative.isNegativeNumber_eq_true, Bool.or_true, Bool.true_or]
  · rw [hdash]
    rfl

/-- The text does not start with a dash, or begins like a negative number. -/
def IsValue (text : String) : Prop :=
  startsWith "-" text = false ∨ ∃ d rest, FrontDigit text d rest

theorem IsValue.classifyOne_eq {options : List Opt} {text : String} (h : IsValue text)
    (hoptions : NoDigits options) : classifyOne options text = .ok (.ofValue text) := by
  rcases h with hdash | ⟨d, rest, hfront⟩
  · rw [classifyOne_of_not_startsWith hdash, Token.ofValue, isPlain, hdash]
    rfl
  · exact hfront.classifyOne_eq hoptions

theorem IsValue.ne_separator {text : String} (h : IsValue text) : text ≠ "--" := by
  rcases h with hdash | ⟨d, rest, hfront⟩
  · rintro rfl
    cases hdash
  · exact hfront.ne_of_startsWith_dashes rfl

theorem isValue_write (n : Int) : IsValue (Integer.write n) := by
  rcases isNegative_or_not_startsWith_write n with ⟨d, ds, hnegative⟩ | hdash
  · exact .inr ⟨d, ds, hnegative.frontDigit⟩
  · exact .inl hdash

/-- What is read as a number and starts with a dash has a digit behind it. -/
theorem frontDigit_of_read? {text : String} {n : Int} (hread : Integer.read? text = some n)
    (hdash : startsWith "-" text = true) : ∃ d rest, FrontDigit text d rest := by
  rw [startsWith, List.isPrefixOf_iff_prefix] at hdash
  obtain ⟨behind, htext⟩ := hdash
  obtain ⟨d, rest, rfl, hd⟩ := Integer.exists_digit_of_read? htext.symm hread
  exact ⟨d, rest, htext.symm, hd⟩

theorem isValue_of_read? {text : String} {n : Int} (h : Integer.read? text = some n) :
    IsValue text := by
  cases hdash : startsWith "-" text with
  | false => exact .inl hdash
  | true => exact .inr (frontDigit_of_read? h hdash)

end RandomDerivation.CommandLine
