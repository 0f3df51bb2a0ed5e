import RandomDerivation.Json.Basic
import RandomDerivation.Text.Integer

/-!
# Reading JSON

A reader over the list of characters that are left. Each step returns what is left behind it
together with a proof that this is shorter, so reading ends. A fault is located by how many
characters were left where it was found.

Beside standard JSON the reader accepts `NaN`, `Infinity` and `-Infinity`. A number without a
fraction and an exponent is a whole number of any size up to a limit on its digits; any other is
the nearest double.

## Main definitions

* `SyntaxCause`, `SyntaxFault`: what is wrong with a text, and where.
* `Json.read`: the value of a text.
-/

namespace RandomDerivation

/-- What is wrong with a text that is not JSON. -/
inductive SyntaxCause where
  | byteOrderMark
  | valueExpected
  | extraData
  | nameExpected
  | colonExpected
  | commaExpected
  | controlCharacter
  | unterminatedString
  | invalidEscape
  | invalidCodePoint
  deriving DecidableEq, Repr

/-- The wording of a cause. -/
def SyntaxCause.message : SyntaxCause → String
  | .byteOrderMark => "Unexpected UTF-8 BOM (decode using utf-8-sig)"
  | .valueExpected => "Expecting value"
  | .extraData => "Extra data"
  | .nameExpected => "Expecting property name enclosed in double quotes"
  | .colonExpected => "Expecting ':' delimiter"
  | .commaExpected => "Expecting ',' delimiter"
  | .controlCharacter => "Invalid control character at"
  | .unterminatedString => "Unterminated string starting at"
  | .invalidEscape => "Invalid \\escape"
  | .invalidCodePoint => "Invalid \\uXXXX escape"

/-- A cause at a place of a text: lines and columns count from one, characters from zero. -/
structure SyntaxFault where
  cause : SyntaxCause
  line : Nat
  column : Nat
  place : Nat
  deriving DecidableEq, Repr

/-- The wording of a fault. -/
def SyntaxFault.message (f : SyntaxFault) : String :=
  f.cause.message ++ ": line " ++ toString f.line ++ " column " ++ toString f.column ++
    " (char " ++ toString f.place ++ ")"

/-- The fault at the given place of a text. -/
def SyntaxFault.locate (text : List Char) (cause : SyntaxCause) (place : Nat) : SyntaxFault :=
  let before := text.take place
  { cause, place
    line := before.count '\n' + 1
    column := (before.reverse.takeWhile (· ≠ '\n')).length + 1 }

namespace Json

/-- Why reading stops early. -/
inductive Stop where
  /-- The text is wrong where `left` characters are left. -/
  | wrong (cause : SyntaxCause) (left : Nat)
  /-- A whole number has too many digits. -/
  | tooLong (digits : Nat)
  deriving DecidableEq, Repr

/-- A value read at the front of `s`, with the shorter rest of the text. -/
abbrev Step (α : Type) (s : List Char) :=
  Except Stop { r : α × List Char // r.2.length < s.length }

/-- The text is wrong at the front of `s`. -/
def wrong {α : Type} (cause : SyntaxCause) (s : List Char) : Except Stop α :=
  .error (.wrong cause s.length)

/-- A character that may stand between the parts of a document. -/
def isBlank (c : Char) : Bool := c = ' ' || c = '\t' || c = '\n' || c = '\r'

/-- Without the blanks in front. -/
def skip (s : List Char) : List Char := s.dropWhile isBlank

theorem length_skip_le (s : List Char) : (skip s).length ≤ s.length :=
  (List.dropWhile_suffix _).length_le

/-- The rest of `s` behind `word`, if `s` starts with it. -/
def after? : (word s : List Char) → Option (List Char)
  | [], s => some s
  | _ :: _, [] => none
  | w :: word, c :: s => if w = c then after? word s else none

theorem length_after?_le {word s rest : List Char} (h : after? word s = some rest) :
    rest.length ≤ s.length := by
  fun_induction after? word s with
  | case1 s => simp_all
  | case2 => simp at h
  | case3 w word s ih => exact Nat.le_succ_of_le (ih h)
  | case4 => simp at h

/-- A digit of a number. -/
def isDigit (c : Char) : Bool := '0' ≤ c && c ≤ '9'

/-- The number of a row of digits. -/
def digitsValue (digits : List Char) : Nat :=
  digits.foldl (fun n c => 10 * n + (c.toNat - '0'.toNat)) 0

/-! ## Numbers -/

/-- The parts of a number as it is written. -/
structure Numeral where
  negative : Bool
  whole : List Char
  /-- The digits behind a point. -/
  fraction : Option (List Char)
  /-- The sign and the digits behind an exponent mark. -/
  power : Option (Bool × List Char)

/-- A point with digits behind it, if that is what comes next. -/
def fraction (s : List Char) : Option (List Char) × List Char :=
  match s with
  | '.' :: rest =>
    if (rest.takeWhile isDigit).isEmpty then (none, s)
    else (some (rest.takeWhile isDigit), rest.dropWhile isDigit)
  | _ => (none, s)

/-- The sign of an exponent, plus when none is written. -/
def powerSign : List Char → Bool × List Char
  | '+' :: rest => (false, rest)
  | '-' :: rest => (true, rest)
  | s => (false, s)

/-- An exponent mark with digits behind it, if that is what comes next. -/
def power (s : List Char) : Option (Bool × List Char) × List Char :=
  match s with
  | c :: rest =>
    if c = 'e' ∨ c = 'E' then
      let signed := powerSign rest
      if (signed.2.takeWhile isDigit).isEmpty then (none, s)
      else (some (signed.1, signed.2.takeWhile isDigit), signed.2.dropWhile isDigit)
    else (none, s)
  | [] => (none, s)

/-- The digits in front of a point: a single zero, or digits that do not start with one. -/
def wholeDigits? : List Char → Option (List Char × List Char)
  | [] => none
  | c :: rest =>
    if c = '0' then some ([c], rest)
    else if isDigit c then some (c :: rest.takeWhile isDigit, rest.dropWhile isDigit)
    else none

/-- A number as it is written, if one comes next. -/
def numeral? (s : List Char) : Option (Numeral × List Char) :=
  let (negative, body) : Bool × List Char :=
    match s with
    | '-' :: rest => (true, rest)
    | _ => (false, s)
  (wholeDigits? body).map fun (whole, rest) =>
    let (fraction, rest) := fraction rest
    let (power, rest) := power rest
    ({ negative, whole, fraction, power }, rest)

theorem length_fraction_le (s : List Char) : (fraction s).2.length ≤ s.length := by
  unfold fraction
  split
  · split
    · simp
    · have := (List.dropWhile_suffix (l := ‹List Char›) isDigit).length_le
      simp only [List.length_cons]; omega
  · simp

theorem length_powerSign_le (s : List Char) : (powerSign s).2.length ≤ s.length := by
  unfold powerSign; split <;> simp

theorem length_power_le (s : List Char) : (power s).2.length ≤ s.length := by
  unfold power
  split
  · rename_i c rest
    split
    · dsimp only
      split
      · simp
      · have h := (List.dropWhile_suffix (l := (powerSign rest).2) isDigit).length_le
        have := length_powerSign_le rest
        simp only [List.length_cons]
        omega
    · simp
  · simp

theorem length_wholeDigits?_lt {s : List Char} {r : List Char × List Char}
    (h : wholeDigits? s = some r) : r.2.length < s.length := by
  unfold wholeDigits? at h
  split at h
  · simp at h
  · rename_i c rest
    have := (List.dropWhile_suffix (l := rest) isDigit).length_le
    split at h
    · simp only [Option.some.injEq] at h; subst h; simp
    · split at h
      · simp only [Option.some.injEq] at h; subst h; simp only [List.length_cons]; omega
      · simp at h

theorem length_numeral?_lt {s : List Char} {r : Numeral × List Char}
    (h : numeral? s = some r) : r.2.length < s.length := by
  unfold numeral? at h
  obtain ⟨⟨whole, rest⟩, hw, rfl⟩ := Option.map_eq_some_iff.1 h
  have h1 := length_wholeDigits?_lt hw
  have h2 := length_fraction_le rest
  have h3 := length_power_le (fraction rest).2
  split at h1
  · simp only [List.length_cons] at h1 ⊢
    omega
  · simp only at h1 ⊢
    omega

/-- The value of a number: whole if it has neither fraction nor exponent. -/
def Numeral.value (n : Numeral) : Except Stop Json :=
  match n.fraction, n.power with
  | none, none =>
    if Integer.maxDigits < n.whole.length then .error (.tooLong n.whole.length)
    else
      let k : Int := digitsValue n.whole
      .ok (.int (if n.negative then -k else k))
  | fraction, power =>
    let behind := fraction.getD []
    let (down, digits) := power.getD (false, [])
    let e : Int := digitsValue digits
    .ok (.float (Decimal.ofDecimal n.negative (digitsValue (n.whole ++ behind))
      ((if down then -e else e) - behind.length)))

/-! ## Strings -/

/-- The character that a backslash and a letter stand for. -/
def unescape? : Char → Option Char
  | '"' => some '"'
  | '\\' => some '\\'
  | '/' => some '/'
  | 'b' => some '\x08'
  | 'f' => some '\x0c'
  | 'n' => some '\n'
  | 'r' => some '\r'
  | 't' => some '\t'
  | _ => none

/-- The value of a hexadecimal digit. -/
def hexValue? (c : Char) : Option Nat :=
  if '0' ≤ c && c ≤ '9' then some (c.toNat - '0'.toNat)
  else if 'a' ≤ c && c ≤ 'f' then some (c.toNat - 'a'.toNat + 10)
  else if 'A' ≤ c && c ≤ 'F' then some (c.toNat - 'A'.toNat + 10)
  else none

/-- The code unit of the four hexadecimal digits in front, which may not end the text. -/
def codeUnit? : List Char → Option (Nat × List Char)
  | a :: b :: c :: d :: rest =>
    if rest.isEmpty then none
    else do
      let a ← hexValue? a
      let b ← hexValue? b
      let c ← hexValue? c
      let d ← hexValue? d
      return (((a * 16 + b) * 16 + c) * 16 + d, rest)
  | _ => none

theorem length_codeUnit?_lt {s : List Char} {r : Nat × List Char} (h : codeUnit? s = some r) :
    r.2.length < s.length := by
  unfold codeUnit? at h
  split at h
  · split at h
    · simp at h
    · simp only [Option.bind_eq_bind, Option.bind_eq_some_iff, Option.pure_def,
        Option.some.injEq] at h
      obtain ⟨_, _, _, _, _, _, _, _, rfl⟩ := h
      simp only [List.length_cons]; omega
  · simp at h

/-- The first of the two code units of a character beyond the first plane. -/
def isHigh (unit : Nat) : Bool := 0xD800 ≤ unit && unit < 0xDC00

/-- The second of the two code units of a character beyond the first plane. -/
def isLow (unit : Nat) : Bool := 0xDC00 ≤ unit && unit < 0xE000

/-- What a lone half of a pair of code units is read as. -/
def replacement : Char := '\uFFFD'

/-- The character of a code unit outside pairs. -/
def ofUnit (unit : Nat) : Char := if isHigh unit || isLow unit then replacement else Char.ofNat unit

/-- The character behind `\u`, with the rest of the text. A first half joins a second half that
follows it as an escape of its own; digits of that escape that are wrong are a fault there. -/
def codePoint (s : List Char) : Step Char ('u' :: s) :=
  match h : codeUnit? s with
  | none => wrong .invalidCodePoint ('u' :: s)
  | some (unit, rest) =>
    have h1 : rest.length < s.length := length_codeUnit?_lt h
    let alone : Step Char ('u' :: s) := .ok ⟨(ofUnit unit, rest), Nat.lt_succ_of_lt h1⟩
    if isHigh unit then
      match rest with
      | '\\' :: 'u' :: more =>
        if !(more.drop 4).isEmpty then
          match h' : codeUnit? more with
          | none => wrong .invalidCodePoint ('u' :: more)
          | some (second, rest') =>
            have h2 : rest'.length < more.length := length_codeUnit?_lt h'
            if isLow second then
              .ok ⟨(Char.ofNat (0x10000 + (unit - 0xD800) * 0x400 + (second - 0xDC00)), rest'), by
                simp only [List.length_cons] at h1 ⊢; omega⟩
            else alone
        else alone
      | _ => alone
    else alone

/-- The characters of a string up to its closing quote; `opening` is the text from its opening
quote on. -/
def stringBody (opening : List Char) (s : List Char) : Step (List Char) s :=
  match s with
  | [] => wrong .unterminatedString opening
  | c :: rest =>
    if c = '"' then .ok ⟨([], rest), Nat.lt_succ_self _⟩
    else if c = '\\' then
      match rest with
      | [] => wrong .unterminatedString opening
      | 'u' :: more => do
        let ⟨(c, rest), h⟩ ← codePoint more
        have : rest.length < more.length + 1 := h
        let ⟨(cs, rest), h'⟩ ← stringBody opening rest
        return ⟨(c :: cs, rest), by simp only [List.length_cons] at h' ⊢; omega⟩
      | letter :: more =>
        match unescape? letter with
        | none => wrong .invalidEscape (c :: rest)
        | some c => do
          let ⟨(cs, rest), h'⟩ ← stringBody opening more
          return ⟨(c :: cs, rest), by simp only [List.length_cons] at h' ⊢; omega⟩
    else if c.toNat < 0x20 then wrong .controlCharacter (c :: rest)
    else do
      let ⟨(cs, rest), h'⟩ ← stringBody opening rest
      return ⟨(c :: cs, rest), by simp only [List.length_cons] at h' ⊢; omega⟩
termination_by s.length
decreasing_by all_goals (simp only [List.length_cons] at *; omega)

/-! ## Values -/

/-- A word that stands for a value. -/
structure Constant where
  first : Char
  others : List Char
  value : Json

/-- The words that stand for values. -/
def constants : List Constant :=
  [⟨'n', ['u', 'l', 'l'], .null⟩, ⟨'t', ['r', 'u', 'e'], .bool true⟩,
    ⟨'f', ['a', 'l', 's', 'e'], .bool false⟩,
    ⟨'N', ['a', 'N'],
      .float (Decimal.ofMagnitude false (Decimal.infinityBits + 0x8000000000000))⟩,
    ⟨'I', "nfinity".toList, .float (Decimal.ofMagnitude false Decimal.infinityBits)⟩,
    ⟨'-', "Infinity".toList, .float (Decimal.ofMagnitude true Decimal.infinityBits)⟩]

/-- The value of the word at the front of `s`. -/
def constant? (s : List Char) : Option { r : Json × List Char // r.2.length < s.length } :=
  match s with
  | [] => none
  | c :: body =>
    constants.findSome? fun k =>
      if k.first = c then
        match h : after? k.others body with
        | some rest => some ⟨(k.value, rest), Nat.lt_succ_of_le (length_after?_le h)⟩
        | none => none
      else none

/-- A constant or a number. -/
def scalar (s : List Char) : Step Json s :=
  match constant? s with
  | some r => .ok r
  | none =>
    match h : numeral? s with
    | none => wrong .valueExpected s
    | some (n, rest) => do
      let v ← n.value
      return ⟨(v, rest), length_numeral?_lt h⟩

mutual

/-- The value at the front of `s`. -/
def value (s : List Char) : Step Json s :=
  match s with
  | '"' :: rest => do
    let ⟨(cs, rest), h⟩ ← stringBody ('"' :: rest) rest
    return ⟨(.str (String.ofList cs), rest), by simp only [List.length_cons] at h ⊢; omega⟩
  | '[' :: rest =>
    have h0 := length_skip_le rest
    match hs : skip rest with
    | ']' :: more => .ok ⟨(.arr [], more), by simp [hs] at h0 ⊢; omega⟩
    | _ => do
      let ⟨(xs, rest'), h⟩ ← items (skip rest)
      return ⟨(.arr xs, rest'), by simp only [List.length_cons] at h ⊢; omega⟩
  | '\x7b' :: rest =>
    have h0 := length_skip_le rest
    match hs : skip rest with
    | '\x7d' :: more => .ok ⟨(.obj [], more), by simp [hs] at h0 ⊢; omega⟩
    | _ => do
      let ⟨(ms, rest'), h⟩ ← members (skip rest)
      return ⟨(ofMembers ms, rest'), by simp only [List.length_cons] at h ⊢; omega⟩
  | s => scalar s
termination_by 2 * s.length
decreasing_by all_goals (simp only [List.length_cons] at *; omega)

/-- The items of an array from one of them up to the closing bracket. -/
def items (s : List Char) : Step (List Json) s := do
  let ⟨(x, rest), h⟩ ← value s
  have h0 := length_skip_le rest
  match hs : skip rest with
  | ']' :: more => return ⟨([x], more), by simp [hs] at h h0 ⊢; omega⟩
  | ',' :: more =>
    have h1 := length_skip_le more
    have h2 : more.length < s.length := by simp [hs] at h h0 ⊢; omega
    let ⟨(xs, rest), h'⟩ ← items (skip more)
    return ⟨(x :: xs, rest), by simp only at h' ⊢; omega⟩
  | other => wrong .commaExpected other
termination_by 2 * s.length + 1
decreasing_by all_goals omega

/-- The members of an object from one of them up to the closing brace. -/
def members (s : List Char) : Step (List (String × Json)) s :=
  match s with
  | '"' :: rest => do
    let ⟨(name, rest1), h1⟩ ← stringBody ('"' :: rest) rest
    have h0 := length_skip_le rest1
    match hs : skip rest1 with
    | ':' :: more =>
      have h2 := length_skip_le more
      have h3 : more.length < rest.length := by simp [hs] at h0 h1 ⊢; omega
      let ⟨(x, rest2), h4⟩ ← value (skip more)
      have h5 := length_skip_le rest2
      match hs' : skip rest2 with
      | '\x7d' :: more' =>
        return ⟨([(String.ofList name, x)], more'), by simp [hs'] at h4 h5 ⊢; omega⟩
      | ',' :: more' =>
        have h6 := length_skip_le more'
        have h7 : more'.length < rest.length := by simp [hs'] at h4 h5 ⊢; omega
        let ⟨(ms, rest3), h8⟩ ← members (skip more')
        return ⟨((String.ofList name, x) :: ms, rest3), by
          simp only [List.length_cons] at h8 ⊢; omega⟩
      | other => wrong .commaExpected other
    | other => wrong .colonExpected other
  | other => wrong .nameExpected other
termination_by 2 * s.length + 1
decreasing_by all_goals (simp only [List.length_cons] at *; omega)

end

/-! ## Documents -/

/-- The value of a whole document, blanks around it aside. -/
def document (text : List Char) : Except Stop Json :=
  match text with
  | '\uFEFF' :: _ => wrong .byteOrderMark text
  | _ => do
    let ⟨(v, rest), _⟩ ← value (skip text)
    match skip rest with
    | [] => return v
    | other => wrong .extraData other

/-- Why a text has no value: it is not JSON, or a whole number of it has too many digits. -/
inductive ReadFault where
  | malformed (fault : SyntaxFault)
  | tooLong (digits : Nat)
  deriving DecidableEq, Repr

/-- The value of a text. -/
def read (text : List Char) : Except ReadFault Json :=
  match document text with
  | .ok v => .ok v
  | .error (.wrong cause left) => .error (.malformed (.locate text cause (text.length - left)))
  | .error (.tooLong digits) => .error (.tooLong digits)

end Json

end RandomDerivation
