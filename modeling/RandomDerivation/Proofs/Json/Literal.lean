import RandomDerivation.Json.Literal
import RandomDerivation.Proofs.Json.RoundTrip
import RandomDerivation.Proofs.Text.Quoted

/-!
# What the short form of a value tells

Two values are equal if their short forms are, even when something stands behind these that does
not go on with a number; so the short form also tells where it ends. The first character tells
what kind of value it is. The items of an array and the members of an object are told apart one
by one, each from what stands behind it. Doubles are left out.

A short form is on one line: it has no control characters.
-/

namespace RandomDerivation.Json

/-- The kinds of values that their first characters tell apart. -/
inductive Shape where
  | null
  | bool (b : Bool)
  | number
  | string
  | array
  | object

/-- What kind of value it is. -/
def shape : Json → Shape
  | .null => .null
  | .bool b => .bool b
  | .int _ => .number
  | .float _ => .number
  | .str _ => .string
  | .arr _ => .array
  | .obj _ => .object

/-- What kind of value starts with a character. -/
def shapeOf? (c : Char) : Option Shape :=
  if isDigit c ∨ c = '-' then some .number
  else
    match c with
    | 'N' => some .null
    | 'T' => some (.bool true)
    | 'F' => some (.bool false)
    | '\'' => some .string
    | '"' => some .string
    | '[' => some .array
    | '\x7b' => some .object
    | _ => none

theorem shapeOf?_write (n : Int) :
    ∃ c body, (Integer.write n).toList = c :: body ∧ shapeOf? c = some .number := by
  obtain ⟨d, ds, hdigits, hd⟩ := exists_toDigits_eq_cons n.natAbs
  by_cases hn : n < 0
  · exact ⟨'-', _, toList_write_of_neg hn, rfl⟩
  · exact ⟨d, ds, by rw [toList_write_of_not_neg hn, hdigits], by simp [shapeOf?, hd]⟩

theorem shapeOf?_markOf (s : List Char) : shapeOf? (Quoted.markOf s) = some .string := by
  obtain hmark | hmark := Quoted.isMark_markOf s <;> rw [hmark] <;> rfl

/-- The first character of a short form tells what kind of value it is. -/
theorem exists_literalChars_eq_cons {v : Json} (h : v.isFloatFree = true) :
    ∃ c body, literalChars v = c :: body ∧ shapeOf? c = some v.shape := by
  match v with
  | .null => exact ⟨_, _, rfl, rfl⟩
  | .bool true => exact ⟨_, _, rfl, rfl⟩
  | .bool false => exact ⟨_, _, rfl, rfl⟩
  | .int n => exact shapeOf?_write n
  | .float x => cases h
  | .str s => exact ⟨_, _, rfl, shapeOf?_markOf s.toList⟩
  | .arr [] => exact ⟨_, _, rfl, rfl⟩
  | .arr (v :: vs) => exact ⟨_, _, rfl, rfl⟩
  | .obj [] => exact ⟨_, _, rfl, rfl⟩
  | .obj ((name, v) :: ms) => exact ⟨_, _, rfl, rfl⟩

theorem shape_eq {v w : Json} (hv : v.isFloatFree = true) (hw : w.isFloatFree = true)
    {x y : List Char} (h : literalChars v ++ x = literalChars w ++ y) : v.shape = w.shape := by
  obtain ⟨c, body, hc, hcv⟩ := exists_literalChars_eq_cons hv
  obtain ⟨d, body', hd, hdw⟩ := exists_literalChars_eq_cons hw
  rw [hc, hd, List.cons_append, List.cons_append] at h
  rw [(List.cons.inj h).1, hdw] at hcv
  exact (Option.some.inj hcv).symm

/-- No value starts with a closing bracket. -/
theorem literalChars_append_ne {v : Json} (hv : v.isFloatFree = true) (x y : List Char) :
    literalChars v ++ x ≠ ']' :: y := by
  obtain ⟨c, body, hc, hcv⟩ := exists_literalChars_eq_cons hv
  rw [hc, List.cons_append]
  intro h
  rw [(List.cons.inj h).1] at hcv
  cases hcv

/-- No string starts with a closing brace. -/
theorem quoteChars_append_ne (s x y : List Char) : Quoted.quoteChars s ++ x ≠ '\x7d' :: y := by
  intro h
  have hmark := shapeOf?_markOf s
  rw [Quoted.quoteChars_append, List.cons.injEq] at h
  rw [h.1] at hmark
  cases hmark

/-! ## Values -/

theorem write_append_inj {n m : Int} {x y : List Char} (hx : EndsNumber x) (hy : EndsNumber y)
    (h : (Integer.write n).toList ++ x = (Integer.write m).toList ++ y) : n = m ∧ x = y := by
  have hread := congrArg numeral? h
  rw [numeral?_write hx, numeral?_write hy, Option.some.injEq, Prod.mk.injEq,
    Numeral.mk.injEq] at hread
  obtain ⟨⟨hsign, hdigits, -⟩, hrest⟩ := hread
  have habs : n.natAbs = m.natAbs := by
    rw [← digitsValue_toDigits n.natAbs, hdigits, digitsValue_toDigits]
  have hneg : n < 0 ↔ m < 0 := decide_eq_decide.1 hsign
  exact ⟨by omega, hrest⟩

/-- The short form of a value tells the value, and where it ends. -/
def Tells (v : Json) : Prop :=
  ∀ (w : Json) (x y : List Char), v.isFloatFree = true → w.isFloatFree = true → EndsNumber x →
    EndsNumber y → literalChars v ++ x = literalChars w ++ y → v = w ∧ x = y

theorem literalItems_cons_append (v : Json) (vs : List Json) (s : List Char) :
    literalItems (v :: vs) ++ s = ',' :: ' ' :: (literalChars v ++ (literalItems vs ++ s)) := by
  simp [literalItems]

theorem literalMembers_cons_append (name : String) (v : Json) (ms : List (String × Json))
    (s : List Char) :
    literalMembers ((name, v) :: ms) ++ s =
      ',' :: ' ' :: (Quoted.quoteChars name.toList ++
        ':' :: ' ' :: (literalChars v ++ (literalMembers ms ++ s))) := by
  simp [literalMembers]

theorem literalChars_arr_append (v : Json) (vs : List Json) (s : List Char) :
    literalChars (.arr (v :: vs)) ++ s =
      '[' :: (literalChars v ++ (literalItems vs ++ ']' :: s)) := by
  simp [literalChars]

theorem literalChars_obj_append (name : String) (v : Json) (ms : List (String × Json))
    (s : List Char) :
    literalChars (.obj ((name, v) :: ms)) ++ s =
      '\x7b' :: (Quoted.quoteChars name.toList ++
        ':' :: ' ' :: (literalChars v ++ (literalMembers ms ++ '\x7d' :: s))) := by
  simp [literalChars]

theorem endsNumber_literalItems (vs : List Json) (s : List Char) :
    EndsNumber (literalItems vs ++ ']' :: s) := by
  cases vs with
  | nil => exact endsNumber_cons (by decide) _
  | cons v vs =>
    rw [literalItems_cons_append]
    exact endsNumber_cons (by decide) _

theorem endsNumber_literalMembers (ms : List (String × Json)) (s : List Char) :
    EndsNumber (literalMembers ms ++ '\x7d' :: s) := by
  cases ms with
  | nil => exact endsNumber_cons (by decide) _
  | cons e ms =>
    rw [literalMembers_cons_append]
    exact endsNumber_cons (by decide) _

/-- The items of an array are told one by one, up to the bracket. -/
theorem literalItems_append_inj {vs ws : List Json} (htells : ∀ v ∈ vs, Tells v)
    (hvs : ∀ v ∈ vs, v.isFloatFree = true) (hws : ∀ w ∈ ws, w.isFloatFree = true)
    {x y : List Char} (h : literalItems vs ++ ']' :: x = literalItems ws ++ ']' :: y) :
    vs = ws ∧ x = y := by
  induction vs generalizing ws with
  | nil =>
    cases ws with
    | nil => exact ⟨rfl, (List.cons.inj h).2⟩
    | cons w ws => simp [literalItems] at h
  | cons v vs ih =>
    cases ws with
    | nil => simp [literalItems] at h
    | cons w ws =>
      obtain ⟨hv, hvs'⟩ := List.forall_mem_cons.1 hvs
      obtain ⟨hw, hws'⟩ := List.forall_mem_cons.1 hws
      obtain ⟨htell, htells'⟩ := List.forall_mem_cons.1 htells
      rw [literalItems_cons_append, literalItems_cons_append, List.cons_inj_right,
        List.cons_inj_right] at h
      obtain ⟨rfl, hrest⟩ := htell w _ _ hv hw (endsNumber_literalItems vs x)
        (endsNumber_literalItems ws y) h
      obtain ⟨rfl, rfl⟩ := ih htells' hvs' hws' hrest
      exact ⟨rfl, rfl⟩

/-- The members of an object are told one by one, up to the brace. -/
theorem literalMembers_append_inj {ms ns : List (String × Json)} (htells : ∀ e ∈ ms, Tells e.2)
    (hms : ∀ e ∈ ms, e.2.isFloatFree = true) (hns : ∀ e ∈ ns, e.2.isFloatFree = true)
    {x y : List Char}
    (h : literalMembers ms ++ '\x7d' :: x = literalMembers ns ++ '\x7d' :: y) :
    ms = ns ∧ x = y := by
  induction ms generalizing ns with
  | nil =>
    cases ns with
    | nil => exact ⟨rfl, (List.cons.inj h).2⟩
    | cons e ns => simp [literalMembers] at h
  | cons e ms ih =>
    obtain ⟨name, v⟩ := e
    cases ns with
    | nil => simp [literalMembers] at h
    | cons e ns =>
      obtain ⟨name', w⟩ := e
      obtain ⟨hv, hms'⟩ := List.forall_mem_cons.1 hms
      obtain ⟨hw, hns'⟩ := List.forall_mem_cons.1 hns
      obtain ⟨htell, htells'⟩ := List.forall_mem_cons.1 htells
      rw [literalMembers_cons_append, literalMembers_cons_append, List.cons_inj_right,
        List.cons_inj_right] at h
      obtain ⟨hname, hvalue⟩ := Quoted.quoteChars_append_inj h
      obtain rfl := String.toList_inj.1 hname
      rw [List.cons_inj_right, List.cons_inj_right] at hvalue
      obtain ⟨rfl, hrest⟩ := htell w _ _ hv hw (endsNumber_literalMembers ms x)
        (endsNumber_literalMembers ns y) hvalue
      obtain ⟨rfl, rfl⟩ := ih htells' hms' hns' hrest
      exact ⟨rfl, rfl⟩

/-- The short form of every value without doubles tells the value, and where it ends. -/
theorem tells (v : Json) : Tells v := by
  induction v using Json.induction with
  | null =>
    intro w x y hv hw hx hy h
    cases w with
    | null => exact ⟨rfl, List.append_cancel_left h⟩
    | _ => cases shape_eq hv hw h
  | bool b =>
    intro w x y hv hw hx hy h
    cases w with
    | bool b' =>
      obtain rfl : b = b' := Shape.bool.inj (shape_eq hv hw h)
      exact ⟨rfl, List.append_cancel_left h⟩
    | _ => cases shape_eq hv hw h
  | int n =>
    intro w x y hv hw hx hy h
    cases w with
    | int m =>
      obtain ⟨rfl, rfl⟩ := write_append_inj hx hy h
      exact ⟨rfl, rfl⟩
    | float z => cases hw
    | _ => cases shape_eq hv hw h
  | float z =>
    intro w x y hv
    cases hv
  | str s =>
    intro w x y hv hw hx hy h
    cases w with
    | str t =>
      obtain ⟨hst, rfl⟩ := Quoted.quoteChars_append_inj h
      exact ⟨congrArg Json.str (String.toList_inj.1 hst), rfl⟩
    | _ => cases shape_eq hv hw h
  | arr vs htells =>
    intro w x y hv hw hx hy h
    cases w with
    | arr ws =>
      have hvs := isFloatFree_arr.1 hv
      have hws := isFloatFree_arr.1 hw
      -- Behind the opening bracket stands what would stand behind a comma.
      have hitems : literalItems vs ++ ']' :: x = literalItems ws ++ ']' :: y := by
        match vs, ws with
        | [], [] => exact congrArg (List.drop 1) h
        | [], w :: ws =>
          rw [literalChars_arr_append] at h
          exact absurd (List.cons.inj h).2.symm (literalChars_append_ne (hws w (by simp)) _ _)
        | v :: vs, [] =>
          rw [literalChars_arr_append] at h
          exact absurd (List.cons.inj h).2 (literalChars_append_ne (hvs v (by simp)) _ _)
        | v :: vs, w :: ws =>
          rw [literalChars_arr_append, literalChars_arr_append] at h
          rw [literalItems_cons_append, literalItems_cons_append, (List.cons.inj h).2]
      obtain ⟨rfl, rfl⟩ := literalItems_append_inj htells hvs hws hitems
      exact ⟨rfl, rfl⟩
    | _ => cases shape_eq hv hw h
  | obj ms htells =>
    intro w x y hv hw hx hy h
    cases w with
    | obj ns =>
      have hms := isFloatFree_obj.1 hv
      have hns := isFloatFree_obj.1 hw
      have hmembers : literalMembers ms ++ '\x7d' :: x = literalMembers ns ++ '\x7d' :: y := by
        match ms, ns with
        | [], [] => exact congrArg (List.drop 1) h
        | [], (name, w) :: ns =>
          rw [literalChars_obj_append] at h
          exact absurd (List.cons.inj h).2.symm (quoteChars_append_ne _ _ _)
        | (name, v) :: ms, [] =>
          rw [literalChars_obj_append] at h
          exact absurd (List.cons.inj h).2 (quoteChars_append_ne _ _ _)
        | (name, v) :: ms, (name', w) :: ns =>
          rw [literalChars_obj_append, literalChars_obj_append] at h
          rw [literalMembers_cons_append, literalMembers_cons_append, (List.cons.inj h).2]
      obtain ⟨rfl, rfl⟩ := literalMembers_append_inj htells hms hns hmembers
      exact ⟨rfl, rfl⟩
    | _ => cases shape_eq hv hw h

theorem isLine_write (n : Int) : IsLine (Integer.write n).toList := by
  have hdigits : IsLine (Nat.toDigits 10 n.natAbs) := by
    intro c hc
    have hdigit := isDigit_of_mem_toDigits hc
    rw [isDigit, Bool.and_eq_true, decide_eq_true_iff, decide_eq_true_iff] at hdigit
    exact Nat.le_trans (by decide) hdigit.1
  by_cases hn : n < 0
  · rw [toList_write_of_neg hn]
    exact .cons (by decide) hdigits
  · rwa [toList_write_of_not_neg hn]

theorem isLine_literalItems {vs : List Json} (h : ∀ v ∈ vs, IsLine (literalChars v)) :
    IsLine (literalItems vs) := by
  induction vs with
  | nil => exact .nil
  | cons v vs ih =>
    obtain ⟨hv, hvs⟩ := List.forall_mem_cons.1 h
    exact .cons (by decide) (.cons (by decide) (hv.append (ih hvs)))

theorem isLine_member (name : String) {v : Json} {ms : List (String × Json)}
    (hv : IsLine (literalChars v)) (hms : IsLine (literalMembers ms)) :
    IsLine (Quoted.quoteChars name.toList ++ [':', ' '] ++ literalChars v ++ literalMembers ms) :=
  (((Quoted.isLine_quoteChars _).append (.cons (by decide) (.cons (by decide) .nil))).append
    hv).append hms

theorem isLine_literalMembers {ms : List (String × Json)}
    (h : ∀ e ∈ ms, IsLine (literalChars e.2)) : IsLine (literalMembers ms) := by
  induction ms with
  | nil => exact .nil
  | cons e ms ih =>
    obtain ⟨hv, hms⟩ := List.forall_mem_cons.1 h
    exact .cons (by decide) (.cons (by decide) (isLine_member e.1 hv (ih hms)))

/-- The short form of a value without doubles has no control characters. -/
theorem isLine_literalChars {v : Json} (h : v.isFloatFree = true) : IsLine (literalChars v) := by
  induction v using Json.induction with
  | null => decide
  | bool b => cases b <;> decide
  | int n => exact isLine_write n
  | float x => cases h
  | str s => exact Quoted.isLine_quoteChars s.toList
  | arr vs ih =>
    have hvs := isFloatFree_arr.1 h
    have hlines : ∀ v ∈ vs, IsLine (literalChars v) := fun v hv => ih v hv (hvs v hv)
    cases vs with
    | nil => decide
    | cons v vs =>
      obtain ⟨hv, hrest⟩ := List.forall_mem_cons.1 hlines
      exact .cons (by decide)
        ((hv.append (isLine_literalItems hrest)).append (.cons (by decide) .nil))
  | obj ms ih =>
    have hms := isFloatFree_obj.1 h
    have hlines : ∀ e ∈ ms, IsLine (literalChars e.2) := fun e he => ih e he (hms e he)
    cases ms with
    | nil => decide
    | cons e ms =>
      obtain ⟨hv, hrest⟩ := List.forall_mem_cons.1 hlines
      exact .cons (by decide)
        ((isLine_member e.1 hv (isLine_literalMembers hrest)).append (.cons (by decide) .nil))

end RandomDerivation.Json
