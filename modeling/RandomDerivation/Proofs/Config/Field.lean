import RandomDerivation.Config.Field
import RandomDerivation.Proofs.Constraint

/-!
# Constraints on parts of a configuration

Each way to ask for a part of a document enforces a constraint on it, and returns what the part
is.
-/

namespace RandomDerivation

/-- The members of an object. -/
def Json.entries : Json → List (String × Json)
  | .obj members => members
  | _ => []

/-- The items of an array. -/
def Json.elements : Json → List Json
  | .arr items => items
  | _ => []

/-- The nearest double of a number. -/
def Json.number? : Json → Option Float
  | .float x => some x
  | .int n => Decimal.ofInt? n
  | _ => none

namespace Field

theorem get_of_lookup {members : List (String × Json)} {name : String} {absent value : Json}
    (h : members.lookup name = some value) : get members name absent = value := by
  rw [get, h, Option.getD_some]

theorem get_eq_iff {members : List (String × Json)} {name : String} {absent value : Json}
    (h : value ≠ absent) : get members name absent = value ↔ members.lookup name = some value := by
  unfold get
  cases members.lookup name with
  | none => simp [h.symm]
  | some v => simp

theorem number_of_number? {path : String} {value : Json} {x : Float}
    (h : value.number? = some x) : number path value = .ok x := by
  cases value with
  | float y =>
    cases h
    rfl
  | int n => simp_all [Json.number?, number]
  | _ => cases h

section
variable (path : String) (value : Json)

def isString : Constraint := ⟨∃ s, value = .str s, .config path .notString⟩

def isInteger : Constraint := ⟨∃ n, value = .int n, .config path .notInteger⟩

def isArray : Constraint := ⟨∃ items, value = .arr items, .config path .notArray⟩

def isObject : Constraint := ⟨∃ members, value = .obj members, .config path .notObject⟩

/-- A part is a number, and a whole number is not too large for a double. -/
def isNumber : List Constraint :=
  [⟨(∃ n, value = .int n) ∨ ∃ x, value = .float x, .config path .notNumber⟩,
    ⟨∀ n, value = .int n → Decimal.ofInt? n ≠ none, .numberTooLarge⟩]

theorem enforces_string :
    Enforces [isString path value] (string path value) fun s => value = .str s := by
  cases value with
  | str s => exact enforces_of_holds ⟨s, rfl⟩ (enforces_ok rfl)
  | _ => exact enforces_of_broken (by simp [isString]) rfl

theorem enforces_integer :
    Enforces [isInteger path value] (integer path value) fun n => value = .int n := by
  cases value with
  | int n => exact enforces_of_holds ⟨n, rfl⟩ (enforces_ok rfl)
  | _ => exact enforces_of_broken (by simp [isInteger]) rfl

theorem enforces_array :
    Enforces [isArray path value] (array path value) fun items => value = .arr items := by
  cases value with
  | arr items => exact enforces_of_holds ⟨items, rfl⟩ (enforces_ok rfl)
  | _ => exact enforces_of_broken (by simp [isArray]) rfl

theorem enforces_object :
    Enforces [isObject path value] (object path value) fun members => value = .obj members := by
  cases value with
  | obj members => exact enforces_of_holds ⟨members, rfl⟩ (enforces_ok rfl)
  | _ => exact enforces_of_broken (by simp [isObject]) rfl

theorem enforces_number :
    Enforces (isNumber path value) (number path value) fun x => value.number? = some x := by
  cases value with
  | float x =>
    refine enforces_of_holds (Or.inr ⟨x, rfl⟩) (enforces_of_holds ?_ (enforces_ok rfl))
    intro n hn
    cases hn
  | int n =>
    refine enforces_of_holds (Or.inl ⟨n, rfl⟩) ?_
    cases h : Decimal.ofInt? n with
    | some x =>
      rw [number, h]
      refine enforces_of_holds ?_ (enforces_ok h)
      intro m hm
      cases hm
      simp [h]
    | none =>
      rw [number, h]
      exact enforces_of_broken (fun hn => hn n rfl h) rfl
  | _ => exact enforces_of_broken (by simp) rfl

end

theorem enforces_ensure {holds : Prop} {condition : Bool} (h : condition = true ↔ holds)
    (path : String) (cause : ConfigCause) :
    Enforces [⟨holds, .config path cause⟩] (ensure condition path cause) fun _ => holds := by
  by_cases hc : condition = true
  · rw [ensure, if_pos hc]
    exact enforces_of_holds (h.1 hc) (enforces_ok (h.1 hc))
  · rw [ensure, if_neg hc]
    exact enforces_of_broken (fun hholds => hc (h.2 hholds)) rfl

end Field

end RandomDerivation
