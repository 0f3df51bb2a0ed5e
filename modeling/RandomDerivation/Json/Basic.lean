import RandomDerivation.Decimal.Nearest
import RandomDerivation.Table

/-!
# JSON values

A document as a value. Whole numbers and doubles are different values even when they are equal as
numbers, and the members of an object keep their order.
-/

namespace RandomDerivation

/-- A JSON value. The names of an object's members are distinct in every value that is read. -/
inductive Json where
  | null
  | bool (b : Bool)
  | int (n : Int)
  | float (x : Float)
  | str (s : String)
  | arr (items : List Json)
  | obj (members : List (String × Json))

namespace Json

instance : Inhabited Json := ⟨.null⟩

/-- The object written by the given members in turn: a repeated name keeps its first place and
takes its last value. -/
def ofMembers (members : List (String × Json)) : Json := .obj (Table.ofList members).entries

/-- The value of a member of an object. -/
def member? (name : String) : Json → Option Json
  | .obj members => members.lookup name
  | _ => none

/-- Equality of doubles, except that not-a-number equals itself. -/
def sameFloat (x y : Float) : Bool := x == y || (x.isNaN && y.isNaN)

/-- A truth value or a whole number, as a whole number. -/
def whole? : Json → Option Int
  | .bool b => some (if b then 1 else 0)
  | .int n => some n
  | _ => none

/-- Equality of two values that are not both arrays or both objects: truth values count as zero
and one, and a whole number equals a double of the same value. -/
def sameScalar (a b : Json) : Bool :=
  match a, b with
  | .null, .null => true
  | .str s, .str t => s == t
  | .float x, .float y => sameFloat x y
  | .float x, b => b.whole?.isSome && Decimal.toInt? x == b.whole?
  | a, .float y => a.whole?.isSome && Decimal.toInt? y == a.whole?
  | a, b => a.whole?.isSome && a.whole? == b.whole?

mutual

/-- Equality that compares numbers as numbers and objects without regard to the order of their
members. -/
def same : Json → Json → Bool
  | .arr xs, .arr ys => sameItems xs ys
  | .obj xs, .obj ys => xs.length == ys.length && sameMembers xs ys
  | a, b => sameScalar a b

/-- Equality of two lists item by item. -/
def sameItems : List Json → List Json → Bool
  | [], [] => true
  | x :: xs, y :: ys => same x y && sameItems xs ys
  | _, _ => false

/-- Whether every member of the first list has an equal namesake in the second. -/
def sameMembers : List (String × Json) → List (String × Json) → Bool
  | [], _ => true
  | (k, x) :: xs, ys =>
    (match ys.lookup k with
      | some y => same x y
      | none => false) && sameMembers xs ys

end

end Json

end RandomDerivation
