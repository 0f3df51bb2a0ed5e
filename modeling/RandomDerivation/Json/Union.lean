import RandomDerivation.Json.Basic

/-!
# Unions of JSON values

Two whole numbers have a union, taken bit by bit, and so have two objects, taken member by member.
Any other two values have none.
-/

namespace RandomDerivation.Json

/-- The number whose bits are set where those of one of two numbers are. All but finitely many
bits of a negative number are set, so one of `-1 - n` is set where that of `n` is not. -/
def unionBits : Int → Int → Int
  | .ofNat m, .ofNat n => .ofNat (m ||| n)
  | .ofNat m, .negSucc n => .negSucc (n ^^^ (m &&& n))
  | .negSucc m, .ofNat n => .negSucc (m ^^^ (m &&& n))
  | .negSucc m, .negSucc n => .negSucc (m &&& n)

/-- The union of two values, if they have one. Truth values count as zero and one, and two of them
have a truth value for their union. Of two members of one name, the second object's is taken. -/
def union? : Json → Json → Option Json
  | .bool a, .bool b => some (.bool (a || b))
  | .obj xs, .obj ys => some (ofMembers (xs ++ ys))
  | a, b =>
    match a.whole?, b.whole? with
    | some m, some n => some (.int (unionBits m n))
    | _, _ => none

end RandomDerivation.Json
