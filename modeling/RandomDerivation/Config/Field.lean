import RandomDerivation.Fault

/-!
# Parts of a configuration

A part of a document is asked for as a value of some type. The answer is that value, or the fault
that names the path of the part.
-/

namespace RandomDerivation.Field

/-- A condition that a part has to meet. -/
def ensure (condition : Bool) (path : String) (cause : ConfigCause) : Except Fault Unit :=
  if condition then .ok () else .error (.config path cause)

/-- A part that has to be a number, as the nearest double. A truth value is no number, and a
whole number may be too large for a double. -/
def number (path : String) : Json → Except Fault Float
  | .float x => .ok x
  | .int n =>
    match Decimal.ofInt? n with
    | some x => .ok x
    | none => .error .numberTooLarge
  | _ => .error (.config path .notNumber)

/-- A part that has to be a whole number. A double is none, whatever its value. -/
def integer (path : String) : Json → Except Fault Int
  | .int n => .ok n
  | _ => .error (.config path .notInteger)

/-- A part that has to be a string. -/
def string (path : String) : Json → Except Fault String
  | .str s => .ok s
  | _ => .error (.config path .notString)

/-- A part that has to be an array. -/
def array (path : String) : Json → Except Fault (List Json)
  | .arr items => .ok items
  | _ => .error (.config path .notArray)

/-- A part that has to be an object. -/
def object (path : String) : Json → Except Fault (List (String × Json))
  | .obj members => .ok members
  | _ => .error (.config path .notObject)

/-- The value of a member, or of one that stands in for it. -/
def get (members : List (String × Json)) (name : String) (absent : Json := .null) : Json :=
  (members.lookup name).getD absent

end RandomDerivation.Field
