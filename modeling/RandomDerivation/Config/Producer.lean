import RandomDerivation.Config.Field
import RandomDerivation.Producer

/-!
# Producers in configurations

A producer is described by an object with a type and what the type needs. Members that the type
does not know are ignored.
-/

namespace RandomDerivation.Producer

/-- The types of producers, in alphabetical order. -/
def types : List String := ["choice", "const", "gauss", "randint", "uniform"]

/-- A producer with a fixed value, which may be any value but has to be there. -/
def parseConst (path : String) (members : List (String × Json)) : Except Fault Producer :=
  match members.lookup "value" with
  | some value => .ok (.const value)
  | none => .error (.config (path ++ ".value") .missing)

/-- A producer of reals between two bounds, zero and one when they are absent. -/
def parseUniform (path : String) (members : List (String × Json)) : Except Fault Producer := do
  let low ← Field.number (path ++ ".low") (Field.get members "low" (.float 0.0))
  let high ← Field.number (path ++ ".high") (Field.get members "high" (.float 1.0))
  Field.ensure (low ≤ high) (path ++ ".low") (.above (path ++ ".high"))
  return .uniform low high

/-- A producer of whole numbers between two bounds. -/
def parseRandint (path : String) (members : List (String × Json)) : Except Fault Producer := do
  let low ← Field.integer (path ++ ".low") (Field.get members "low")
  let high ← Field.integer (path ++ ".high") (Field.get members "high")
  if h : low ≤ high then return .randint low high h
  else throw (.config (path ++ ".low") (.above (path ++ ".high")))

/-- A producer of one of several values. -/
def parseChoice (path : String) (members : List (String × Json)) : Except Fault Producer := do
  match ← Field.array (path ++ ".values") (Field.get members "values") with
  | [] => throw (.config (path ++ ".values") .empty)
  | first :: others => return .choice first others

/-- A producer of normal values, with mean zero and deviation one when they are absent. -/
def parseGauss (path : String) (members : List (String × Json)) : Except Fault Producer := do
  let mu ← Field.number (path ++ ".mu") (Field.get members "mu" (.float 0.0))
  let sigma ← Field.number (path ++ ".sigma") (Field.get members "sigma" (.float 1.0))
  Field.ensure (0.0 ≤ sigma) (path ++ ".sigma") .negative
  return .gauss mu sigma

/-- The producer that a value at the given path describes. -/
def parse (path : String) (value : Json) : Except Fault Producer := do
  let members ← Field.object path value
  match ← Field.string (path ++ ".type") (Field.get members "type") with
  | "const" => parseConst path members
  | "uniform" => parseUniform path members
  | "randint" => parseRandint path members
  | "choice" => parseChoice path members
  | "gauss" => parseGauss path members
  | other => throw (.config (path ++ ".type") (.unknownType types other))

end RandomDerivation.Producer
