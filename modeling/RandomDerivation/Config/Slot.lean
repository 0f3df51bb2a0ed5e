import RandomDerivation.Config.Field

/-!
# Slots in configurations

A slot is described by an object with one member, which names a leaf, a node, or lists the
alternatives of a choice.
-/

namespace RandomDerivation.Slot

/-- The path of the item at `index` below `path`. -/
def itemPath (path : String) (index : Nat) : String := path ++ "[" ++ toString index ++ "]"

mutual

/-- The slot that a value at the given path describes. -/
def parse (path : String) : Json → Except Fault Slot
  | .obj [("choice", .arr [])] => .error (.config (path ++ ".choice") .empty)
  | .obj [("choice", .arr (first :: others))] => do
    let first ← parse (itemPath (path ++ ".choice") 0) first
    let others ← parseAll (path ++ ".choice") 1 others
    return .choice first others
  | .obj [(word, value)] =>
    if word = "leaf" then return .leaf (← Field.string (path ++ ".leaf") value)
    else if word = "node" then return .node (← Field.string (path ++ ".node") value)
    else if word = "choice" then .error (.config (path ++ ".choice") .notArray)
    else .error (.config path (.unknownSlotKind word))
  | .obj _ => .error (.config path .notOneSlotKind)
  | _ => .error (.config path .notObject)

/-- The slots that values describe, of which the first is the item at `index` below the path. -/
def parseAll (path : String) (index : Nat) : List Json → Except Fault (List Slot)
  | [] => return []
  | value :: rest => do
    let slot ← parse (itemPath path index) value
    return slot :: (← parseAll path (index + 1) rest)

end

mutual

/-- The value that describes a slot; a foreign value describes itself. -/
def toJson : Slot → Json
  | .leaf name => .obj [("leaf", .str name)]
  | .node name => .obj [("node", .str name)]
  | .choice first others => .obj [("choice", .arr (first.toJson :: toJsonAll others))]
  | .foreign value => value

/-- The values that describe several slots. -/
def toJsonAll : List Slot → List Json
  | [] => []
  | s :: rest => s.toJson :: toJsonAll rest

end

end RandomDerivation.Slot
