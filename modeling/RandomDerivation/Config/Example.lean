import RandomDerivation.Config.Basic

/-!
# An example

A configuration that divides a canvas at random: an area is split at an angle into two, each of
which is split again or painted as a square.
-/

namespace RandomDerivation.Config

/-- The document of the example. -/
def exampleDocument : Json :=
  let part : Json := .obj [("choice", .arr [
    .obj [("node", .str "split")],
    .obj [("node", .str "square")]])]
  .obj [
    ("name", .str "Mondrian"),
    ("root", .str "split"),
    ("depth", .int 3),
    ("leaves", .obj [
      ("angle", .obj [("type", .str "uniform"), ("low", .int 0), ("high", .int 360)]),
      ("color", .obj [
        ("type", .str "choice"),
        ("values", .arr (["white", "black", "red", "yellow", "green", "blue"].map .str))])]),
    ("nodes", .obj [
      ("split", .arr [.obj [("leaf", .str "angle")], part, part]),
      ("square", .arr [.obj [("leaf", .str "color")]])])]

/-- The document of the example, which is parsed to be sure that it describes a grammar. -/
def exampleChecked : Recorded Json := do
  let _ ← parse exampleDocument
  return exampleDocument

end RandomDerivation.Config
