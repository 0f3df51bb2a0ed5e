import RandomDerivation.Config.Producer
import RandomDerivation.Config.Slot
import RandomDerivation.Grammar.Builder

/-!
# Configurations

A configuration is a document that describes a grammar, and how deep and from which seed to
derive trees of it. Its members are looked at in a fixed order, and the first fault counts.

## Main definitions

* `Config`: what a document describes.
* `Config.parse`: the configuration of a document.
-/

namespace RandomDerivation

/-- A grammar with what is needed to derive trees of it. -/
structure Config where
  name : String
  grammar : Grammar Producer
  /-- The depth bound. -/
  depth : Nat
  /-- The seed of the random source, if the trees are to be repeatable. -/
  seed : Option Int

namespace Config

/-- The path of an entry of one of the two tables. -/
def entryPath (table name : String) : String := table ++ "['" ++ name ++ "']"

/-- A depth bound, which is a whole number that is not negative. -/
def parseDepth (value : Json) : Except Fault Nat := do
  let n ← Field.integer "depth" value
  Field.ensure (0 ≤ n) "depth" .negative
  return n.toNat

/-- A seed, which may be null. -/
def parseSeed : Json → Except Fault (Option Int)
  | .null => .ok none
  | value => return some (← Field.integer "seed" value)

/-- Register the leaves of a document. -/
def registerLeaves (b : Builder Producer) :
    List (String × Json) → Recorded (Builder Producer)
  | [] => return b
  | (name, value) :: rest => do
    let producer ← Recorded.ofExcept (Producer.parse (entryPath "leaves" name) value)
    registerLeaves (← b.registerLeaf name producer) rest

/-- The slots of an entry of the table of nodes. -/
def parseNode (name : String) (value : Json) : Except Fault (List Slot) := do
  let path := entryPath "nodes" name
  Slot.parseAll path 0 (← Field.array path value)

/-- Register the nodes of a document. -/
def registerNodes (b : Builder Producer) : List (String × Json) → Recorded (Builder Producer)
  | [] => return b
  | (name, value) :: rest => do
    let slots ← Recorded.ofExcept (parseNode name value)
    registerNodes (← b.registerNode name (.ok slots)) rest

/-- The members of a document other than its tables. -/
structure Header where
  name : String
  root : String
  depth : Nat
  seed : Option Int

/-- Read the members other than the tables: the name, the root, the depth and the seed. -/
def parseHeader (members : List (String × Json)) : Except Fault Header := do
  let name ← Field.string "name" (Field.get members "name" (.str "Tree"))
  let root ← Field.string "root" (Field.get members "root")
  Field.ensure (root ≠ "") "root" .empty
  let depth ← parseDepth (Field.get members "depth" (.int 3))
  let seed ← parseSeed (Field.get members "seed")
  return { name, root, depth, seed }

/-- The configuration of a document. -/
def parse (document : Json) : Recorded Config := do
  let members ← Recorded.ofExcept (Field.object "root" document)
  let header ← Recorded.ofExcept (parseHeader members)
  let leaves ← Recorded.ofExcept (Field.object "leaves" (Field.get members "leaves" (.obj [])))
  let b ← registerLeaves {} leaves
  let nodes ← Recorded.ofExcept (Field.object "nodes" (Field.get members "nodes" (.obj [])))
  let b ← registerNodes b nodes
  let b ← b.setRoot (some header.root)
  let grammar ← b.build
  return { name := header.name, grammar, depth := header.depth, seed := header.seed }

end Config

end RandomDerivation
