import RandomDerivation.Json.Union

/-!
# Slots

A node of a grammar has slots. A slot is filled by a fixed leaf or a fixed node, or by one of
several alternatives of which one is drawn anew each time. Alternatives may be choices again.

A slot may also hold a foreign value, one that is no slot at all: a caller who assembles slots
by hand can put one in, and the check of a grammar has to find it.
-/

namespace RandomDerivation

/-- What a name stands for. -/
inductive Kind where
  | node
  | leaf
  deriving DecidableEq, Repr

/-- The word for a kind. -/
def Kind.word : Kind → String
  | .node => "node"
  | .leaf => "leaf"

/-- The kind that a word asks for: any word other than the one for leaves asks for a node. -/
def Kind.ofWord (word : String) : Kind := if word = Kind.leaf.word then .leaf else .node

/-- A name together with what it should stand for. -/
structure Reference where
  kind : Kind
  name : String
  deriving DecidableEq, Repr

/-- What fills one place below a node. -/
inductive Slot where
  /-- Filled by a value of the leaf generator of this name. -/
  | leaf (name : String)
  /-- Filled by deriving the node of this name. -/
  | node (name : String)
  /-- Filled as one of the alternatives, each with the same share. -/
  | choice (first : Slot) (others : List Slot)
  /-- Not a slot at all. -/
  | foreign (value : Json)

namespace Slot

instance : Inhabited Slot := ⟨.foreign .null⟩

/-- A choice between the given alternatives, if there is one at all. -/
def choice? : List Slot → Option Slot
  | [] => none
  | first :: others => some (.choice first others)

/-- The alternatives of a choice; any other slot is its only alternative. -/
def alternatives : Slot → List Slot
  | .choice first others => first :: others
  | s => [s]

/-- One more alternative behind those of the first slot, which stays a single choice with equal
shares. -/
def or : Slot → Slot → Slot
  | .choice first others, s => .choice first (others ++ [s])
  | r, s => .choice r [s]

theorem alternatives_or (r s : Slot) : (r.or s).alternatives = r.alternatives ++ [s] := by
  cases r <;> rfl

/-- Join a slot with one more alternative. A foreign value takes no alternatives: it can only be
united with another foreign value. -/
def join? : Slot → Slot → Option Slot
  | .foreign v, .foreign w => (v.union? w).map .foreign
  | .foreign _, _ => none
  | r, s => some (r.or s)

theorem join?_leaf (name : String) (s : Slot) : join? (.leaf name) s = some (or (.leaf name) s) :=
  rfl

theorem join?_node (name : String) (s : Slot) : join? (.node name) s = some (or (.node name) s) :=
  rfl

theorem join?_choice (first : Slot) (others : List Slot) (s : Slot) :
    join? (.choice first others) s = some (or (.choice first others) s) := rfl

/-- One thing found in a slot: something it can be filled by, or a foreign value. -/
inductive Item where
  | reference (r : Reference)
  | foreign (value : Json)

mutual

/-- What a slot is made of, alternatives from left to right and each before the next. -/
def items : Slot → List Item
  | .leaf name => [.reference ⟨.leaf, name⟩]
  | .node name => [.reference ⟨.node, name⟩]
  | .choice first others => items first ++ itemsOfAll others
  | .foreign value => [.foreign value]

/-- What several slots are made of, one after the other. -/
def itemsOfAll : List Slot → List Item
  | [] => []
  | s :: rest => items s ++ itemsOfAll rest

end

theorem itemsOfAll_append (xs ys : List Slot) :
    itemsOfAll (xs ++ ys) = itemsOfAll xs ++ itemsOfAll ys := by
  induction xs with
  | nil => rfl
  | cons x xs ih => simp [itemsOfAll, ih]

theorem items_or (r s : Slot) : (r.or s).items = r.items ++ s.items := by
  cases r <;> simp [or, items, itemsOfAll, itemsOfAll_append]

/-- The references among items up to the first foreign value, and that value. -/
def split : List Item → List Reference × Option Json
  | [] => ([], none)
  | .foreign value :: _ => ([], some value)
  | .reference r :: rest => let (rs, stop) := split rest; (r :: rs, stop)

/-- The references of a slot in order, up to the first foreign value if it holds one. -/
def references (s : Slot) : List Reference := (split s.items).1

/-- The first foreign value of a slot. -/
def firstForeign? (s : Slot) : Option Json := (split s.items).2

/-- Equality of two slots, foreign values being compared as numbers. -/
def same : Slot → Slot → Bool
  | .leaf a, .leaf b => a == b
  | .node a, .node b => a == b
  | .choice a as, .choice b bs => same a b && sameAll as bs
  | .foreign v, .foreign w => v.same w
  | _, _ => false
where
  /-- Equality of two lists of slots. -/
  sameAll : List Slot → List Slot → Bool
    | [], [] => true
    | a :: as, b :: bs => same a b && sameAll as bs
    | _, _ => false

/-- Equality of two slots by themselves. Here two foreign doubles are compared as such, so that
not-a-number differs from itself; inside a choice it does not. -/
def equal : Slot → Slot → Bool
  | .foreign (.float x), .foreign (.float y) => x == y
  | r, s => r.same s

end Slot

end RandomDerivation
