import RandomDerivation.Tree.Basic

/-!
# Trees as documents

A tree becomes a JSON document with one object for each position. The objects are made in a
store, each one in front of its children, and are named by their places. An object is made with
no children, and with it the stack gets its tree: when that is taken from the stack, the objects
of the children are made and appended to it one by one. As the last child is on top then, the
objects of the last subtree are complete first. Objects that are complete are read off the store.
-/

namespace RandomDerivation.Tree

/-- The object of a position whose children have the given documents. -/
def document (kind : String) (value : Json) (children : List Json) : Json :=
  .obj [("kind", .str kind), ("value", value), ("children", .arr children)]

/-- What an object holds, its children being named by their places. -/
structure Entry where
  kind : String
  value : Json
  children : List Nat

namespace Entry

/-- The object of a position before any of its children is made. -/
def blank (t : Tree) : Entry := ⟨t.kind, t.value, []⟩

/-- An object with one more child, which comes last. -/
def append (e : Entry) (place : Nat) : Entry := { e with children := e.children ++ [place] }

@[simp] theorem children_blank (t : Tree) : (blank t).children = [] := rfl
@[simp] theorem children_append (e : Entry) (place : Nat) :
    (e.append place).children = e.children ++ [place] := rfl

end Entry

/-- The objects that have been made, the root in front. The children of an object stand behind
it. -/
structure Store where
  entries : Array Entry
  nonempty : 0 < entries.size
  ordered : ∀ {i : Nat} (h : i < entries.size), ∀ c ∈ entries[i].children,
    i < c ∧ c < entries.size

namespace Store

/-- Only the root has been made. -/
def start (t : Tree) : Store where
  entries := #[Entry.blank t]
  nonempty := Nat.zero_lt_one
  ordered {i} h c hc := by
    obtain rfl : i = 0 := by simpa using h
    simp at hc

/-- The object of one more child is made and appended to that of its parent. -/
def adopt (s : Store) (parent : Nat) (child : Tree) : Store where
  entries :=
    let place := s.entries.size
    (s.entries.modify parent (·.append place)).push (Entry.blank child)
  nonempty := by simp
  ordered {i} h c hc := by
    rw [Array.size_push, Array.size_modify] at h ⊢
    rw [Array.getElem_push] at hc
    split at hc
    · rename_i hi
      rw [Array.size_modify] at hi
      rw [Array.getElem_modify] at hc
      split at hc
      · obtain hc | hc := List.mem_append.1 hc
        · exact ⟨(s.ordered hi c hc).1, Nat.lt_succ_of_lt (s.ordered hi c hc).2⟩
        · obtain rfl := List.mem_singleton.1 hc
          exact ⟨hi, Nat.lt_succ_self _⟩
      · exact ⟨(s.ordered hi c hc).1, Nat.lt_succ_of_lt (s.ordered hi c hc).2⟩
    · simp at hc

/-- The document of the object at a place. -/
def read (s : Store) (place : Nat) (h : place < s.entries.size) : Json :=
  document s.entries[place].kind s.entries[place].value
    (s.entries[place].children.attach.map fun c => s.read c.1 (s.ordered h c.1 c.2).2)
termination_by s.entries.size - place
decreasing_by
  obtain ⟨c, hc⟩ := c
  have hbehind := s.ordered h c hc
  show s.entries.size - c < s.entries.size - place
  omega

end Store

/-- The objects made so far, and the stack of trees whose children have none yet, each with the
place of its own object. -/
structure Draft where
  store : Store
  pending : List (Tree × Nat)

namespace Draft

/-- The object of a child is made. -/
def attach (parent : Nat) (d : Draft) (child : Tree) : Draft :=
  let place := d.store.entries.size
  ⟨d.store.adopt parent child, (child, place) :: d.pending⟩

/-- The objects of all children of a position are made, from left to right. -/
def fill (d : Draft) (t : Tree) (place : Nat) : Draft := t.children.foldl (attach place) d

theorem weightAll_reverse (ts : List Tree) : weightAll ts.reverse = weightAll ts := by
  induction ts with
  | nil => rfl
  | cons t ts ih =>
    simp only [List.reverse_cons, weightAll_append, weightAll, ih]
    omega

@[simp] theorem size_attach (d : Draft) (place : Nat) (t : Tree) :
    (d.attach place t).store.entries.size = d.store.entries.size + 1 := by
  simp [attach, Store.adopt]

/-- The children wait on the stack, the last one on top. -/
theorem pending_foldl_attach (ts : List Tree) (place : Nat) (d : Draft) :
    (ts.foldl (attach place) d).pending =
      (ts.zipIdx d.store.entries.size).reverse ++ d.pending := by
  induction ts generalizing d with
  | nil => rfl
  | cons t ts ih =>
    rw [List.foldl_cons, ih, size_attach, List.zipIdx_cons, List.reverse_cons, List.append_assoc]
    rfl

/-- Fill the object of the tree on top of the stack until the stack is empty. -/
def run : Draft → Store
  | ⟨s, []⟩ => s
  | ⟨s, (t, place) :: pending⟩ => run ((⟨s, pending⟩ : Draft).fill t place)
termination_by d => weightAll (d.pending.map Prod.fst)
decreasing_by
  obtain ⟨kind, value, children⟩ := t
  simp only [fill, pending_foldl_attach, List.map_append, List.map_reverse, List.zipIdx_map_fst,
    weightAll_append, weightAll_reverse, children_node, List.map_cons, weightAll, weight]
  omega

end Draft

/-- The document of a tree. -/
def toJson (t : Tree) : Json :=
  let s := Draft.run ⟨.start t, [(t, 0)]⟩
  s.read 0 s.nonempty

end RandomDerivation.Tree
