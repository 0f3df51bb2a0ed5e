import RandomDerivation.Derivation.Resolution

/-!
# Derivations

A reference is derived depth first with a stack of nodes whose children are not complete yet. The
slots of a node are all filled when the node is opened; its pending references are then derived
from left to right. Children of a node at a depth below the bound are expanded, those of a deeper
node are cut off: they keep their kind and get no children.

The loop ends on every grammar. What is left to do weighs at most as much as a full tree of the
remaining depth, and every step takes some of it away.

## Main definitions

* `Frame`, `Stack`: the open nodes.
* `Grammar.step`: one step of a derivation.
* `Grammar.run`: the steps up to a complete tree.
* `Grammar.derive`: the derivation of a reference.
-/

namespace RandomDerivation
variable {ρ μ : Type} [Produces ρ μ]

/-- What becomes of a reference to a node. -/
inductive Mode where
  | expand
  | terminate
  deriving DecidableEq, Repr

/-- A node whose children are not complete. -/
structure Frame where
  name : String
  depth : Int
  /-- What becomes of the node's children. -/
  mode : Mode
  /-- The children that are complete, the last one first. -/
  complete : List Tree
  /-- What the other children come from. The first of them may be in the making. -/
  pending : List Filling

namespace Frame

/-- The frame with one more complete child, made from the first pending filling. -/
def attach (f : Frame) (t : Tree) : Frame :=
  { f with complete := t :: f.complete, pending := f.pending.tail }

/-- The tree of a frame without pending children. -/
def close (f : Frame) : Tree := .node f.name .null f.complete.reverse

end Frame

/-- The open nodes of a derivation; each of `below` waits for the first of its pending children,
which the one above it derives. -/
structure Stack where
  top : Frame
  below : List Frame

/-- What a filling turns into when its turn comes. -/
inductive Opened where
  | complete (tree : Tree)
  | frame (frame : Frame)

/-- What becomes of the children of a node at the given depth. -/
def childMode (bound : Nat) (depth : Int) : Mode := if depth < bound then .expand else .terminate

namespace Grammar

/-- Turn to a filling at the given depth. A tree is complete, a leaf gets a new value, and a node
is cut off or opened; only then are its slots looked up and filled. -/
def openFilling (g : Grammar ρ) (bound : Nat) (depth : Int) (mode : Mode) :
    Filling → Action μ Opened
  | .tree t => return .complete t
  | .pending ⟨.leaf, name⟩ => return .complete (← g.produceLeaf name)
  | .pending ⟨.node, name⟩ =>
    match mode with
    | .terminate => return .complete (.node name .null [])
    | .expand =>
      match g.nodes.find? name with
      | none => throw (.undefined name)
      | some d =>
        return .frame ⟨name, depth, childMode bound depth, [], ← g.resolveAll d.slots⟩

/-- One step: close the top frame if nothing is pending, otherwise turn to its next child. The
step gives the tree when the last frame is closed. -/
def step (g : Grammar ρ) (bound : Nat) (s : Stack) : Action μ (Tree ⊕ Stack) :=
  match s.top.pending with
  | [] =>
    match s.below with
    | [] => return .inl s.top.close
    | f :: below => return .inr ⟨f.attach s.top.close, below⟩
  | filling :: _ => do
    match ← g.openFilling bound (s.top.depth + 1) s.top.mode filling with
    | .complete t => return .inr ⟨s.top.attach t, s.below⟩
    | .frame f => return .inr ⟨f, s.top :: s.below⟩

/-- The largest number of slots of a node. -/
def width (g : Grammar ρ) : Nat := g.nodes.values.foldl (fun w d => max w d.slots.length) 0

/-- A bound for the steps that a newly opened node takes when it can be followed by `levels` more
levels of open nodes, each with at most `width` children. -/
def nodeWeight (width : Nat) : (levels : Nat) → Nat
  | 0 => width + 1
  | levels + 1 => width * (nodeWeight width levels + 1) + 1

/-- A bound for the steps that a pending child takes. -/
def childWeight (width bound : Nat) (f : Frame) : Nat :=
  match f.mode with
  | .terminate => 1
  | .expand => nodeWeight width (bound - (f.depth + 1)).toNat + 1

/-- A bound for the steps that a frame takes once it is on top of the stack. -/
def frameWeight (width bound : Nat) (f : Frame) : Nat :=
  f.pending.length * childWeight width bound f + 1

/-- A bound for the steps that a frame takes behind the child that is in the making. -/
def waitingWeight (width bound : Nat) (f : Frame) : Nat :=
  f.pending.tail.length * childWeight width bound f + 1

/-- A bound for the steps that all waiting frames take. -/
def waitingWeights (width bound : Nat) : List Frame → Nat
  | [] => 0
  | f :: rest => waitingWeight width bound f + waitingWeights width bound rest

/-- A bound for the steps that are left. -/
def stackWeight (width bound : Nat) (s : Stack) : Nat :=
  frameWeight width bound s.top + waitingWeights width bound s.below

theorem length_slots_le_width {g : Grammar ρ} {name : String} {d : NodeDefinition}
    (h : g.nodes.find? name = some d) : d.slots.length ≤ g.width :=
  ((Tree.foldl_max_le_iff _ _ _ _).1 (Nat.le_refl g.width)).2 d (Table.mem_values_of_find? h)

theorem frameWeight_attach (width bound : Nat) (f : Frame) (t : Tree) :
    frameWeight width bound (f.attach t) = waitingWeight width bound f := rfl

theorem childWeight_pos (width bound : Nat) (f : Frame) : 0 < childWeight width bound f := by
  unfold childWeight; split <;> omega

theorem frameWeight_of_cons (width bound : Nat) {f : Frame} {filling : Filling}
    {rest : List Filling} (h : f.pending = filling :: rest) :
    frameWeight width bound f = waitingWeight width bound f + childWeight width bound f := by
  simp only [frameWeight, waitingWeight, h, List.length_cons, List.tail_cons, Nat.add_mul,
    Nat.one_mul]
  omega

/-- A newly opened frame weighs no more than was set aside for it. -/
theorem frameWeight_of_openFilling {g : Grammar ρ} {bound : Nat} {depth : Int} {mode : Mode}
    {filling : Filling} {f : Frame} {w w' : World μ}
    (h : g.openFilling bound depth mode filling w = .ok (.frame f) w') :
    mode = .expand ∧
      frameWeight g.width bound f ≤ nodeWeight g.width (bound - depth).toNat := by
  match filling, mode with
  | .tree t, _ => simp [openFilling, pure, EStateM.pure] at h
  | .pending ⟨.leaf, name⟩, _ =>
    simp only [openFilling, bind, EStateM.bind] at h
    cases hl : g.produceLeaf name w with
    | ok t w'' => simp [hl, pure, EStateM.pure] at h
    | error e w'' => simp [hl] at h
  | .pending ⟨.node, name⟩, .terminate => simp [openFilling, pure, EStateM.pure] at h
  | .pending ⟨.node, name⟩, .expand =>
    refine ⟨rfl, ?_⟩
    cases hd : g.nodes.find? name with
    | none =>
      simp only [openFilling, hd] at h
      cases h
    | some d =>
      simp only [openFilling, hd, bind, EStateM.bind] at h
      cases hr : g.resolveAll d.slots w with
      | error e w'' => simp [hr] at h
      | ok fillings w'' =>
        simp only [hr, pure, EStateM.pure, EStateM.Result.ok.injEq, Opened.frame.injEq] at h
        obtain ⟨rfl, rfl⟩ := h
        have hlen : fillings.length ≤ g.width := by
          rw [length_of_resolveAll hr]
          exact length_slots_le_width hd
        simp only [frameWeight, childWeight, childMode]
        by_cases hdepth : depth < bound
        · obtain ⟨k, hk⟩ : ∃ k, (bound - depth).toNat = k + 1 :=
            ⟨(bound - depth).toNat - 1, by omega⟩
          have hk' : (bound - (depth + 1)).toNat = k := by omega
          have := Nat.mul_le_mul_right (nodeWeight g.width k + 1) hlen
          simp only [hdepth, if_true, hk, hk', nodeWeight]
          omega
        · have hk : (bound - depth).toNat = 0 := by omega
          simp only [hdepth, if_false, hk, nodeWeight]
          omega

/-- Every step takes some of the weight away. -/
theorem stackWeight_of_step {g : Grammar ρ} {bound : Nat} {s s' : Stack} {w w' : World μ}
    (h : g.step bound s w = .ok (.inr s') w') :
    stackWeight g.width bound s' < stackWeight g.width bound s := by
  obtain ⟨top, below⟩ := s
  cases hp : top.pending with
  | nil =>
    cases below with
    | nil => simp [step, hp, pure, EStateM.pure] at h
    | cons f below =>
      simp only [step, hp, pure, EStateM.pure, EStateM.Result.ok.injEq, Sum.inr.injEq] at h
      obtain ⟨rfl, rfl⟩ := h
      have : frameWeight g.width bound top = 1 := by simp [frameWeight, hp]
      simp only [stackWeight, waitingWeights, frameWeight_attach, this]
      omega
  | cons filling rest =>
    simp only [step, hp, bind, EStateM.bind] at h
    have hw := frameWeight_of_cons g.width bound hp
    cases ho : g.openFilling bound (top.depth + 1) top.mode filling w with
    | error e w'' => simp [ho] at h
    | ok o w'' =>
      cases o with
      | complete t =>
        simp only [ho, pure, EStateM.pure, EStateM.Result.ok.injEq, Sum.inr.injEq] at h
        obtain ⟨rfl, rfl⟩ := h
        have := childWeight_pos g.width bound top
        simp only [stackWeight, frameWeight_attach, hw]
        omega
      | frame f =>
        simp only [ho, pure, EStateM.pure, EStateM.Result.ok.injEq, Sum.inr.injEq] at h
        obtain ⟨rfl, rfl⟩ := h
        obtain ⟨hm, hf⟩ := frameWeight_of_openFilling ho
        have hc : childWeight g.width bound top =
            nodeWeight g.width (bound - (top.depth + 1)).toNat + 1 := by
          simp [childWeight, hm]
        simp only [stackWeight, waitingWeights, hw, hc]
        omega

/-- Make steps until the tree is complete. -/
def run (g : Grammar ρ) (bound : Nat) (s : Stack) : Action μ Tree := fun w =>
  match _h : g.step bound s w with
  | .ok (.inl t) w' => .ok t w'
  | .ok (.inr s') w' => g.run bound s' w'
  | .error f w' => .error f w'
termination_by stackWeight g.width bound s
decreasing_by exact stackWeight_of_step _h

/-- Derive a reference that stands at the given depth. -/
def derive (g : Grammar ρ) (bound : Nat) (depth : Int) (mode : Mode) (r : Reference) :
    Action μ Tree := do
  match ← g.openFilling bound depth mode (.pending r) with
  | .complete t => return t
  | .frame f => g.run bound ⟨f, []⟩

end Grammar

end RandomDerivation
