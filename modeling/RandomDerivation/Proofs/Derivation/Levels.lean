import RandomDerivation.Derivation.Generate
import RandomDerivation.Proofs.Action

/-!
# Derivations by levels

A derivation as a recursion on the number of levels of nodes that may still be opened. With no
level left a node is cut off; with one more, its slots are filled and its pending children are
derived with one level less. The stack of open nodes is gone: what the stack remembers is what the
recursion still has to do.

The machine of `Grammar.step` makes the same tree out of the same draws. Each stack stands for the
work behind it, `Grammar.finish`, and no step changes what a stack stands for.
-/

namespace RandomDerivation
variable {ρ μ : Type} [Produces ρ μ]

/-- How many levels of nodes may be opened from a child at the given depth on. -/
def levelsFrom (bound : Nat) (depth : Int) : Mode → Nat
  | .terminate => 0
  | .expand => (bound - depth).toNat + 1

/-- Below a node at a depth there are as many levels as the depth falls short of the bound. -/
theorem levelsFrom_childMode (bound : Nat) (depth : Int) :
    levelsFrom bound (depth + 1) (childMode bound depth) = (bound - depth).toNat := by
  unfold childMode
  split
  · simp only [levelsFrom]
    omega
  · simp only [levelsFrom]
    omega

/-- The tree of a filling, pending references being derived by `child`. -/
def Filling.complete (child : Reference → Action μ Tree) : Filling → Action μ Tree
  | .tree t => pure t
  | .pending r => child r

namespace Grammar

/-- A tree without children for a reference: a leaf gets a new value, a node keeps its kind. -/
def cutOff (g : Grammar ρ) : Reference → Action μ Tree
  | ⟨.leaf, name⟩ => g.produceLeaf name
  | ⟨.node, name⟩ => return .node name .null []

/-- The tree of a reference whose pending children are derived by `child`. All slots of a node are
filled before the first child is derived. -/
def growWith (g : Grammar ρ) (child : Reference → Action μ Tree) : Reference → Action μ Tree
  | ⟨.leaf, name⟩ => g.produceLeaf name
  | ⟨.node, name⟩ =>
    match g.nodes.find? name with
    | none => throw (.undefined name)
    | some d => do
      let fillings ← g.resolveAll d.slots
      return .node name .null (← fillings.mapM (Filling.complete child))

/-- The tree of a reference below which so many levels of nodes are opened. -/
def grow (g : Grammar ρ) : (levels : Nat) → Reference → Action μ Tree
  | 0 => g.cutOff
  | levels + 1 => g.growWith (g.grow levels)

@[simp] theorem grow_leaf (g : Grammar ρ) (levels : Nat) (name : String) :
    g.grow levels ⟨.leaf, name⟩ = (g.produceLeaf name : Action μ Tree) := by
  cases levels <;> rfl

@[simp] theorem grow_zero_node (g : Grammar ρ) (name : String) :
    g.grow 0 ⟨.node, name⟩ = (pure (.node name .null []) : Action μ Tree) := rfl

theorem grow_succ_node {g : Grammar ρ} {name : String} {d : NodeDefinition}
    (h : g.nodes.find? name = some d) (levels : Nat) :
    g.grow (levels + 1) ⟨.node, name⟩ = (do
      let fillings ← g.resolveAll d.slots
      return .node name .null (← fillings.mapM (Filling.complete (g.grow levels))) :
        Action μ Tree) := by
  simp only [grow, growWith, h]

/-- The tree of a frame, once its pending children are derived. -/
def finishFrame (g : Grammar ρ) (bound : Nat) (f : Frame) : Action μ Tree := do
  let children ← f.pending.mapM (Filling.complete (g.grow (levelsFrom bound (f.depth + 1) f.mode)))
  return .node f.name .null (f.complete.reverse ++ children)

/-- The tree of the lowest frame, once `t` is attached to the first of the frames. -/
def resume (g : Grammar ρ) (bound : Nat) : List Frame → Tree → Action μ Tree
  | [], t => pure t
  | f :: below, t => do g.resume bound below (← g.finishFrame bound (f.attach t))

/-- What is left to do on a stack. -/
def finish (g : Grammar ρ) (bound : Nat) (s : Stack) : Action μ Tree := do
  g.resume bound s.below (← g.finishFrame bound s.top)

/-- What is left to do after a step. -/
def finishOutcome (g : Grammar ρ) (bound : Nat) : Tree ⊕ Stack → Action μ Tree
  | .inl t => pure t
  | .inr s => g.finish bound s

/-- What is left to do after turning to a filling. -/
def finishOpened (g : Grammar ρ) (bound : Nat) : Opened → Action μ Tree
  | .complete t => pure t
  | .frame f => g.finishFrame bound f

/-- The first pending child of a frame comes first. -/
theorem finishFrame_cons (g : Grammar ρ) (bound : Nat) {f : Frame} {filling : Filling}
    {rest : List Filling} (h : f.pending = filling :: rest) :
    g.finishFrame bound f = (do
      let t ← filling.complete (g.grow (levelsFrom bound (f.depth + 1) f.mode))
      g.finishFrame bound (f.attach t) : Action μ Tree) := by
  simp only [finishFrame, h, List.mapM_cons, Frame.attach, List.tail_cons, bind_assoc, pure_bind,
    List.reverse_cons, List.append_assoc, List.cons_append, List.nil_append]

/-- Turning to a filling and finishing what it turns into is the recursion on it. -/
theorem openFilling_bind_finishOpened (g : Grammar ρ) (bound : Nat) (depth : Int) (mode : Mode)
    (filling : Filling) :
    (g.openFilling bound depth mode filling >>= g.finishOpened bound) =
      (filling.complete (g.grow (levelsFrom bound depth mode)) : Action μ Tree) := by
  match filling, mode with
  | .tree t, _ => simp only [openFilling, pure_bind, finishOpened, Filling.complete]
  | .pending ⟨.leaf, name⟩, _ =>
    simp only [openFilling, bind_assoc, pure_bind, finishOpened, Filling.complete, grow_leaf,
      bind_pure]
  | .pending ⟨.node, name⟩, .terminate =>
    simp only [openFilling, pure_bind, finishOpened, Filling.complete, levelsFrom, grow_zero_node]
  | .pending ⟨.node, name⟩, .expand =>
    simp only [openFilling, Filling.complete, levelsFrom]
    cases h : g.nodes.find? name with
    | none =>
      simp only [grow, growWith, h]
      rfl
    | some d =>
      rw [grow_succ_node h]
      simp only [bind_assoc, pure_bind, finishOpened, finishFrame, levelsFrom_childMode,
        List.reverse_nil, List.nil_append]

/-- A step does a part of what is left to do. -/
theorem step_bind_finish (g : Grammar ρ) (bound : Nat) (s : Stack) :
    (g.step bound s >>= g.finishOutcome bound) = (g.finish bound s : Action μ Tree) := by
  obtain ⟨top, below⟩ := s
  cases hp : top.pending with
  | nil =>
    -- The top frame is complete: the step attaches its tree, or gives it.
    cases below with
    | nil => simp [step, finish, finishOutcome, finishFrame, resume, hp, Frame.close]
    | cons f below => simp [step, finish, finishOutcome, finishFrame, resume, hp, Frame.close]
  | cons filling rest =>
    have hstep : g.step bound ⟨top, below⟩ >>= g.finishOutcome bound =
        (g.openFilling bound (top.depth + 1) top.mode filling >>= g.finishOpened bound) >>=
          fun t => g.finish bound ⟨top.attach t, below⟩ := by
      simp only [step, hp, bind_assoc]
      congr 1
      funext o
      cases o with
      | complete t => simp only [finishOutcome, finishOpened, pure_bind]
      | frame f => simp only [finishOutcome, finishOpened, pure_bind, finish, resume]
    rw [hstep, openFilling_bind_finishOpened, finish, finishFrame_cons g bound hp]
    simp only [finish, bind_assoc]

/-- What the steps of a stack do behind the first one. -/
def runOutcome (g : Grammar ρ) (bound : Nat) : Tree ⊕ Stack → Action μ Tree
  | .inl t => pure t
  | .inr s => g.run bound s

theorem step_bind_run (g : Grammar ρ) (bound : Nat) (s : Stack) :
    (g.step bound s >>= g.runOutcome bound) = (g.run bound s : Action μ Tree) := by
  funext w
  rw [run]
  split
  · rename_i t w' h
    rw [bind_run_of_ok h]
    rfl
  · rename_i s' w' h
    rw [bind_run_of_ok h]
    rfl
  · rename_i f w' h
    rw [bind_run_of_error h]

/-- All steps together do what is left to do. -/
theorem run_eq_finish (g : Grammar ρ) (bound : Nat) (s : Stack) (w : World μ) :
    g.run bound s w = g.finish bound s w := by
  -- By induction on the run: what a stack stands for stays the same from step to step.
  induction s, w using run.induct g bound with
  | case1 s w t w' h =>
    rw [← step_bind_run, ← step_bind_finish, bind_run_of_ok h, bind_run_of_ok h]
    rfl
  | case2 s w s' w' h ih =>
    rw [← step_bind_run, ← step_bind_finish, bind_run_of_ok h, bind_run_of_ok h]
    exact ih
  | case3 s w f w' h =>
    rw [← step_bind_run, ← step_bind_finish, bind_run_of_error h, bind_run_of_error h]

/-- The machine and the recursion are the same action. -/
theorem derive_eq_grow (g : Grammar ρ) (bound : Nat) (depth : Int) (mode : Mode) (r : Reference) :
    g.derive bound depth mode r = (g.grow (levelsFrom bound depth mode) r : Action μ Tree) := by
  have hfinish : ∀ f, g.run bound ⟨f, []⟩ = (g.finishFrame bound f : Action μ Tree) := by
    intro f
    funext w
    rw [run_eq_finish]
    simp only [finish, resume, bind_pure]
  have hfilling := openFilling_bind_finishOpened g bound depth mode (.pending r)
  rw [Filling.complete] at hfilling
  rw [← hfilling, derive]
  congr 1
  funext o
  cases o with
  | complete t => rfl
  | frame f => exact hfinish f

/-- A name that is defined as a node is expanded as a node. -/
theorem expand_node_eq_grow (g : Grammar ρ) {name : String} (h : name ∈ g.nodes) (depth : Int)
    (bound : Nat) :
    g.expand name depth bound =
      (g.grow ((bound - depth).toNat + 1) ⟨.node, name⟩ : Action μ Tree) := by
  have hreference : g.reference name none = .ok ⟨.node, name⟩ := by
    rw [reference, if_pos (Table.contains_iff.2 h)]
  rw [expand, hreference]
  exact derive_eq_grow g bound depth .expand ⟨.node, name⟩

/-- A tree of the grammar has one level more than its bound. -/
theorem generate_eq_grow (g : Grammar ρ) (bound : Nat) :
    g.generate bound = (g.grow (bound + 1) g.start : Action μ Tree) := by
  rw [generate, derive_eq_grow]
  simp [levelsFrom]

end Grammar

end RandomDerivation
