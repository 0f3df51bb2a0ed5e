import RandomDerivation.Proofs.Derivation.Levels
import RandomDerivation.Proofs.Grammar.Checked

/-!
# The stacks of a derivation

What a derivation looks like between two steps, and how many steps there are. The lowest frame is
the node that the derivation started from. Every other frame is the node that the frame below it
waits for, one level deeper; and a frame waits only while its depth is below the bound. So there
are no more frames than levels, and no more steps than the weight of the first frame.
-/

namespace RandomDerivation
variable {ρ μ : Type} [Produces ρ μ]

/-- The open nodes, from the lowest one up. -/
def Stack.frames (s : Stack) : List Frame := (s.top :: s.below).reverse

namespace Grammar
variable {g : Grammar ρ} {bound : Nat}

/-- Only a node that is to be expanded turns into a frame, and only if it is defined. -/
theorem openFilling_eq_frame {depth : Int} {mode : Mode} {filling : Filling} {f : Frame}
    {w w' : World μ} (h : g.openFilling bound depth mode filling w = .ok (.frame f) w') :
    ∃ name d fillings, filling = .pending ⟨.node, name⟩ ∧ mode = .expand ∧
      g.nodes.find? name = some d ∧ g.resolveAll d.slots w = .ok fillings w' ∧
      f = ⟨name, depth, childMode bound depth, [], fillings⟩ := by
  match filling, mode with
  | .tree t, _ => cases (pure_eq_ok.1 h).1
  | .pending ⟨.leaf, name⟩, _ =>
    simp only [openFilling, bind_eq_ok, pure_eq_ok] at h
    obtain ⟨_, _, _, hframe, _⟩ := h
    cases hframe
  | .pending ⟨.node, name⟩, .terminate => cases (pure_eq_ok.1 h).1
  | .pending ⟨.node, name⟩, .expand =>
    cases hd : g.nodes.find? name with
    | none => simp [openFilling, hd] at h
    | some d =>
      simp only [openFilling, hd, bind_eq_ok, pure_eq_ok] at h
      obtain ⟨fillings, _, hfillings, hframe, rfl⟩ := h
      cases hframe
      exact ⟨name, d, fillings, rfl, rfl, hd, hfillings, rfl⟩

/-- What a step can do that does not end the derivation. -/
inductive Moves (g : Grammar ρ) (bound : Nat) : Stack → World μ → Stack → World μ → Prop where
  /-- The top frame is complete: its tree is attached to the frame below. -/
  | close {top f : Frame} {below : List Frame} {w : World μ} :
    top.pending = [] → Moves g bound ⟨top, f :: below⟩ w ⟨f.attach top.close, below⟩ w
  /-- The next child is complete at once. -/
  | attach {top : Frame} {below : List Frame} {filling : Filling} {rest : List Filling} {t : Tree}
      {w w' : World μ} :
    top.pending = filling :: rest →
      g.openFilling bound (top.depth + 1) top.mode filling w = .ok (.complete t) w' →
      Moves g bound ⟨top, below⟩ w ⟨top.attach t, below⟩ w'
  /-- The next child is a node, which is opened. -/
  | push {top f : Frame} {below : List Frame} {filling : Filling} {rest : List Filling}
      {w w' : World μ} :
    top.pending = filling :: rest →
      g.openFilling bound (top.depth + 1) top.mode filling w = .ok (.frame f) w' →
      Moves g bound ⟨top, below⟩ w ⟨f, top :: below⟩ w'

theorem moves_of_step {s s' : Stack} {w w' : World μ} (h : g.step bound s w = .ok (.inr s') w') :
    g.Moves bound s w s' w' := by
  obtain ⟨top, below⟩ := s
  cases hp : top.pending with
  | nil =>
    cases below with
    | nil =>
      simp only [step, hp, pure_eq_ok] at h
      cases h.1
    | cons f below =>
      simp only [step, hp, pure_eq_ok] at h
      obtain ⟨hs, rfl⟩ := h
      cases hs
      exact .close hp
  | cons filling rest =>
    simp only [step, hp, bind_eq_ok] at h
    obtain ⟨o, w₁, ho, hs⟩ := h
    cases o with
    | complete t =>
      obtain ⟨hs, rfl⟩ := pure_eq_ok.1 hs
      cases hs
      exact .attach hp ho
    | frame f =>
      obtain ⟨hs, rfl⟩ := pure_eq_ok.1 hs
      cases hs
      exact .push hp ho

/-- At most so many steps: the tree, if one of them completes it, otherwise the stack behind
them. -/
def rounds (g : Grammar ρ) (bound : Nat) : (steps : Nat) → Stack → Action μ (Tree ⊕ Stack)
  | 0, s => return .inr s
  | steps + 1, s => do
    match ← g.step bound s with
    | .inl t => return .inl t
    | .inr s' => g.rounds bound steps s'

/-- The derivation of a reference, given up after so many steps. -/
def deriveWithin (g : Grammar ρ) (bound steps : Nat) (depth : Int) (mode : Mode) (r : Reference) :
    Action μ (Tree ⊕ Stack) := do
  match ← g.openFilling bound depth mode (.pending r) with
  | .complete t => return .inl t
  | .frame f => g.rounds bound steps ⟨f, []⟩

/-- What holds at first and is kept by every step holds behind any number of steps. -/
theorem of_rounds {P : Stack → World μ → Prop}
    (hstep : ∀ {s w s' w'}, P s w → g.Moves bound s w s' w' → P s' w') {steps : Nat}
    {s s' : Stack} {w w' : World μ} (hs : P s w)
    (h : g.rounds bound steps s w = .ok (.inr s') w') : P s' w' := by
  induction steps generalizing s w with
  | zero =>
    obtain ⟨heq, rfl⟩ := pure_eq_ok.1 h
    cases heq
    exact hs
  | succ steps ih =>
    simp only [rounds, bind_eq_ok] at h
    obtain ⟨o, w₁, ho, h⟩ := h
    cases o with
    | inl t => cases (pure_eq_ok.1 h).1
    | inr s₁ => exact ih (hstep hs (moves_of_step ho)) h

/-- A stack that weighs no more than so many steps is at its end behind them. -/
theorem rounds_eq_run {steps : Nat} {s : Stack} (hsteps : stackWeight g.width bound s ≤ steps)
    (w : World μ) :
    g.rounds bound steps s w = (do return .inl (← g.run bound s) : Action μ (Tree ⊕ Stack)) w := by
  induction steps generalizing s w with
  | zero =>
    simp only [stackWeight, frameWeight] at hsteps
    omega
  | succ steps ih =>
    rw [rounds, ← step_bind_run, bind_assoc]
    cases h : g.step bound s w with
    | error f w' => rw [bind_run_of_error h, bind_run_of_error h]
    | ok o w' =>
      rw [bind_run_of_ok h, bind_run_of_ok h]
      cases o with
      | inl t => rfl
      | inr s' =>
        have hweight := stackWeight_of_step h
        exact ih (by omega) w'

/-! ## Frames -/

/-- A node that has been opened. The fillings of its slots are its candidates: the first of them
have become its complete children, the others are pending. -/
structure IsOpen (g : Grammar ρ) (bound : Nat) (candidates : List Filling) (f : Frame) : Prop where
  filled : ∃ d, g.nodes.find? f.name = some d ∧
    ∃ w w' : World μ, g.resolveAll d.slots w = .ok candidates w'
  complete_le : f.complete.length ≤ candidates.length
  pending_eq : f.pending = candidates.drop f.complete.length
  mode_eq : f.mode = childMode bound f.depth

namespace IsOpen
variable {candidates : List Filling} {f : Frame}

/-- The first of the pending fillings is the candidate behind the complete children. -/
theorem getElem?_eq_of_pending (h : g.IsOpen bound candidates f) {filling : Filling}
    {rest : List Filling} (hp : f.pending = filling :: rest) :
    candidates[f.complete.length]? = some filling := by
  have hhead : (candidates.drop f.complete.length).head? = some filling := by
    rw [← h.pending_eq, hp, List.head?_cons]
  rwa [List.head?_drop] at hhead

theorem attach (h : g.IsOpen bound candidates f) {filling : Filling} {rest : List Filling}
    (hp : f.pending = filling :: rest) (t : Tree) : g.IsOpen bound candidates (f.attach t) where
  filled := h.filled
  complete_le := by
    obtain ⟨hlt, -⟩ := List.getElem?_eq_some_iff.1 (h.getElem?_eq_of_pending hp)
    exact hlt
  pending_eq := by
    rw [Frame.attach, h.pending_eq, List.tail_drop, List.length_cons]
  mode_eq := h.mode_eq

end IsOpen

theorem isOpen_of_openFilling {depth : Int} {mode : Mode} {filling : Filling} {f : Frame}
    {w w' : World μ} (h : g.openFilling bound depth mode filling w = .ok (.frame f) w') :
    f.depth = depth ∧ mode = .expand ∧ filling = .pending ⟨.node, f.name⟩ ∧
      ∃ candidates, g.IsOpen bound candidates f := by
  obtain ⟨name, d, fillings, rfl, rfl, hd, hfillings, rfl⟩ := openFilling_eq_frame h
  exact ⟨rfl, rfl, rfl, fillings, ⟨d, hd, w, w', hfillings⟩, Nat.zero_le _, rfl, rfl⟩

/-- A stack of open nodes, the top one first. The lowest one lies at `depth`, and each of the
others is the node that the one below it waits for. -/
inductive Waiting (g : Grammar ρ) (bound : Nat) (depth : Int) : List Frame → Prop where
  | lowest {f : Frame} {candidates : List Filling} :
    g.IsOpen bound candidates f → f.depth = depth → Waiting g bound depth [f]
  | above {f next : Frame} {below : List Frame} {candidates rest : List Filling} :
    Waiting g bound depth (f :: below) → f.mode = .expand →
      f.pending = .pending ⟨.node, next.name⟩ :: rest →
      g.IsOpen bound candidates next → next.depth = f.depth + 1 →
      Waiting g bound depth (next :: f :: below)

namespace Waiting
variable {depth : Int} {f next : Frame} {below : List Frame}

theorem isOpen (h : g.Waiting bound depth (f :: below)) :
    ∃ candidates, g.IsOpen bound candidates f := by
  cases h with
  | lowest hopen _ => exact ⟨_, hopen⟩
  | above _ _ _ hopen _ => exact ⟨_, hopen⟩

/-- The top frame may get its next child. -/
theorem attach (h : g.Waiting bound depth (f :: below)) {filling : Filling} {rest : List Filling}
    (hp : f.pending = filling :: rest) (t : Tree) :
    g.Waiting bound depth (f.attach t :: below) := by
  cases h with
  | lowest hopen hdepth => exact .lowest (hopen.attach hp t) hdepth
  | above hbelow hmode hwaits hopen hdepth =>
    exact .above hbelow hmode hwaits (hopen.attach hp t) hdepth

theorem tail (h : g.Waiting bound depth (next :: f :: below)) :
    g.Waiting bound depth (f :: below) := by
  cases h with
  | above hbelow => exact hbelow

/-- What lies below some frame of a stack is a stack again. -/
theorem of_append {upper lower : List Frame} (h : g.Waiting bound depth (upper ++ f :: lower)) :
    g.Waiting bound depth (f :: lower) := by
  induction upper with
  | nil => exact h
  | cons top upper ih =>
    cases upper with
    | nil => exact ih h.tail
    | cons next upper => exact ih h.tail

theorem depth_eq (h : g.Waiting bound depth (f :: below)) : f.depth = depth + below.length := by
  generalize hframes : f :: below = frames at h
  induction h generalizing f below with
  | lowest _ hdepth =>
    cases hframes
    simpa using hdepth
  | above _ _ _ _ hdepth ih =>
    cases hframes
    rw [hdepth, ih rfl, List.length_cons]
    omega

/-- There are at most as many frames below as the first depth falls short of the bound. -/
theorem length_le (h : g.Waiting bound depth (f :: below)) :
    below.length ≤ (bound - depth).toNat := by
  cases h with
  | lowest => exact Nat.zero_le _
  | @above f _ below candidates rest hbelow hmode _ _ _ =>
    obtain ⟨_, hopen⟩ := hbelow.isOpen
    have hlt : f.depth < bound := by
      rw [hopen.mode_eq, childMode] at hmode
      split at hmode
      · assumption
      · cases hmode
    have hdepth := hbelow.depth_eq
    rw [List.length_cons]
    omega

/-- Only the children of the last possible frame are cut off. -/
theorem mode_eq_terminate_iff (h : g.Waiting bound depth (f :: below)) :
    f.mode = .terminate ↔ below.length = (bound - depth).toNat := by
  obtain ⟨_, hopen⟩ := h.isOpen
  have hdepth := h.depth_eq
  have hlength := h.length_le
  rw [hopen.mode_eq, childMode]
  by_cases hlt : f.depth < bound
  · rw [if_pos hlt]
    simp only [reduceCtorEq, false_iff]
    omega
  · rw [if_neg hlt]
    simp only [true_iff]
    omega

/-- A frame with another one above it waits for it. -/
theorem waits (h : g.Waiting bound depth (next :: f :: below)) :
    ∃ rest, f.pending = .pending ⟨.node, next.name⟩ :: rest := by
  cases h with
  | above _ _ hwaits _ _ => exact ⟨_, hwaits⟩

end Waiting

/-- Every step of a derivation leaves a stack of waiting nodes behind. -/
theorem waiting_of_moves {depth : Int} {s s' : Stack} {w w' : World μ}
    (hs : g.Waiting bound depth (s.top :: s.below)) (h : g.Moves bound s w s' w') :
    g.Waiting bound depth (s'.top :: s'.below) := by
  cases h with
  | close hp =>
    obtain ⟨rest, hwaits⟩ := hs.waits
    exact hs.tail.attach hwaits _
  | attach hp ho => exact hs.attach hp _
  | push hp ho =>
    obtain ⟨hdepth, hmode, rfl, candidates, hopen⟩ := isOpen_of_openFilling ho
    exact .above hs hmode hp hopen hdepth

/-- A frame of a stack, counted from the lowest one up, has as many frames below it. -/
theorem exists_append_of_getElem?_reverse {frames : List Frame} {j : Nat} {f : Frame}
    (h : frames.reverse[j]? = some f) :
    ∃ upper lower, frames = upper ++ f :: lower ∧ lower.length = j := by
  obtain ⟨hj, rfl⟩ := List.getElem?_eq_some_iff.1 h
  refine ⟨(frames.reverse.drop (j + 1)).reverse, (frames.reverse.take j).reverse, ?_, ?_⟩
  · rw [← List.reverse_inj, List.reverse_append, List.reverse_cons, List.reverse_reverse,
      List.reverse_reverse, List.append_assoc, List.singleton_append,
      ← List.drop_eq_getElem_cons hj, List.take_append_drop]
  · rw [List.length_reverse, List.length_take]
    omega

/-- What is known of a frame, counted from the lowest one up. -/
theorem Waiting.frame {depth : Int} {s : Stack} (h : g.Waiting bound depth (s.top :: s.below))
    {j : Nat} {f : Frame} (hf : s.frames[j]? = some f) :
    f.depth = depth + j ∧ (f.mode = .terminate ↔ j = (bound - depth).toNat) ∧
      ∃ candidates, g.IsOpen bound candidates f ∧ f.complete.length ≤ candidates.length ∧
        ∀ next, s.frames[j + 1]? = some next →
          candidates[f.complete.length]? = some (.pending ⟨.node, next.name⟩) := by
  obtain ⟨upper, lower, hframes, rfl⟩ := exists_append_of_getElem?_reverse hf
  have hlower := (hframes ▸ h).of_append
  obtain ⟨candidates, hopen⟩ := hlower.isOpen
  refine ⟨hlower.depth_eq, hlower.mode_eq_terminate_iff, candidates, hopen, hopen.complete_le, ?_⟩
  intro next hnext
  obtain ⟨upper', lower', hframes', hlength⟩ := exists_append_of_getElem?_reverse hnext
  obtain rfl : f :: lower = lower' := by
    have hsplit : upper ++ f :: lower = (upper' ++ [next]) ++ lower' := by
      rw [← hframes, hframes', List.append_assoc, List.singleton_append]
    exact (List.append_inj' hsplit (by rw [List.length_cons, hlength])).2
  obtain ⟨rest, hwaits⟩ := (hframes' ▸ h).of_append.waits
  exact hopen.getElem?_eq_of_pending hwaits

/-! ## Derivations -/

section
variable {depth : Int} {mode : Mode} {r : Reference} {steps : Nat}

/-- A derivation is complete, or has failed, after as many steps as its first frame may weigh. -/
theorem deriveWithin_eq_derive (hsteps : nodeWeight g.width (bound - depth).toNat ≤ steps) :
    g.deriveWithin bound steps depth mode r =
      (do return .inl (← g.derive bound depth mode r) : Action μ (Tree ⊕ Stack)) := by
  funext w
  rw [deriveWithin, derive, bind_assoc]
  cases ho : g.openFilling bound depth mode (.pending r) w with
  | error f w' => rw [bind_run_of_error ho, bind_run_of_error ho]
  | ok o w' =>
    rw [bind_run_of_ok ho, bind_run_of_ok ho]
    cases o with
    | complete t => rfl
    | frame f =>
      obtain ⟨-, hweight⟩ := frameWeight_of_openFilling ho
      apply rounds_eq_run
      simp only [stackWeight, waitingWeights]
      omega

theorem waiting_of_deriveWithin {s : Stack} {w w' : World μ}
    (h : g.deriveWithin bound steps depth mode r w = .ok (.inr s) w') :
    g.Waiting bound depth (s.top :: s.below) := by
  rw [deriveWithin, bind_eq_ok] at h
  obtain ⟨o, w₁, ho, h⟩ := h
  cases o with
  | complete t => cases (pure_eq_ok.1 h).1
  | frame f =>
    obtain ⟨hdepth, -, -, candidates, hopen⟩ := isOpen_of_openFilling ho
    exact of_rounds (P := fun s _ => g.Waiting bound depth (s.top :: s.below))
      waiting_of_moves (.lowest hopen hdepth) h

end

/-- A derivation takes no more steps than the first frame may weigh, whatever is drawn: given up
after so many steps or more, it is still complete or has failed. The stacks that it comes through
are not empty and have at most one frame for each level. A frame lies as much deeper than the
lowest one as there are frames below it. It has at most as many children as candidates, and if
there is a frame above, its next candidate is the reference to that node. Only in the last
possible frame the children are cut off. -/
theorem derive_halts (g : Grammar ρ) (bound : Nat) (depth : Int) (mode : Mode) (r : Reference) :
    (∀ steps, nodeWeight g.width (bound - depth).toNat ≤ steps →
      g.deriveWithin bound steps depth mode r =
        (do return .inl (← g.derive bound depth mode r) : Action μ (Tree ⊕ Stack))) ∧
    ∀ steps (w w' : World μ) s, g.deriveWithin bound steps depth mode r w = .ok (.inr s) w' →
      s.frames ≠ [] ∧ s.frames.length ≤ (bound - depth).toNat + 1 ∧
      ∀ (j : Nat) f, s.frames[j]? = some f →
        f.depth = depth + j ∧ (f.mode = .terminate ↔ j = (bound - depth).toNat) ∧
        ∃ candidates, g.IsOpen bound candidates f ∧ f.complete.length ≤ candidates.length ∧
          ∀ next, s.frames[j + 1]? = some next →
            candidates[f.complete.length]? = some (.pending ⟨.node, next.name⟩) := by
  refine ⟨fun steps hsteps => deriveWithin_eq_derive hsteps, ?_⟩
  intro steps w w' s h
  have hwaiting := waiting_of_deriveWithin h
  refine ⟨by simp [Stack.frames], ?_, fun j f hf => hwaiting.frame hf⟩
  have hlength := hwaiting.length_le
  simp only [Stack.frames, List.length_reverse, List.length_cons]
  omega

/-- A node that only leads to itself, started above the root: two steps open two more frames, and
the children of the third one are cut off. -/
example (w : World Unit) :
    (nested.deriveWithin 1 2 (-1) .expand ⟨.node, "loop"⟩ : Action Unit (Tree ⊕ Stack)) w =
      .ok (.inr ⟨⟨"loop", 1, .terminate, [], [.pending ⟨.node, "loop"⟩]⟩,
        [⟨"loop", 0, .expand, [], [.pending ⟨.node, "loop"⟩]⟩,
          ⟨"loop", -1, .expand, [], [.pending ⟨.node, "loop"⟩]⟩]⟩) w := by
  cbv

end Grammar

end RandomDerivation
