import RandomDerivation.Proofs.Derivation.Stack

/-!
# Raising the bound

A derivation in which no node is cut off does not depend on its bound from there on. With a larger
bound the machine goes through the same stacks, except that some frames whose children would have
been cut off now expand them; and none of these frames ever turns to a node. So the two runs stay
in step: they draw the same, they fail in the same way, and they return the same tree.
-/

namespace RandomDerivation
variable {ρ μ : Type} [Produces ρ μ]

/-- The next step on a stack cuts a node off. -/
def Stack.CutsOff (s : Stack) : Prop :=
  s.top.mode = .terminate ∧ ∃ name rest, s.top.pending = .pending ⟨.node, name⟩ :: rest

/-- No step of the derivation of a tree cuts a node off. -/
def Grammar.Uncut (g : Grammar ρ) (bound : Nat) (w : World μ) : Prop :=
  ∀ steps s w', g.deriveWithin bound steps 0 .expand g.start w = .ok (.inr s) w' → ¬ s.CutsOff

/-- A frame as it would be with another bound. -/
def Frame.widen (bound : Nat) (f : Frame) : Frame := { f with mode := childMode bound f.depth }

@[simp] theorem Frame.widen_attach (bound : Nat) (f : Frame) (t : Tree) :
    (f.attach t).widen bound = (f.widen bound).attach t := rfl

@[simp] theorem Frame.widen_close (bound : Nat) (f : Frame) : (f.widen bound).close = f.close := rfl

/-- A stack as it would be with another bound. -/
def Stack.widen (bound : Nat) (s : Stack) : Stack :=
  ⟨s.top.widen bound, s.below.map (Frame.widen bound)⟩

/-- What a filling turns into, as it would be with another bound. -/
def Opened.widen (bound : Nat) : Opened → Opened
  | .complete t => .complete t
  | .frame f => .frame (f.widen bound)

namespace Grammar
variable {g : Grammar ρ} {bound bound' : Nat} {depth : Int} {s : Stack}

/-- Children that are expanded with a bound are expanded with a larger one. -/
theorem childMode_eq_expand (hbound : bound ≤ bound') (h : childMode bound depth = .expand) :
    childMode bound' depth = .expand := by
  have hdepth : depth < bound := by
    unfold childMode at h
    split at h
    · assumption
    · cases h
  exact if_pos (by omega)

/-- A filling is turned to in the same way with any bound, unless it is a node to be cut off. -/
theorem openFilling_widen {mode mode' : Mode} (hmode : mode = .expand → mode' = .expand)
    {filling : Filling}
    (hfilling : mode = .terminate → ∀ name, filling ≠ .pending ⟨.node, name⟩) :
    g.openFilling bound' depth mode' filling = (do
      return (← g.openFilling bound depth mode filling).widen bound' : Action μ Opened) := by
  match filling, mode with
  | .tree t, _ => simp only [openFilling, pure_bind, Opened.widen]
  | .pending ⟨.leaf, name⟩, _ => simp only [openFilling, bind_assoc, pure_bind, Opened.widen]
  | .pending ⟨.node, name⟩, .terminate => exact absurd rfl (hfilling rfl name)
  | .pending ⟨.node, name⟩, .expand =>
    rw [hmode rfl]
    cases hd : g.nodes.find? name with
    | none =>
      simp only [openFilling, hd]
      rfl
    | some d => simp only [openFilling, hd, bind_assoc, pure_bind, Opened.widen, Frame.widen]

/-- A step with a larger bound does the same, unless it would have cut a node off. -/
theorem step_widen (hbound : bound ≤ bound') (hs : g.Waiting bound depth (s.top :: s.below))
    (huncut : ¬ s.CutsOff) :
    g.step bound' (s.widen bound') = (do
      return (← g.step bound s).map id (Stack.widen bound') : Action μ (Tree ⊕ Stack)) := by
  obtain ⟨top, below⟩ := s
  obtain ⟨_, hopened⟩ := hs.isOpen
  have hpending : (top.widen bound').pending = top.pending := rfl
  have hdepth : (top.widen bound').depth = top.depth := rfl
  cases hp : top.pending with
  | nil =>
    -- The top frame is closed, and its mode does not count.
    cases below with
    | nil => simp [step, Stack.widen, hpending, hp]
    | cons f below => simp [step, Stack.widen, hpending, hp]
  | cons filling rest =>
    have hexpand : top.mode = .expand → (top.widen bound').mode = .expand := by
      intro htop
      rw [hopened.mode_eq] at htop
      exact childMode_eq_expand hbound htop
    have hfilling : top.mode = .terminate → ∀ name, filling ≠ .pending ⟨.node, name⟩ := by
      rintro htop name rfl
      exact huncut ⟨htop, name, rest, hp⟩
    have hopen : g.openFilling bound' (top.depth + 1) (top.widen bound').mode filling = (do
        return (← g.openFilling bound (top.depth + 1) top.mode filling).widen bound' :
          Action μ Opened) := openFilling_widen hexpand hfilling
    simp only [step, Stack.widen, hpending, hdepth, hp]
    rw [hopen]
    simp only [bind_assoc, pure_bind]
    congr 1
    funext o
    cases o with
    | complete t => rfl
    | frame f => rfl

/-- All steps with a larger bound do the same, if none of them would have cut a node off. -/
theorem run_widen (hbound : bound ≤ bound') {w : World μ}
    (hs : g.Waiting bound depth (s.top :: s.below))
    (huncut : ∀ steps s' w', g.rounds bound steps s w = .ok (.inr s') w' → ¬ s'.CutsOff) :
    g.run bound' (s.widen bound') w = g.run bound s w := by
  induction s, w using run.induct g bound with
  | case1 s w t w' h =>
    have hstep := step_widen hbound hs (huncut 0 s w rfl)
    rw [← step_bind_run, ← step_bind_run, hstep, bind_assoc, bind_run_of_ok h, bind_run_of_ok h]
    rfl
  | case2 s w s' w' h ih =>
    have hstep := step_widen hbound hs (huncut 0 s w rfl)
    rw [← step_bind_run, ← step_bind_run, hstep, bind_assoc, bind_run_of_ok h, bind_run_of_ok h]
    refine ih (waiting_of_moves hs (moves_of_step h)) fun steps s₁ w₁ hrounds => ?_
    refine huncut (steps + 1) s₁ w₁ ?_
    rw [rounds, bind_run_of_ok h]
    exact hrounds
  | case3 s w f w' h =>
    have hstep := step_widen hbound hs (huncut 0 s w rfl)
    rw [← step_bind_run, ← step_bind_run, hstep, bind_assoc, bind_run_of_error h,
      bind_run_of_error h]

/-- When no node is cut off, a larger bound makes no difference: the same tree is returned or the
same fault comes up, and the same world is left behind. -/
theorem generate_eq_of_uncut (hbound : bound ≤ bound') {w : World μ} (huncut : g.Uncut bound w) :
    g.generate bound' w = g.generate bound w := by
  have hopen : g.openFilling bound' 0 .expand (.pending g.start) = (do
      return (← g.openFilling bound 0 .expand (.pending g.start)).widen bound' :
        Action μ Opened) := openFilling_widen id (by simp)
  rw [generate, generate, derive, derive, hopen, bind_assoc]
  cases ho : g.openFilling bound 0 .expand (.pending g.start) w with
  | error f w' => rw [bind_run_of_error ho, bind_run_of_error ho]
  | ok o w' =>
    rw [bind_run_of_ok ho, bind_run_of_ok ho, pure_bind]
    cases o with
    | complete t => rfl
    | frame f =>
      obtain ⟨hdepth, -, -, candidates, hf⟩ := isOpen_of_openFilling ho
      refine run_widen (s := ⟨f, []⟩) hbound (.lowest hf hdepth) fun steps s₁ w₁ hrounds => ?_
      refine huncut steps s₁ w₁ ?_
      rw [deriveWithin, bind_run_of_ok ho]
      exact hrounds

/-- Both slots are filled by a leaf, so that nothing is left to cut off just below the bound. -/
theorem generate_eq_of_uncut_bothLeaves :
    nested.Uncut 0 ⟨.ofList [0, 0x40000000, 0x40000000, 0], ()⟩ ∧
      nested.generate 7 ⟨.ofList [0, 0x40000000, 0x40000000, 0], ()⟩ =
        nested.generate 0 ⟨.ofList [0, 0x40000000, 0x40000000, 0], ()⟩ := by
  have hcolor : ∀ words, nested.resolve (.leaf "color") ⟨.ofList (0 :: words), ()⟩ =
      .ok (.tree (.node "color" (.str "green") [])) ⟨.ofList words, ()⟩ := by
    intro words
    simp only [resolve, produceLeaf, leaves_nested]
    cbv
  have hsecond : ∀ words, draw (Draw.below 2) ⟨.ofList (0x40000000 :: words), ()⟩ =
      .ok 1 ⟨.ofList words, ()⟩ := by
    intro words
    cbv
  have hinner : nested.resolve (.choice (.node "empty") [.leaf "color"])
      ⟨.ofList [0x40000000, 0], ()⟩ =
        .ok (.tree (.node "color" (.str "green") [])) ⟨.ofList [], ()⟩ := by
    rw [resolve]
    exact (bind_run_of_ok (hsecond _) _).trans (hcolor _)
  have houter : nested.resolve (.choice (.node "branch") [.choice (.node "empty") [.leaf "color"]])
      ⟨.ofList [0x40000000, 0x40000000, 0], ()⟩ =
        .ok (.tree (.node "color" (.str "green") [])) ⟨.ofList [], ()⟩ := by
    rw [resolve]
    exact (bind_run_of_ok (hsecond _) _).trans hinner
  have hresolve : nested.resolveAll [.leaf "color",
        .choice (.node "branch") [.choice (.node "empty") [.leaf "color"]]]
      ⟨.ofList [0, 0x40000000, 0x40000000, 0], ()⟩ =
        .ok [.tree (.node "color" (.str "green") []), .tree (.node "color" (.str "green") [])]
          ⟨.ofList [], ()⟩ := by
    rw [resolveAll, bind_run_of_ok (hcolor _), resolveAll, bind_assoc, bind_run_of_ok houter]
    rfl
  have hopen : nested.openFilling 0 0 .expand (.pending nested.start)
      ⟨.ofList [0, 0x40000000, 0x40000000, 0], ()⟩ =
        .ok (.frame ⟨"branch", 0, .terminate, [], [.tree (.node "color" (.str "green") []),
          .tree (.node "color" (.str "green") [])]⟩) ⟨.ofList [], ()⟩ :=
    bind_run_of_ok hresolve _
  have huncut : nested.Uncut 0 ⟨.ofList [0, 0x40000000, 0x40000000, 0], ()⟩ := by
    intro steps s w' h
    rw [deriveWithin, bind_run_of_ok hopen] at h
    rcases steps with _ | _ | _ | steps <;> cases h <;>
      (rintro ⟨-, _, _, hnode⟩; cases hnode)
  exact ⟨huncut, generate_eq_of_uncut (Nat.zero_le 7) huncut⟩

end Grammar

end RandomDerivation
