import RandomDerivation.Log
import RandomDerivation.Producer

/-!
# Runs of actions

An action returns a value or fails, and leaves a world behind in both cases. A sequence of two
actions returns exactly when the first returns and the second, started in the world that the
first left, returns as well. Proofs about actions take a run apart with these lemmas and do not
look into the sequencing itself.
-/

namespace RandomDerivation
variable {ε σ α β : Type}

@[simp] theorem pure_run (a : α) (s : σ) : (pure a : EStateM ε σ α) s = .ok a s := rfl

@[simp] theorem throw_run (e : ε) (s : σ) : (throw e : EStateM ε σ α) s = .error e s := rfl

@[simp] theorem get_run (s : σ) : (get : EStateM ε σ σ) s = .ok s s := rfl

@[simp] theorem modify_run (f : σ → σ) (s : σ) :
    (modify f : EStateM ε σ Unit) s = .ok () (f s) := rfl

/-- A sequence, run step by step. -/
theorem bind_run (x : EStateM ε σ α) (f : α → EStateM ε σ β) (s : σ) :
    (x >>= f) s =
      match x s with
      | .ok a s' => f a s'
      | .error e s' => .error e s' := rfl

theorem pure_eq_ok {a b : α} {s s' : σ} :
    (pure a : EStateM ε σ α) s = .ok b s' ↔ b = a ∧ s' = s := by
  simp only [pure_run, EStateM.Result.ok.injEq]
  constructor
  · rintro ⟨rfl, rfl⟩
    simp
  · rintro ⟨rfl, rfl⟩
    simp

/-- Once the first action has returned, the second one runs in the world that it left. -/
theorem bind_run_of_ok {x : EStateM ε σ α} {s s' : σ} {a : α} (h : x s = .ok a s')
    (f : α → EStateM ε σ β) : (x >>= f) s = f a s' := by
  simp only [bind, EStateM.bind, h]

/-- A sequence fails at once when its first action does. -/
theorem bind_run_of_error {x : EStateM ε σ α} {s s' : σ} {e : ε} (h : x s = .error e s')
    (f : α → EStateM ε σ β) : (x >>= f) s = .error e s' := by
  simp only [bind, EStateM.bind, h]

theorem bind_eq_ok {x : EStateM ε σ α} {f : α → EStateM ε σ β} {s s' : σ} {b : β} :
    (x >>= f) s = .ok b s' ↔ ∃ a s₁, x s = .ok a s₁ ∧ f a s₁ = .ok b s' := by
  cases h : x s with
  | ok a s₁ =>
    rw [bind_run_of_ok h]
    constructor
    · intro hf
      exact ⟨a, s₁, rfl, hf⟩
    · rintro ⟨_, _, h', hf⟩
      cases h'
      exact hf
  | error e s₁ => simp [bind_run_of_error h]

/-- A sequence fails when its first action does, or the second one behind it. -/
theorem bind_eq_error {x : EStateM ε σ α} {f : α → EStateM ε σ β} {s s' : σ} {e : ε} :
    (x >>= f) s = .error e s' ↔
      x s = .error e s' ∨ ∃ a s₁, x s = .ok a s₁ ∧ f a s₁ = .error e s' := by
  cases h : x s with
  | ok a s₁ =>
    rw [bind_run_of_ok h]
    constructor
    · intro hf
      exact .inr ⟨a, s₁, rfl, hf⟩
    · rintro (h' | ⟨_, _, h', hf⟩)
      · cases h'
      · cases h'
        exact hf
  | error e' s₁ => simp [bind_run_of_error h]

/-- Two continuations that agree on what the first action can return make the same sequence. -/
theorem bind_congr_of_ok {x : EStateM ε σ α} {f g : α → EStateM ε σ β}
    (h : ∀ s a s', x s = .ok a s' → f a = g a) : (x >>= f) = (x >>= g) := by
  funext s
  cases hx : x s with
  | ok a s' => rw [bind_run_of_ok hx, bind_run_of_ok hx, h s a s' hx]
  | error e s' => rw [bind_run_of_error hx, bind_run_of_error hx]

/-- A list of actions whose elements act alike is the same list of actions. -/
theorem mapM_congr {f g : α → EStateM ε σ β} {xs : List α} (h : ∀ x ∈ xs, f x = g x) :
    xs.mapM f = xs.mapM g := by
  induction xs with
  | nil => rfl
  | cons x xs ih =>
    have hrest : xs.mapM f = xs.mapM g := by
      apply ih
      intro y hy
      exact h y (by simp [hy])
    rw [List.mapM_cons, List.mapM_cons, h x (by simp), hrest]

/-- Acting on images and looking at the results is acting on what they are images of. -/
theorem mapM_map_of_forall {α' β' : Type} {f : α' → EStateM ε σ β'} {g : α → EStateM ε σ β}
    {p : α → α'} {q : β → β'} {xs : List α} (h : ∀ x ∈ xs, f (p x) = q <$> g x) :
    (xs.map p).mapM f = List.map q <$> xs.mapM g := by
  induction xs with
  | nil => simp
  | cons x xs ih =>
    obtain ⟨hx, hxs⟩ := List.forall_mem_cons.1 h
    rw [List.map_cons, List.mapM_cons, List.mapM_cons, hx, ih hxs]
    simp only [map_eq_pure_bind, bind_assoc, pure_bind, List.map_cons]

section
variable {μ : Type} {d : Draw α} {w w' : World μ}

theorem draw_of_ok {a : α} {s s' : Source} (h : d s = .ok a s') (memory : μ) :
    draw d ⟨s, memory⟩ = .ok a ⟨s', memory⟩ := by
  simp only [draw, h]

/-- What is drawn from the source of a world. -/
theorem draw_eq_ok {a : α} (h : draw d w = .ok a w') : d w.source = .ok a w'.source := by
  unfold draw at h
  cases hd : d w.source with
  | ok b s =>
    simp only [hd, EStateM.Result.ok.injEq] at h
    obtain ⟨rfl, rfl⟩ := h
    rfl
  | error f s => simp [hd] at h

/-- A draw leaves the memory of the leaf generators as it is. -/
theorem memory_of_draw {a : α} (h : draw d w = .ok a w') : w'.memory = w.memory := by
  unfold draw at h
  cases hd : d w.source with
  | ok b s =>
    simp only [hd, EStateM.Result.ok.injEq] at h
    obtain ⟨-, rfl⟩ := h
    rfl
  | error f s => simp [hd] at h

theorem draw_eq_error {f : Fault} (h : draw d w = .error f w') :
    d w.source = .error f w'.source := by
  unfold draw at h
  cases hd : d w.source with
  | ok b s => simp [hd] at h
  | error f' s =>
    simp only [hd, EStateM.Result.error.injEq] at h
    obtain ⟨rfl, rfl⟩ := h
    rfl

end

theorem ofExcept_eq_ok {x : Except Fault α} {a : α} {log log' : Log} :
    Recorded.ofExcept x log = .ok a log' ↔ x = .ok a ∧ log' = log := by
  cases x with
  | ok b => rw [Recorded.ofExcept, pure_eq_ok, Except.ok.injEq, eq_comm]
  | error f => simp [Recorded.ofExcept]

theorem ofExcept_eq_error {x : Except Fault α} {f : Fault} {log log' : Log} :
    Recorded.ofExcept x log = .error f log' ↔ x = .error f ∧ log' = log := by
  cases x with
  | ok b => simp [Recorded.ofExcept]
  | error f' => simp [Recorded.ofExcept, eq_comm]

end RandomDerivation
