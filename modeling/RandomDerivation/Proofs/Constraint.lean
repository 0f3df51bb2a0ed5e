import Mathlib.Data.List.Forall2
import RandomDerivation.Proofs.Action

/-!
# Constraints

What comes from outside has to meet constraints, which are looked at in a fixed order. Each of
them comes with the fault that is reported when it does not hold, and only the first of these
faults is. A computation enforces a list of constraints when it fails with the fault of the first
that does not hold, and returns when all of them hold. What enforces a list of constraints is put
together from what enforces its parts.

## Main definitions

* `Constraint`, `FirstBroken`: constraints, and the fault of the first that does not hold.
* `Enforces`, `Recorded.Enforces`: computations that look at constraints in order.
-/

namespace RandomDerivation
variable {α β : Type}

/-- Something that has to hold, and the fault if it does not. -/
structure Constraint where
  holds : Prop
  fault : Fault

/-- The fault of the first of several constraints that does not hold. -/
def FirstBroken (cs : List Constraint) (f : Fault) : Prop :=
  ∃ before c after, cs = before ++ c :: after ∧ (∀ earlier ∈ before, earlier.holds) ∧
    ¬ c.holds ∧ f = c.fault

theorem not_firstBroken_nil {f : Fault} : ¬ FirstBroken [] f := by
  rintro ⟨before, c, after, h, -⟩
  cases before <;> cases h

theorem firstBroken_cons {c : Constraint} {cs : List Constraint} {f : Fault} :
    FirstBroken (c :: cs) f ↔ (¬ c.holds ∧ f = c.fault) ∨ (c.holds ∧ FirstBroken cs f) := by
  constructor
  · rintro ⟨before, d, after, hsplit, hbefore, hd, hf⟩
    cases before with
    | nil =>
      cases hsplit
      exact .inl ⟨hd, hf⟩
    | cons b before =>
      cases hsplit
      exact .inr ⟨hbefore c (by simp), before, d, after, rfl,
        fun e he => hbefore e (by simp [he]), hd, hf⟩
  · rintro (⟨hc, hf⟩ | ⟨hc, before, d, after, rfl, hbefore, hd, hf⟩)
    · exact ⟨[], c, cs, rfl, by simp, hc, hf⟩
    · refine ⟨c :: before, d, after, rfl, ?_, hd, hf⟩
      intro e he
      rcases List.mem_cons.1 he with rfl | he
      · exact hc
      · exact hbefore e he

theorem firstBroken_singleton {c : Constraint} {f : Fault} :
    FirstBroken [c] f ↔ ¬ c.holds ∧ f = c.fault := by
  simp [firstBroken_cons, not_firstBroken_nil]

theorem firstBroken_append {cs ds : List Constraint} {f : Fault} :
    FirstBroken (cs ++ ds) f ↔
      FirstBroken cs f ∨ ((∀ c ∈ cs, c.holds) ∧ FirstBroken ds f) := by
  induction cs with
  | nil => simp [not_firstBroken_nil]
  | cons c cs ih =>
    rw [List.cons_append, firstBroken_cons, firstBroken_cons, ih, List.forall_mem_cons]
    constructor
    · rintro (hc | ⟨hc, hcs | ⟨hcs, hds⟩⟩)
      · exact .inl (.inl hc)
      · exact .inl (.inr ⟨hc, hcs⟩)
      · exact .inr ⟨⟨hc, hcs⟩, hds⟩
    · rintro ((hc | ⟨hc, hcs⟩) | ⟨⟨hc, hcs⟩, hds⟩)
      · exact .inl hc
      · exact .inr ⟨hc, .inl hcs⟩
      · exact .inr ⟨hc, .inr ⟨hcs, hds⟩⟩

/-- Either all constraints hold, or one of them is the first that does not. -/
theorem forall_holds_or_exists_firstBroken (cs : List Constraint) :
    (∀ c ∈ cs, c.holds) ∨ ∃ f, FirstBroken cs f := by
  induction cs with
  | nil => exact .inl (by simp)
  | cons c cs ih =>
    by_cases hc : c.holds
    · rcases ih with hcs | ⟨f, hf⟩
      · exact .inl (List.forall_mem_cons.2 ⟨hc, hcs⟩)
      · exact .inr ⟨f, firstBroken_cons.2 (.inr ⟨hc, hf⟩)⟩
    · exact .inr ⟨c.fault, firstBroken_cons.2 (.inl ⟨hc, rfl⟩)⟩

theorem FirstBroken.exists_mem {cs : List Constraint} {f : Fault} (h : FirstBroken cs f) :
    ∃ c ∈ cs, ¬ c.holds ∧ f = c.fault := by
  obtain ⟨before, c, after, rfl, -, hc, hf⟩ := h
  exact ⟨c, by simp, hc, hf⟩

/-- A computation that looks at constraints in order: it fails with the fault of the first that
does not hold, and otherwise returns a value with a property. -/
structure Enforces (cs : List Constraint) (x : Except Fault α) (post : α → Prop) : Prop where
  returns : (∀ c ∈ cs, c.holds) → ∃ a, x = .ok a ∧ post a
  fails : ∀ f, FirstBroken cs f → x = .error f

section
variable {cs ds : List Constraint} {c : Constraint} {x : Except Fault α} {post : α → Prop}

theorem Enforces.exists_ok_iff (h : Enforces cs x post) :
    (∃ a, x = .ok a) ↔ ∀ c ∈ cs, c.holds := by
  constructor
  · rintro ⟨a, rfl⟩
    rcases forall_holds_or_exists_firstBroken cs with hcs | ⟨f, hf⟩
    · exact hcs
    · cases h.fails f hf
  · intro hcs
    obtain ⟨a, ha, -⟩ := h.returns hcs
    exact ⟨a, ha⟩

theorem Enforces.eq_error_iff (h : Enforces cs x post) {f : Fault} :
    x = .error f ↔ FirstBroken cs f := by
  constructor
  · rintro rfl
    rcases forall_holds_or_exists_firstBroken cs with hcs | ⟨f', hf⟩
    · obtain ⟨a, ha, -⟩ := h.returns hcs
      cases ha
    · cases h.fails f' hf
      exact hf
  · exact h.fails f

theorem Enforces.post_of_ok (h : Enforces cs x post) {a : α} (ha : x = .ok a) : post a := by
  obtain ⟨b, hb, hpost⟩ := h.returns (h.exists_ok_iff.1 ⟨a, ha⟩)
  cases ha.symm.trans hb
  exact hpost

theorem Enforces.mono {post' : α → Prop} (h : Enforces cs x post) (hpost : ∀ a, post a → post' a) :
    Enforces cs x post' where
  returns hcs := by
    obtain ⟨a, ha, hp⟩ := h.returns hcs
    exact ⟨a, ha, hpost a hp⟩
  fails := h.fails

theorem enforces_nil : Enforces [] x post ↔ ∃ a, x = .ok a ∧ post a := by
  constructor
  · intro h
    exact h.returns (by simp)
  · intro h
    exact ⟨fun _ => h, fun f hf => absurd hf not_firstBroken_nil⟩

theorem enforces_cons :
    Enforces (c :: cs) x post ↔
      (c.holds → Enforces cs x post) ∧ (¬ c.holds → x = .error c.fault) := by
  constructor
  · intro h
    refine ⟨fun hc => ⟨fun hcs => ?_, fun f hf => ?_⟩, fun hc => ?_⟩
    · exact h.returns (List.forall_mem_cons.2 ⟨hc, hcs⟩)
    · exact h.fails f (firstBroken_cons.2 (.inr ⟨hc, hf⟩))
    · exact h.fails _ (firstBroken_cons.2 (.inl ⟨hc, rfl⟩))
  · rintro ⟨hholds, hbroken⟩
    refine ⟨fun hcs => ?_, fun f hf => ?_⟩
    · obtain ⟨hc, hcs⟩ := List.forall_mem_cons.1 hcs
      exact (hholds hc).returns hcs
    · rcases firstBroken_cons.1 hf with ⟨hc, rfl⟩ | ⟨hc, hcs⟩
      · exact hbroken hc
      · exact (hholds hc).fails f hcs

theorem enforces_ok {a : α} (h : post a) : Enforces [] (.ok a) post :=
  enforces_nil.2 ⟨a, rfl, h⟩

/-- Behind a constraint that does not hold, nothing else is looked at. -/
theorem enforces_of_broken (h : ¬ c.holds) (hx : x = .error c.fault) :
    Enforces (c :: cs) x post :=
  enforces_cons.2 ⟨fun hc => absurd hc h, fun _ => hx⟩

theorem enforces_of_holds (h : c.holds) (hx : Enforces cs x post) : Enforces (c :: cs) x post :=
  enforces_cons.2 ⟨fun _ => hx, fun hc => absurd h hc⟩

/-- Of two computations in sequence, the second one looks at its constraints when those of the
first hold. -/
theorem Enforces.bind {k : α → Except Fault β} {post' : β → Prop} (hx : Enforces cs x post)
    (hk : ∀ a, post a → Enforces ds (k a) post') : Enforces (cs ++ ds) (x >>= k) post' where
  returns hholds := by
    obtain ⟨hcs, hds⟩ := List.forall_mem_append.1 hholds
    obtain ⟨a, rfl, ha⟩ := hx.returns hcs
    exact (hk a ha).returns hds
  fails f hf := by
    rcases firstBroken_append.1 hf with hf | ⟨hcs, hf⟩
    · rw [hx.fails f hf]
      rfl
    · obtain ⟨a, rfl, ha⟩ := hx.returns hcs
      exact (hk a ha).fails f hf

theorem Enforces.map {g : α → β} {post' : β → Prop} (hx : Enforces cs x post)
    (hg : ∀ a, post a → post' (g a)) : Enforces cs (x >>= fun a => pure (g a)) post' := by
  rw [← List.append_nil cs]
  exact hx.bind fun a ha => enforces_ok (hg a ha)

/-- A check of all elements of a list looks at the constraints of one after the other. The
constraints may come from what the elements stand for. -/
theorem Enforces.forM {R : β → α → Prop} {f : α → Except Fault Unit}
    {constraints : β → List Constraint} {bs : List β} {as : List α} (h : List.Forall₂ R bs as)
    (hf : ∀ b a, R b a → Enforces (constraints b) (f a) fun _ => True) :
    Enforces (bs.flatMap constraints) (as.forM f) fun _ => True := by
  induction h with
  | nil => exact enforces_ok trivial
  | cons hab _ ih =>
    rw [List.flatMap_cons]
    exact (hf _ _ hab).bind fun _ _ => ih

end

/-! ## Recorded computations -/

namespace Recorded

/-- What a recorded computation returns, or its fault. -/
def outcome (x : Recorded α) (log : Log) : Except Fault α :=
  match x log with
  | .ok a _ => .ok a
  | .error f _ => .error f

theorem outcome_eq_ok {x : Recorded α} {log : Log} {a : α} :
    x.outcome log = .ok a ↔ ∃ log', x log = .ok a log' := by
  unfold outcome
  cases x log <;> simp

theorem outcome_eq_error {x : Recorded α} {log : Log} {f : Fault} :
    x.outcome log = .error f ↔ ∃ log', x log = .error f log' := by
  unfold outcome
  cases x log <;> simp

@[simp] theorem outcome_ofExcept (x : Except Fault α) (log : Log) :
    (ofExcept x).outcome log = x := by
  cases x <;> rfl

/-- The second of two computations runs with the events that the first one left. -/
theorem exists_outcome_bind (x : Recorded α) (log : Log) :
    ∃ log', ∀ k : α → Recorded β,
      (x >>= k).outcome log = x.outcome log >>= fun a => (k a).outcome log' := by
  cases h : x log with
  | ok a log' =>
    refine ⟨log', fun k => ?_⟩
    rw [outcome, bind_run_of_ok h, outcome_eq_ok.2 ⟨log', h⟩]
    rfl
  | error f log' =>
    refine ⟨log', fun k => ?_⟩
    rw [outcome, bind_run_of_error h, outcome_eq_error.2 ⟨log', h⟩]
    rfl

/-- A recorded computation that looks at constraints in order, whatever was recorded before. -/
def Enforces (cs : List Constraint) (x : Recorded α) (post : α → Prop) : Prop :=
  ∀ log, RandomDerivation.Enforces cs (x.outcome log) post

section
variable {cs ds : List Constraint} {x : Recorded α} {post : α → Prop}

theorem enforces_ofExcept {x : Except Fault α} (h : RandomDerivation.Enforces cs x post) :
    Enforces cs (ofExcept x) post := by
  intro log
  rw [outcome_ofExcept]
  exact h

theorem enforces_pure {a : α} (h : post a) : Enforces [] (pure a) post :=
  fun _ => enforces_ok h

theorem Enforces.bind {k : α → Recorded β} {post' : β → Prop} (hx : Enforces cs x post)
    (hk : ∀ a, post a → Enforces ds (k a) post') : Enforces (cs ++ ds) (x >>= k) post' := by
  intro log
  obtain ⟨log', hlog⟩ := exists_outcome_bind x log
  rw [hlog]
  exact (hx log).bind fun a ha => hk a ha log'

/-- A loop over a list looks at the constraints of one element after the other. An invariant
relates the elements that are done to what the loop has made of them. -/
theorem Enforces.foldlM (inv : List β → α → Prop) {step : α → β → Recorded α}
    {constraints : β → List Constraint} {xs : List β} {s : α}
    (hstep : ∀ done x rest s, xs = done ++ x :: rest → inv done s →
      Enforces (constraints x) (step s x) (inv (done ++ [x])))
    (hs : inv [] s) : Enforces (xs.flatMap constraints) (xs.foldlM step s) (inv xs) := by
  have hrest : ∀ rest done s, xs = done ++ rest → inv done s →
      Enforces (rest.flatMap constraints) (rest.foldlM step s) (inv xs) := by
    intro rest
    induction rest with
    | nil =>
      intro done s hxs hdone
      rw [hxs, List.append_nil]
      exact enforces_pure hdone
    | cons x rest ih =>
      intro done s hxs hdone
      rw [List.flatMap_cons, List.foldlM_cons]
      apply (hstep done x rest s hxs hdone).bind
      intro s' hs'
      exact ih (done ++ [x]) s' (by simpa using hxs) hs'
  exact hrest xs [] s rfl hs

end

end Recorded

end RandomDerivation
