import RandomDerivation.Producer
import RandomDerivation.Proofs.Action

/-!
# Why draws fail

A number below a bound cannot be drawn only if the source has no words left. The fault of a
sequence of draws is that of one of its parts, so everything that is drawn word by word fails for
want of words only.
-/

namespace RandomDerivation
variable {α β : Type}

/-- A draw whose only fault is that no words are left. -/
def OnlyExhausts (d : Draw α) : Prop := ∀ s f s', d s = .error f s' → f = .exhausted

namespace OnlyExhausts

theorem pure (a : α) : OnlyExhausts (Pure.pure a) := by
  intro s f s' h
  cases h

theorem bind {d : Draw α} {e : α → Draw β} (hd : OnlyExhausts d) (he : ∀ a, OnlyExhausts (e a)) :
    OnlyExhausts (d >>= e) := by
  intro s f s' h
  cases ha : d s with
  | ok a s₁ =>
    rw [bind_run_of_ok ha] at h
    exact he a s₁ f s' h
  | error f₁ s₁ =>
    rw [bind_run_of_error ha] at h
    cases h
    exact hd s f s' ha

/-- What is made from the result of a draw. -/
theorem map {d : Draw α} (hd : OnlyExhausts d) (e : α → β) :
    OnlyExhausts (do return e (← d)) :=
  hd.bind fun a => OnlyExhausts.pure (e a)

/-- A draw from the source of a world. -/
theorem draw {μ : Type} {d : Draw α} (hd : OnlyExhausts d) {w w' : World μ} {f : Fault}
    (h : RandomDerivation.draw d w = .error f w') : f = .exhausted := by
  rw [RandomDerivation.draw] at h
  cases hrun : d w.source with
  | ok a s => simp [hrun] at h
  | error f₁ s =>
    simp only [hrun, EStateM.Result.error.injEq] at h
    rw [← h.1]
    exact hd _ f₁ s hrun

end OnlyExhausts

theorem onlyExhausts_word : OnlyExhausts Source.word := by
  rintro ⟨words, spare⟩ f s' h
  match words with
  | .seeded twister => cases h
  | .listed [] =>
    cases h
    rfl
  | .listed (w :: left) => cases h

theorem onlyExhausts_bits (k : Nat) : OnlyExhausts (Draw.bits k) := by
  induction k using Nat.strongRecOn with
  | ind k ih =>
    rw [Draw.bits]
    split
    · exact OnlyExhausts.pure 0
    split
    · exact onlyExhausts_word.map _
    · apply onlyExhausts_word.bind
      intro low
      exact (ih (k - 32) (by omega)).map _

theorem onlyExhausts_attempts (n k fuel : Nat) : OnlyExhausts (Draw.attempts n k fuel) := by
  induction fuel with
  | zero =>
    intro s f s' h
    cases h
    rfl
  | succ fuel ih =>
    rw [Draw.attempts]
    apply (onlyExhausts_bits k).bind
    intro r
    split
    · exact OnlyExhausts.pure _
    · exact ih

theorem onlyExhausts_below (n : Nat) : OnlyExhausts (Draw.below n) :=
  fun s => onlyExhausts_attempts n (Draw.bitLength n) s.reach s

end RandomDerivation
