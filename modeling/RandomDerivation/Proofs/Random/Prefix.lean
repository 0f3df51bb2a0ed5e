import RandomDerivation.Proofs.Random.Attains

/-!
# Which words a draw reads

From a list of words a draw takes some from the front and returns, or it comes to the end of the
list. What it returns depends on nothing but the words that it takes: with other words behind them
it returns the same, and with only some of them it comes to the end. A number below a bound is
drawn by as many attempts as there are words, and each attempt takes a word, so that the number of
attempts that are allowed never makes a draw fail before the end.
-/

namespace RandomDerivation
variable {σ α β : Type} {place : Source → σ}

/-- A computation takes all of the words and fails for want of another one. -/
def Exhausts (place : Source → σ) (x : EStateM Fault σ α) (left : List UInt32)
    (spare : Option Float) : Prop :=
  ∃ spare', x (place ⟨.listed left, spare⟩) = .error .exhausted (place ⟨.listed [], spare'⟩)

/-- A computation returns `a` and reads the words `used` and nothing behind them. When some of
these words are missing at the end, it takes the others and fails. -/
structure Reads (place : Source → σ) (x : EStateM Fault σ α) (used : List UInt32)
    (spare : Option Float) (a : α) (spare' : Option Float) : Prop where
  returns : ∀ rest,
    x (place ⟨.listed (used ++ rest), spare⟩) = .ok a (place ⟨.listed rest, spare'⟩)
  exhausts : ∀ front missing, used = front ++ missing → missing ≠ [] →
    Exhausts place x front spare

/-- From a list of words a computation reads some from the front, or all of them and fails. -/
inductive ReadsFrom (place : Source → σ) (x : EStateM Fault σ α) (left : List UInt32)
    (spare : Option Float) : Prop where
  | reads {used rest : List UInt32} {a : α} {spare' : Option Float} :
    left = used ++ rest → Reads place x used spare a spare' → ReadsFrom place x left spare
  | exhausts : Exhausts place x left spare → ReadsFrom place x left spare

/-- From every list of words a computation reads some from the front, or all of them and fails. -/
def ReadsPrefix (place : Source → σ) (x : EStateM Fault σ α) : Prop :=
  ∀ left spare, ReadsFrom place x left spare

section
variable {x : EStateM Fault σ α} {f : α → EStateM Fault σ β} {left used later : List UInt32}
  {spare spare₁ spare' : Option Float} {a : α} {b : β} {μ : Type} {memory : μ} {d : Draw α}

theorem Exhausts.bind (h : Exhausts place x left spare) : Exhausts place (x >>= f) left spare := by
  obtain ⟨spare', hrun⟩ := h
  exact ⟨spare', bind_run_of_error hrun f⟩

theorem Exhausts.draw (h : Exhausts id d left spare) :
    Exhausts (World.around memory) (RandomDerivation.draw d) left spare := by
  obtain ⟨spare', hrun⟩ := h
  rw [id_eq, id_eq] at hrun
  exact ⟨spare', by simp only [RandomDerivation.draw, World.around, hrun]⟩

namespace Reads

/-- A computation that takes no words. -/
theorem of_nil
    (h : ∀ rest, x (place ⟨.listed rest, spare⟩) = .ok a (place ⟨.listed rest, spare'⟩)) :
    Reads place x [] spare a spare' where
  returns := h
  exhausts _ _ hsplit hmissing := absurd (List.append_eq_nil_iff.1 hsplit.symm).2 hmissing

theorem pure (a : α) (spare : Option Float) : Reads place (Pure.pure a) [] spare a spare :=
  of_nil fun _ => rfl

/-- After the first computation, the second one comes to the end of the words. -/
theorem bind_exhausts (hx : Reads place x used spare a spare₁)
    (hf : Exhausts place (f a) later spare₁) :
    Exhausts place (x >>= f) (used ++ later) spare := by
  obtain ⟨spare', hrun⟩ := hf
  exact ⟨spare', (bind_run_of_ok (hx.returns later) f).trans hrun⟩

/-- The words of a sequence are those of the first computation and behind them those of the
second. -/
theorem bind (hx : Reads place x used spare a spare₁)
    (hf : Reads place (f a) later spare₁ b spare') :
    Reads place (x >>= f) (used ++ later) spare b spare' where
  returns rest := by
    rw [List.append_assoc, bind_run_of_ok (hx.returns _)]
    exact hf.returns rest
  exhausts front missing hsplit hmissing := by
    rcases List.append_eq_append_iff.1 hsplit with ⟨front', rfl, hlater⟩ | ⟨missing', hused, rfl⟩
    · exact hx.bind_exhausts (hf.exhausts front' missing hlater hmissing)
    · -- Words of the first computation are missing, or just all of the second.
      by_cases hnone : missing' = []
      · subst hnone
        rw [List.append_nil] at hused
        subst hused
        have hend := hx.bind_exhausts (hf.exhausts [] later rfl (by simpa using hmissing))
        rwa [List.append_nil] at hend
      · exact (hx.exhausts front missing' hused hnone).bind

/-- A computation that acts alike on all lists of words reads the same words. -/
theorem congr {y : EStateM Fault σ α}
    (h : ∀ left spare, x (place ⟨.listed left, spare⟩) = y (place ⟨.listed left, spare⟩))
    (hy : Reads place y used spare a spare') : Reads place x used spare a spare' where
  returns rest := (h _ _).trans (hy.returns rest)
  exhausts front missing hsplit hmissing := by
    obtain ⟨spare', hrun⟩ := hy.exhausts front missing hsplit hmissing
    exact ⟨spare', (h _ _).trans hrun⟩

theorem draw (hd : Reads id d used spare a spare') :
    Reads (World.around memory) (RandomDerivation.draw d) used spare a spare' where
  returns rest := by
    have hrun := hd.returns rest
    rw [id_eq, id_eq] at hrun
    simp only [RandomDerivation.draw, World.around, hrun]
  exhausts front missing hsplit hmissing := (hd.exhausts front missing hsplit hmissing).draw

end Reads

namespace ReadsFrom

theorem bind (hx : ReadsFrom place x left spare)
    (hf : ∀ used rest a spare₁, left = used ++ rest → Reads place x used spare a spare₁ →
      ReadsFrom place (f a) rest spare₁) : ReadsFrom place (x >>= f) left spare := by
  cases hx with
  | @reads used rest a spare₁ hsplit hreads =>
    subst hsplit
    cases hf used rest a spare₁ rfl hreads with
    | reads hrest hlater =>
      subst hrest
      exact .reads (List.append_assoc _ _ _).symm (hreads.bind hlater)
    | exhausts hend => exact .exhausts (hreads.bind_exhausts hend)
  | exhausts hend => exact .exhausts hend.bind

/-- Sequences with the same first part act alike when their second parts do, behind the words
that the first part reads. -/
theorem bind_congr {e : α → EStateM Fault σ β} (hx : ReadsFrom place x left spare)
    (h : ∀ used rest a spare₁, left = used ++ rest → Reads place x used spare a spare₁ →
      f a (place ⟨.listed rest, spare₁⟩) = e a (place ⟨.listed rest, spare₁⟩)) :
    (x >>= f) (place ⟨.listed left, spare⟩) = (x >>= e) (place ⟨.listed left, spare⟩) := by
  cases hx with
  | @reads used rest a spare₁ hsplit hreads =>
    subst hsplit
    rw [bind_run_of_ok (hreads.returns rest), bind_run_of_ok (hreads.returns rest)]
    exact h used rest a spare₁ rfl hreads
  | exhausts hend =>
    obtain ⟨spare', hrun⟩ := hend
    rw [bind_run_of_error hrun, bind_run_of_error hrun]

theorem congr {y : EStateM Fault σ α}
    (h : ∀ left spare, x (place ⟨.listed left, spare⟩) = y (place ⟨.listed left, spare⟩))
    (hy : ReadsFrom place y left spare) : ReadsFrom place x left spare := by
  cases hy with
  | reads hsplit hreads => exact .reads hsplit (hreads.congr h)
  | exhausts hend =>
    obtain ⟨spare', hrun⟩ := hend
    exact .exhausts ⟨spare', (h _ _).trans hrun⟩

end ReadsFrom

namespace ReadsPrefix

theorem pure (a : α) : ReadsPrefix place (Pure.pure a) :=
  fun left spare => .reads (List.nil_append left).symm (Reads.pure a spare)

/-- A sequence reads words from the front if both of its parts do, the second one after whatever
the first one can return. -/
theorem bind (hx : ReadsPrefix place x)
    (hf : ∀ s a s', x s = .ok a s' → ReadsPrefix place (f a)) : ReadsPrefix place (x >>= f) := by
  intro left spare
  apply (hx left spare).bind
  intro used rest a spare₁ _ hreads
  exact hf _ a _ (hreads.returns rest) rest spare₁

/-- What is made from the result of a computation. -/
theorem map (hx : ReadsPrefix place x) (f : α → β) : ReadsPrefix place (do return f (← x)) :=
  hx.bind fun _ a _ _ => ReadsPrefix.pure (f a)

/-- A computation that returns has read some of the words from the front. -/
theorem reads_of_ok (hx : ReadsPrefix place x) {s' : σ}
    (h : x (place ⟨.listed left, spare⟩) = .ok a s') :
    ∃ used rest spare', left = used ++ rest ∧ s' = place ⟨.listed rest, spare'⟩ ∧
      Reads place x used spare a spare' := by
  cases hx left spare with
  | @reads used rest b spare' hsplit hreads =>
    subst hsplit
    rw [hreads.returns rest] at h
    cases h
    exact ⟨used, rest, spare', rfl, rfl, hreads⟩
  | exhausts hend =>
    obtain ⟨spare', hrun⟩ := hend
    rw [hrun] at h
    cases h

/-- A computation fails at the end of the words only, and leaves none of them. -/
theorem eq_error (hx : ReadsPrefix place x) {f : Fault} {s' : σ}
    (h : x (place ⟨.listed left, spare⟩) = .error f s') :
    f = .exhausted ∧ ∃ spare', s' = place ⟨.listed [], spare'⟩ := by
  cases hx left spare with
  | @reads used rest a spare' hsplit hreads =>
    subst hsplit
    rw [hreads.returns rest] at h
    cases h
  | exhausts hend =>
    obtain ⟨spare', hrun⟩ := hend
    rw [hrun] at h
    cases h
    exact ⟨rfl, spare', rfl⟩

/-- A draw from the source of a world. -/
theorem draw (hd : ReadsPrefix id d) :
    ReadsPrefix (World.around memory) (RandomDerivation.draw d) := by
  intro left spare
  cases hd left spare with
  | reads hsplit hreads => exact .reads hsplit hreads.draw
  | exhausts hend => exact .exhausts hend.draw

end ReadsPrefix

end

/-! ## Whole numbers -/

section
variable {n k : Nat} {left : List UInt32} {spare : Option Float}

theorem reads_word (w : UInt32) (spare : Option Float) :
    Reads id Source.word [w] spare w spare where
  returns _ := rfl
  exhausts front missing hsplit hmissing := by
    cases front with
    | nil => exact ⟨spare, rfl⟩
    | cons v front' =>
      obtain ⟨-, hnil⟩ := List.cons_eq_cons.1 hsplit
      exact absurd (List.append_eq_nil_iff.1 hnil.symm).2 hmissing

theorem readsPrefix_word : ReadsPrefix id Source.word := by
  intro left spare
  cases left with
  | nil => exact .exhausts ⟨spare, rfl⟩
  | cons w rest => exact .reads rfl (reads_word w spare)

theorem readsPrefix_bits (k : Nat) : ReadsPrefix id (Draw.bits k) := by
  induction k using Nat.strongRecOn with
  | ind k ih =>
    rw [Draw.bits]
    split
    · exact ReadsPrefix.pure 0
    split
    · exact readsPrefix_word.map _
    · apply readsPrefix_word.bind
      intro _ low _ _
      exact (ih (k - 32) (by omega)).map _

/-- Drawing bits takes a word at least. -/
theorem length_lt_of_bits (hk : 0 < k) {used rest : List UInt32} {r : Nat}
    {spare' : Option Float} (hsplit : left = used ++ rest)
    (h : Reads id (Draw.bits k) used spare r spare') : rest.length < left.length := by
  cases used with
  | nil =>
    have hrun := h.returns []
    rw [List.append_nil, id_eq, bits_listed_nil hk] at hrun
    cases hrun
  | cons w used =>
    rw [hsplit, List.cons_append, List.length_cons, List.length_append]
    omega

theorem attempts_listed_nil (hk : 0 < k) (fuel : Nat) (spare : Option Float) :
    Draw.attempts n k fuel ⟨.listed [], spare⟩ = .error .exhausted ⟨.listed [], spare⟩ := by
  cases fuel with
  | zero => rfl
  | succ fuel => exact bind_run_of_error (bits_listed_nil hk spare) _

/-- With at least as many attempts as there are words, it does not matter how many they are. -/
theorem attempts_listed (hk : 0 < k) {fuel fuel' : Nat} (hfuel : left.length ≤ fuel)
    (hfuel' : left.length ≤ fuel') :
    Draw.attempts n k fuel ⟨.listed left, spare⟩ =
      Draw.attempts n k fuel' ⟨.listed left, spare⟩ := by
  induction fuel generalizing left spare fuel' with
  | zero =>
    obtain rfl := List.eq_nil_of_length_eq_zero (Nat.le_zero.1 hfuel)
    rw [attempts_listed_nil hk, attempts_listed_nil hk]
  | succ fuel ih =>
    cases fuel' with
    | zero =>
      obtain rfl := List.eq_nil_of_length_eq_zero (Nat.le_zero.1 hfuel')
      rw [attempts_listed_nil hk, attempts_listed_nil hk]
    | succ fuel' =>
      rw [Draw.attempts, Draw.attempts]
      apply (readsPrefix_bits k left spare).bind_congr
      intro used rest r spare₁ hsplit hreads
      have hshorter := length_lt_of_bits hk hsplit hreads
      split
      · rfl
      · exact ih (by omega) (by omega)

/-- A number below a bound from a list of words: one attempt, and if it fails the same again. -/
theorem below_listed (hn : 0 < n) (left : List UInt32) (spare : Option Float) :
    Draw.below n ⟨.listed left, spare⟩ =
      (Draw.bits (Draw.bitLength n) >>= fun r =>
        if h : r < n then pure ⟨r, h⟩ else Draw.below n) ⟨.listed left, spare⟩ := by
  have hk := bitLength_pos hn
  -- One more attempt than there are words is as good, and shows the first one.
  have hmore : Draw.below n ⟨.listed left, spare⟩ =
      Draw.attempts n (Draw.bitLength n) (left.length + 1) ⟨.listed left, spare⟩ :=
    attempts_listed hk (Nat.le_refl _) (Nat.le_succ _)
  rw [hmore, Draw.attempts]
  apply (readsPrefix_bits (Draw.bitLength n) left spare).bind_congr
  intro used rest r spare₁ hsplit hreads
  split
  · rfl
  · exact attempts_listed hk (Nat.le_of_lt (length_lt_of_bits hk hsplit hreads)) (Nat.le_refl _)

/-- A number below a positive bound: every attempt takes a word, so that the attempts come to an
end with the words. -/
theorem readsPrefix_below (hn : 0 < n) : ReadsPrefix id (Draw.below n) := by
  intro left
  induction hlength : left.length using Nat.strongRecOn generalizing left with
  | ind length ih =>
    intro spare
    apply ReadsFrom.congr (below_listed hn)
    apply (readsPrefix_bits (Draw.bitLength n) left spare).bind
    intro used rest r spare₁ hsplit hreads
    split
    · exact ReadsPrefix.pure _ rest spare₁
    · have hshorter := length_lt_of_bits (bitLength_pos hn) hsplit hreads
      exact ih rest.length (hlength ▸ hshorter) rest rfl spare₁

end

theorem readsPrefix_unit : ReadsPrefix id Draw.unit := by
  have hnumerator : ReadsPrefix id Draw.unitNumerator := by
    apply readsPrefix_word.bind
    intro _ a _ _
    exact readsPrefix_word.map _
  exact hnumerator.map _

/-- Keeping a normal value takes no word. -/
theorem readsPrefix_keep (z : Float) :
    ReadsPrefix id (modify fun s => { s with spare := some z } : Draw Unit) :=
  fun left _ => .reads (List.nil_append left).symm (Reads.of_nil fun _ => rfl)

theorem readsPrefix_normalPair : ReadsPrefix id Draw.normalPair := by
  apply readsPrefix_unit.bind
  intro _ _ _ _
  apply readsPrefix_unit.bind
  intro _ _ _ _
  apply (readsPrefix_keep _).bind
  intro _ _ _ _
  exact ReadsPrefix.pure _

/-- A normal value that is kept takes no words. -/
theorem readsPrefix_normal : ReadsPrefix id Draw.normal := by
  intro left spare
  cases spare with
  | some z =>
    have hkept : Reads id Draw.normal [] (some z) z none := Reads.of_nil fun _ => rfl
    exact .reads (List.nil_append left).symm hkept
  | none =>
    cases readsPrefix_normalPair left none with
    | reads hsplit hreads => exact .reads hsplit ⟨hreads.returns, hreads.exhausts⟩
    | exhausts hend => exact .exhausts hend

/-- The values of producers: the bounds of a range are in order and a choice is not empty, so that
the bound of what is drawn is positive. -/
theorem Producer.readsPrefix_draw (p : Producer) : ReadsPrefix id p.draw := by
  cases p with
  | const value => exact ReadsPrefix.pure value
  | uniform low high => exact (readsPrefix_unit.map _).map _
  | randint low high h =>
    have hpos : 0 < (high - low + 1).toNat := by omega
    exact ((readsPrefix_below hpos).map _).map _
  | choice first others => exact (readsPrefix_below (Nat.succ_pos others.length)).map _
  | gauss mu sigma => exact (readsPrefix_normal.map _).map _

end RandomDerivation
