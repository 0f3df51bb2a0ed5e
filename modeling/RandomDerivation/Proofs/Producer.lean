import RandomDerivation.Proofs.Config.Producer
import RandomDerivation.Proofs.Random.Normal
import RandomDerivation.Proofs.Random.Prefix
import RandomDerivation.Proofs.Random.Seeded

/-!
# What producers make

A producer that a document describes makes the values that the document allows. What the document
has been checked for when it was read is what the draws need: a choice is not empty, and the bounds
of a range are in order, so that a number below a positive bound is drawn. A call fails only when
the words of the source come to their end; from a seeded source, which has no end, a number below a
bound may never come.
-/

namespace RandomDerivation

theorem Source.isSeeded_or_listed (s : Source) :
    s.IsSeeded ∨ ∃ left spare, s = ⟨.listed left, spare⟩ := by
  obtain ⟨words, spare⟩ := s
  cases words with
  | seeded twister => exact .inl ⟨twister, spare, rfl⟩
  | listed left => exact .inr ⟨left, spare, rfl⟩

namespace Producer
variable {value : Json} {p : Producer}

/-- From a seeded source a value is made, or a number below a positive bound never comes. -/
theorem draw_seeded (p : Producer) {s : Source} (hs : s.IsSeeded) :
    (∃ v s', p.draw s = .ok v s') ∨
      ∃ n, 0 < n ∧ s.Waits n ∧ ∃ s', p.draw s = .error .exhausted s' := by
  cases p with
  | const value => exact .inl ⟨value, s, rfl⟩
  | uniform low high =>
    obtain ⟨t, spare, rfl⟩ := hs
    exact .inl ⟨_, _, rfl⟩
  | randint low high h =>
    rcases below_seeded (high - low + 1).toNat hs with ⟨i, s', hrun, -⟩ | ⟨hwaits, s', hrun⟩
    · refine .inl ⟨.int (low + i.val), s', ?_⟩
      rw [draw, Draw.range, bind_assoc, bind_run_of_ok hrun]
      rfl
    · refine .inr ⟨_, by omega, hwaits, s', ?_⟩
      rw [draw, Draw.range, bind_assoc, bind_run_of_error hrun]
  | choice first others =>
    rcases below_seeded (others.length + 1) hs with ⟨i, s', hrun, -⟩ | ⟨hwaits, s', hrun⟩
    · refine .inl ⟨(first :: others).get i, s', ?_⟩
      rw [draw, Draw.member, bind_run_of_ok hrun]
      rfl
    · refine .inr ⟨_, Nat.succ_pos _, hwaits, s', ?_⟩
      rw [draw, Draw.member, bind_run_of_error hrun]
  | gauss mu sigma =>
    obtain ⟨t, spare, rfl⟩ := hs
    cases spare with
    | some z => exact .inl ⟨_, _, rfl⟩
    | none => exact .inl ⟨_, _, rfl⟩

/-- A call fails only when no words are left, or when a number below a positive bound would never
come. -/
theorem draw_eq_error {s s' : Source} {f : Fault} (h : p.draw s = .error f s') :
    f = .exhausted ∧ (s'.words = .listed [] ∨ ∃ n, 0 < n ∧ s.Waits n) := by
  rcases s.isSeeded_or_listed with hs | ⟨left, spare, rfl⟩
  · rcases p.draw_seeded hs with ⟨v, s'', hrun⟩ | ⟨n, hn, hwaits, s'', hrun⟩
    · rw [hrun] at h
      cases h
    · rw [hrun] at h
      cases h
      exact ⟨rfl, .inr ⟨n, hn, hwaits⟩⟩
  · obtain ⟨hf, spare', rfl⟩ := p.readsPrefix_draw.eq_error h
    exact ⟨hf, .inl rfl⟩

theorem describes_of_parse {path : String} (h : parse path value = .ok p) : Describes value p :=
  (enforces_parse path value).post_of_ok h

section
variable (h : Describes value p)
include h

theorem Describes.const_of_type (htype : value.member? "type" = some (.str "const")) :
    ∃ v, p = .const v ∧ value.member? "value" = some v := by
  cases h with
  | const _ hvalue => exact ⟨_, rfl, hvalue⟩
  | uniform ht | randint _ ht | choice ht | gauss ht => simp [Json.member?, ht] at htype

theorem Describes.choice_of_type (htype : value.member? "type" = some (.str "choice")) :
    ∃ first others, p = .choice first others ∧
      value.member? "values" = some (.arr (first :: others)) := by
  cases h with
  | choice _ hvalues => exact ⟨_, _, rfl, hvalues⟩
  | const ht | uniform ht | randint _ ht | gauss ht => simp [Json.member?, ht] at htype

theorem Describes.randint_of_type (htype : value.member? "type" = some (.str "randint")) :
    ∃ low high hbounds, p = .randint low high hbounds ∧
      value.member? "low" = some (.int low) ∧ value.member? "high" = some (.int high) := by
  cases h with
  | randint hbounds _ hlow hhigh => exact ⟨_, _, hbounds, rfl, hlow, hhigh⟩
  | const ht | uniform ht | choice ht | gauss ht => simp [Json.member?, ht] at htype

theorem Describes.gauss_of_type (htype : value.member? "type" = some (.str "gauss")) :
    ∃ mu sigma, p = .gauss mu sigma ∧
      ((value.member? "mu").getD (.float 0.0)).number? = some mu ∧
      ((value.member? "sigma").getD (.float 1.0)).number? = some sigma := by
  cases h with
  | gauss _ hmu hsigma => exact ⟨_, _, rfl, hmu, hsigma⟩
  | const ht | uniform ht | randint _ ht | choice ht => simp [Json.member?, ht] at htype

end

/-- What the calls of a producer give, in terms of the document that describes it. -/
structure Obeys (value : Json) (p : Producer) : Prop where
  fails : ∀ s f s', p.draw s = .error f s' →
    f = .exhausted ∧ (s'.words = .listed [] ∨ ∃ n, 0 < n ∧ s.Waits n)
  const : value.member? "type" = some (.str "const") →
    ∃ v, value.member? "value" = some v ∧ ∀ s, p.draw s = .ok v s
  choice : value.member? "type" = some (.str "choice") →
    ∃ values, value.member? "values" = some (.arr values) ∧
      (∀ s v s', p.draw s = .ok v s' → v ∈ values) ∧
      ∀ i : Fin values.length, Attains id p.draw (· = values[i])
  randint : value.member? "type" = some (.str "randint") →
    ∃ low high, value.member? "low" = some (.int low) ∧ value.member? "high" = some (.int high) ∧
      (∀ s v s', p.draw s = .ok v s' → ∃ n, v = .int n ∧ low ≤ n ∧ n ≤ high) ∧
      ∀ n, low ≤ n → n ≤ high → Attains id p.draw (· = .int n)
  /-- Of a new pair of normal values, the logarithm is taken of a positive number `1 - k / 2^53`;
  a value that is kept is given out without one. -/
  gauss : value.member? "type" = some (.str "gauss") →
    ∃ mu sigma, ((value.member? "mu").getD (.float 0.0)).number? = some mu ∧
      ((value.member? "sigma").getD (.float 1.0)).number? = some sigma ∧
      (∀ s z, s.spare = some z →
        p.draw s = .ok (.float (mu + z * sigma)) { s with spare := none }) ∧
      ∀ s v s', s.spare = none → p.draw s = .ok v s' →
        ∃ (angle x : Float) (k : Nat), k < 2 ^ 53 ∧
          Decimal.value? x = some (1 - (k : ℚ) / 2 ^ 53) ∧ 0 < 1 - (k : ℚ) / 2 ^ 53 ∧
          v = .float (mu + Float.cos angle * Draw.radius x * sigma) ∧
          s'.spare = some (Float.sin angle * Draw.radius x)

theorem randint_eq_ok {low high : Int} {hbounds : low ≤ high} {s s' : Source} {v : Json}
    (h : (randint low high hbounds).draw s = .ok v s') : ∃ n, v = .int n ∧ low ≤ n ∧ n ≤ high := by
  cases makes_of_draw rfl h with
  | randint _ hlow hhigh => exact ⟨_, rfl, hlow, hhigh⟩

theorem gauss_of_spare (mu sigma : Float) {s : Source} {z : Float} (h : s.spare = some z) :
    (gauss mu sigma).draw s = .ok (.float (mu + z * sigma)) { s with spare := none } := by
  rw [draw, Draw.gauss, bind_assoc, bind_run_of_ok (Draw.normal_of_spare h)]
  rfl

theorem gauss_of_none {mu sigma : Float} {s s' : Source} {v : Json} (hs : s.spare = none)
    (h : (gauss mu sigma).draw s = .ok v s') :
    ∃ (angle x : Float) (k : Nat), k < 2 ^ 53 ∧
      Decimal.value? x = some (1 - (k : ℚ) / 2 ^ 53) ∧ 0 < 1 - (k : ℚ) / 2 ^ 53 ∧
      v = .float (mu + Float.cos angle * Draw.radius x * sigma) ∧
      s'.spare = some (Float.sin angle * Draw.radius x) := by
  simp only [draw, Draw.gauss, bind_eq_ok, pure_eq_ok] at h
  obtain ⟨_, s₁, ⟨z, s₂, hz, rfl, rfl⟩, rfl, rfl⟩ := h
  rw [Draw.normal_of_none hs] at hz
  obtain ⟨angle, x, k, hk, hx, rfl, hspare⟩ := Draw.normalPair_eq_ok hz
  exact ⟨angle, x, k, hk, hx, Decimal.one_sub_share_pos hk, rfl, hspare⟩

/-- Every producer that is read from a document obeys it. -/
theorem obeys_of_parse {path : String} (h : parse path value = .ok p) : p.Obeys value where
  fails s f s' := draw_eq_error
  const htype := by
    obtain ⟨v, rfl, hvalue⟩ := (describes_of_parse h).const_of_type htype
    exact ⟨v, hvalue, fun s => rfl⟩
  choice htype := by
    obtain ⟨first, others, rfl, hvalues⟩ := (describes_of_parse h).choice_of_type htype
    refine ⟨first :: others, hvalues, fun s v s' => member_eq_ok, fun i => ?_⟩
    exact attains (.choice (List.getElem_mem i.isLt))
  randint htype := by
    obtain ⟨low, high, hbounds, rfl, hlow, hhigh⟩ := (describes_of_parse h).randint_of_type htype
    refine ⟨low, high, hlow, hhigh, fun s v s' => randint_eq_ok, fun n hn hn' => ?_⟩
    exact attains (.randint hbounds hn hn')
  gauss htype := by
    obtain ⟨mu, sigma, rfl, hmu, hsigma⟩ := (describes_of_parse h).gauss_of_type htype
    exact ⟨mu, sigma, hmu, hsigma, fun s z => gauss_of_spare mu sigma, fun s v s' => gauss_of_none⟩

/-- A range around zero with one number more than a word can tell apart. -/
def wideRange : Json :=
  .obj [("type", .str "randint"), ("low", .int (-1)), ("high", .int 4294967295)]

theorem obeys_of_parse_wideRange :
    ∃ p, parse "range" wideRange = .ok p ∧ p.Obeys wideRange ∧
      Attains id p.draw (· = .int (-1)) ∧ Attains id p.draw (· = .int 4294967295) := by
  have hparse : parse "range" wideRange = .ok (.randint (-1) 4294967295 (by decide)) := rfl
  have hobeys := obeys_of_parse hparse
  obtain ⟨_, _, hlow, hhigh, -, hattains⟩ := hobeys.randint rfl
  cases hlow
  cases hhigh
  exact ⟨_, hparse, hobeys, hattains _ (by decide) (by decide), hattains _ (by decide) (by decide)⟩

end Producer

end RandomDerivation
