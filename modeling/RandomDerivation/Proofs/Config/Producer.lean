import RandomDerivation.Config.Producer
import RandomDerivation.Proofs.Config.Field

/-!
# Which values describe producers

An object describes a producer by its type and the members that the type needs. What has to hold
of them is listed in the order in which it is looked at, and the parser enforces this list.
-/

namespace RandomDerivation

namespace Producer

/-- A value describes a producer: an object of one of five types. Bounds, mean and deviation of
reals may be absent, and stand for the nearest doubles if they are whole numbers. -/
inductive Describes : Json → Producer → Prop where
  | const {members : List (String × Json)} {value : Json} :
    members.lookup "type" = some (.str "const") → members.lookup "value" = some value →
      Describes (.obj members) (.const value)
  | uniform {members : List (String × Json)} {low high : Float} :
    members.lookup "type" = some (.str "uniform") →
      (Field.get members "low" (.float 0.0)).number? = some low →
      (Field.get members "high" (.float 1.0)).number? = some high → low ≤ high →
      Describes (.obj members) (.uniform low high)
  | randint {members : List (String × Json)} {low high : Int} (h : low ≤ high) :
    members.lookup "type" = some (.str "randint") → members.lookup "low" = some (.int low) →
      members.lookup "high" = some (.int high) → Describes (.obj members) (.randint low high h)
  | choice {members : List (String × Json)} {first : Json} {others : List Json} :
    members.lookup "type" = some (.str "choice") →
      members.lookup "values" = some (.arr (first :: others)) →
      Describes (.obj members) (.choice first others)
  | gauss {members : List (String × Json)} {mu sigma : Float} :
    members.lookup "type" = some (.str "gauss") →
      (Field.get members "mu" (.float 0.0)).number? = some mu →
      (Field.get members "sigma" (.float 1.0)).number? = some sigma → 0.0 ≤ sigma →
      Describes (.obj members) (.gauss mu sigma)

section
variable (path : String) (members : List (String × Json))

/-- What has to hold of the members of a producer of a given type. -/
def typeConstraints : String → List Constraint
  | "const" => [⟨members.lookup "value" ≠ none, .config (path ++ ".value") .missing⟩]
  | "uniform" =>
    let low := Field.get members "low" (.float 0.0)
    let high := Field.get members "high" (.float 1.0)
    Field.isNumber (path ++ ".low") low ++ (Field.isNumber (path ++ ".high") high ++
      [⟨∀ x y, low.number? = some x → high.number? = some y → x ≤ y,
        .config (path ++ ".low") (.above (path ++ ".high"))⟩])
  | "randint" =>
    let low := Field.get members "low"
    let high := Field.get members "high"
    [Field.isInteger (path ++ ".low") low,
      Field.isInteger (path ++ ".high") high,
      ⟨∀ m n, low = .int m → high = .int n → m ≤ n,
        .config (path ++ ".low") (.above (path ++ ".high"))⟩]
  | "choice" =>
    let values := Field.get members "values"
    [Field.isArray (path ++ ".values") values,
      ⟨values ≠ .arr [], .config (path ++ ".values") .empty⟩]
  | "gauss" =>
    let mu := Field.get members "mu" (.float 0.0)
    let sigma := Field.get members "sigma" (.float 1.0)
    Field.isNumber (path ++ ".mu") mu ++ (Field.isNumber (path ++ ".sigma") sigma ++
      [⟨∀ x, sigma.number? = some x → 0.0 ≤ x, .config (path ++ ".sigma") .negative⟩])
  | other => [⟨other ∈ types, .config (path ++ ".type") (.unknownType types other)⟩]

variable {path members} in
theorem typeConstraints_of_not_mem {word : String} (h : word ∉ types) :
    typeConstraints path members word =
      [⟨word ∈ types, .config (path ++ ".type") (.unknownType types word)⟩] := by
  unfold typeConstraints
  split
  case h_6 => rfl
  all_goals simp [types] at h

end

/-- What has to hold of a value at the given path for it to describe a producer. -/
def constraints (path : String) (value : Json) : List Constraint :=
  let type := Field.get value.entries "type"
  Field.isObject path value :: Field.isString (path ++ ".type") type ::
    match type with
    | .str word => typeConstraints path value.entries word
    | _ => []

section
variable {path : String} {members : List (String × Json)}

theorem lookup_type {word : String} (h : Field.get members "type" = .str word) :
    members.lookup "type" = some (.str word) :=
  (Field.get_eq_iff (by simp)).1 h

theorem enforces_parseConst (htype : Field.get members "type" = .str "const") :
    Enforces (typeConstraints path members "const") (parseConst path members)
      (Describes (.obj members)) := by
  unfold parseConst
  cases h : members.lookup "value" with
  | some value =>
    refine enforces_of_holds ?_ (enforces_ok (.const (lookup_type htype) h))
    simp [h]
  | none => exact enforces_of_broken (fun hvalue => hvalue h) rfl

theorem enforces_parseUniform (htype : Field.get members "type" = .str "uniform") :
    Enforces (typeConstraints path members "uniform") (parseUniform path members)
      (Describes (.obj members)) := by
  apply (Field.enforces_number _ _).bind
  intro low hlow
  apply (Field.enforces_number _ _).bind
  intro high hhigh
  have horder : (decide (low ≤ high)) = true ↔
      ∀ x y, (Field.get members "low" (.float 0.0)).number? = some x →
        (Field.get members "high" (.float 1.0)).number? = some y → x ≤ y := by
    simp [hlow, hhigh]
  apply (Field.enforces_ensure horder _ _).map
  intro _ hordered
  exact .uniform (lookup_type htype) hlow hhigh (hordered low high hlow hhigh)

theorem enforces_parseRandint (htype : Field.get members "type" = .str "randint") :
    Enforces (typeConstraints path members "randint") (parseRandint path members)
      (Describes (.obj members)) := by
  apply (Field.enforces_integer _ _).bind
  intro low hlow
  apply (Field.enforces_integer _ _).bind
  intro high hhigh
  by_cases h : low ≤ high
  · rw [dif_pos h]
    refine enforces_of_holds ?_ (enforces_ok ?_)
    · simpa [hlow, hhigh] using h
    · exact .randint h (lookup_type htype) ((Field.get_eq_iff (by simp)).1 hlow)
        ((Field.get_eq_iff (by simp)).1 hhigh)
  · rw [dif_neg h]
    exact enforces_of_broken (fun horder => h (horder low high hlow hhigh)) rfl

theorem enforces_parseChoice (htype : Field.get members "type" = .str "choice") :
    Enforces (typeConstraints path members "choice") (parseChoice path members)
      (Describes (.obj members)) := by
  apply (Field.enforces_array _ _).bind
  intro values hvalues
  cases values with
  | nil => exact enforces_of_broken (fun hne => hne hvalues) rfl
  | cons first others =>
    refine enforces_of_holds ?_ (enforces_ok ?_)
    · simp [hvalues]
    · exact .choice (lookup_type htype) ((Field.get_eq_iff (by simp)).1 hvalues)

theorem enforces_parseGauss (htype : Field.get members "type" = .str "gauss") :
    Enforces (typeConstraints path members "gauss") (parseGauss path members)
      (Describes (.obj members)) := by
  apply (Field.enforces_number _ _).bind
  intro mu hmu
  apply (Field.enforces_number _ _).bind
  intro sigma hsigma
  have hsign : (decide ((0.0 : Float) ≤ sigma)) = true ↔
      ∀ x, (Field.get members "sigma" (.float 1.0)).number? = some x → 0.0 ≤ x := by
    simp [hsigma]
  apply (Field.enforces_ensure hsign _ _).map
  intro _ hpositive
  exact .gauss (lookup_type htype) hmu hsigma (hpositive sigma hsigma)

/-- The parser looks at what has to hold in order, and returns the producer described. -/
theorem enforces_parse (path : String) (value : Json) :
    Enforces (constraints path value) (parse path value) (Describes value) := by
  apply (Field.enforces_object path value).bind
  intro members hvalue
  subst hvalue
  apply (Field.enforces_string _ _).bind
  intro word htype
  simp only [Json.entries] at htype ⊢
  rw [htype]
  simp only
  split
  · exact enforces_parseConst htype
  · exact enforces_parseUniform htype
  · exact enforces_parseRandint htype
  · exact enforces_parseChoice htype
  · exact enforces_parseGauss htype
  · rename_i hconst huniform hrandint hchoice hgauss
    have hunknown : word ∉ types := by
      simp only [types, List.mem_cons, List.not_mem_nil, or_false, not_or]
      exact ⟨hchoice, hconst, hgauss, hrandint, huniform⟩
    rw [typeConstraints_of_not_mem hunknown]
    exact enforces_of_broken hunknown rfl

/-- A producer is found again in every value that describes it. -/
theorem parse_of_describes {value : Json} {p : Producer} (h : Describes value p) :
    parse path value = .ok p := by
  cases h with
  | const htype hvalue =>
    simp [parse, Field.object, Field.get_of_lookup htype, Field.string, parseConst, hvalue, bind,
      Except.bind]
  | uniform htype hlow hhigh horder =>
    simp [parse, Field.object, Field.get_of_lookup htype, Field.string, parseUniform,
      Field.number_of_number? hlow, Field.number_of_number? hhigh, Field.ensure, horder, bind,
      Except.bind, pure, Except.pure]
  | randint h htype hlow hhigh =>
    simp [parse, Field.object, Field.get_of_lookup htype, Field.string, parseRandint,
      Field.get_of_lookup hlow, Field.get_of_lookup hhigh, Field.integer, h, bind, Except.bind,
      pure, Except.pure]
  | choice htype hvalues =>
    simp [parse, Field.object, Field.get_of_lookup htype, Field.string, parseChoice,
      Field.get_of_lookup hvalues, Field.array, bind, Except.bind, pure, Except.pure]
  | gauss htype hmu hsigma hpositive =>
    simp [parse, Field.object, Field.get_of_lookup htype, Field.string, parseGauss,
      Field.number_of_number? hmu, Field.number_of_number? hsigma, Field.ensure, hpositive, bind,
      Except.bind, pure, Except.pure]

/-- A value describes a producer when all that has to hold of it does. -/
theorem exists_describes_iff (path : String) (value : Json) :
    (∃ p, Describes value p) ↔ ∀ c ∈ constraints path value, c.holds := by
  constructor
  · rintro ⟨p, hp⟩
    exact (enforces_parse path value).exists_ok_iff.1 ⟨p, parse_of_describes hp⟩
  · intro h
    obtain ⟨p, -, hp⟩ := (enforces_parse path value).returns h
    exact ⟨p, hp⟩

/-- What is wrong with a value that describes no producer is something about the configuration,
or a whole number in it is too large for a double. -/
theorem fault_of_mem_constraints (path : String) (value : Json) :
    ∀ c ∈ constraints path value,
      (∃ fault, c.fault = .grammar (.config fault)) ∨ c.fault = .numberTooLarge := by
  rw [constraints, List.forall_mem_cons, List.forall_mem_cons]
  refine ⟨.inl ⟨_, rfl⟩, .inl ⟨_, rfl⟩, ?_⟩
  split
  · unfold typeConstraints
    split
    all_goals simp [Field.isNumber, Field.isInteger, Field.isArray, Fault.config]
  · simp

end

end Producer

end RandomDerivation
