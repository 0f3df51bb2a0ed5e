import RandomDerivation.Config.Slot
import RandomDerivation.Proofs.Config.Field
import RandomDerivation.Proofs.Slot

/-!
# Which values describe slots

A value describes a slot if it is an object with one member, which names a leaf or a node or lists
at least one alternative, each of them such a value again. What has to hold of a value is listed
depth first and from left to right, and the parser enforces this list. The slot that it returns is
written as the value that was parsed.
-/

namespace RandomDerivation.Slot

/-- A value is put together as those that describe slots are. -/
inductive IsSpec : Json → Prop where
  | leaf (name : String) : IsSpec (.obj [("leaf", .str name)])
  | node (name : String) : IsSpec (.obj [("node", .str name)])
  | choice {alternatives : List Json} :
    alternatives ≠ [] → (∀ a ∈ alternatives, IsSpec a) →
      IsSpec (.obj [("choice", .arr alternatives)])

/-- A value describes a slot without foreign values that is written as this value. -/
def Describes (value : Json) (s : Slot) : Prop := s.IsNative ∧ s.toJson = value

mutual

/-- The references in a value that describes a slot, from left to right. -/
def referencesIn : Json → List Reference
  | .obj [("leaf", .str name)] => [⟨.leaf, name⟩]
  | .obj [("node", .str name)] => [⟨.node, name⟩]
  | .obj [("choice", .arr alternatives)] => referencesInAll alternatives
  | _ => []

/-- The references in several values that describe slots. -/
def referencesInAll : List Json → List Reference
  | [] => []
  | value :: rest => referencesIn value ++ referencesInAll rest

end

/-- What has to hold of the only member of a slot, apart from the alternatives of a choice. -/
def memberConstraints (path word : String) (value : Json) : List Constraint :=
  if word = "leaf" then [Field.isString (path ++ ".leaf") value]
  else if word = "node" then [Field.isString (path ++ ".node") value]
  else if word = "choice" then
    [Field.isArray (path ++ ".choice") value,
      ⟨value ≠ .arr [], .config (path ++ ".choice") .empty⟩]
  else [⟨word ∈ ["leaf", "node", "choice"], .config path (.unknownSlotKind word)⟩]

/-- A slot is an object with one member. -/
def shapeConstraints (path : String) (value : Json) : List Constraint :=
  [Field.isObject path value,
    ⟨∃ word inner, value = .obj [(word, inner)], .config path .notOneSlotKind⟩]

mutual

/-- What has to hold of a value at the given path for it to describe a slot. -/
def constraints (path : String) (value : Json) : List Constraint :=
  shapeConstraints path value ++
  match value with
  | .obj [("choice", .arr alternatives)] =>
    memberConstraints path "choice" (.arr alternatives) ++
      constraintsOfAll (path ++ ".choice") 0 alternatives
  | .obj [(word, inner)] => memberConstraints path word inner
  | _ => []

/-- What has to hold of values of which the first is the item at `index` below the path. -/
def constraintsOfAll (path : String) (index : Nat) : List Json → List Constraint
  | [] => []
  | value :: rest =>
    constraints (itemPath path index) value ++ constraintsOfAll path (index + 1) rest

end

/-- What holds of a choice when it holds of the alternatives, and of all that is no choice, holds
of all values. -/
theorem value_induction {P : Json → Prop}
    (choice : ∀ alternatives, (∀ a ∈ alternatives, P a) → P (.obj [("choice", .arr alternatives)]))
    (member : ∀ word inner, ¬ (word = "choice" ∧ ∃ alternatives, inner = .arr alternatives) →
      P (.obj [(word, inner)]))
    (other : ∀ value, ¬ (∃ word inner, value = .obj [(word, inner)]) → P value) (value : Json) :
    P value := by
  by_cases hvalue : ∃ word inner, value = .obj [(word, inner)]
  · obtain ⟨word, inner, hmember⟩ := hvalue
    by_cases hchoice : word = "choice" ∧ ∃ alternatives, inner = .arr alternatives
    · obtain ⟨hword, alternatives, hinner⟩ := hchoice
      rw [hmember, hword, hinner]
      exact choice alternatives fun a ha => value_induction choice member other a
    · rw [hmember]
      exact member word inner hchoice
  · exact other value hvalue
termination_by value
decreasing_by
  have := List.sizeOf_lt_of_mem ha
  rw [hmember, hword, hinner]
  simp only [Json.obj.sizeOf_spec, Json.arr.sizeOf_spec, List.cons.sizeOf_spec, Prod.mk.sizeOf_spec]
  omega

section
variable {path word : String} {value inner : Json}

theorem constraints_choice (path : String) (alternatives : List Json) :
    constraints path (.obj [("choice", .arr alternatives)]) =
      shapeConstraints path (.obj [("choice", .arr alternatives)]) ++
        (memberConstraints path "choice" (.arr alternatives) ++
          constraintsOfAll (path ++ ".choice") 0 alternatives) := by
  rw [constraints]

theorem constraints_member
    (h : ¬ (word = "choice" ∧ ∃ alternatives, inner = .arr alternatives)) :
    constraints path (.obj [(word, inner)]) =
      shapeConstraints path (.obj [(word, inner)]) ++ memberConstraints path word inner := by
  rw [constraints]
  intro alternatives hword hinner
  exact h ⟨hword, alternatives, hinner⟩

theorem constraints_other (h : ¬ ∃ word inner, value = .obj [(word, inner)]) :
    constraints path value = shapeConstraints path value := by
  rw [constraints, List.append_nil]
  · intro alternatives hvalue
    exact h ⟨_, _, hvalue⟩
  · intro word inner hvalue
    exact h ⟨_, _, hvalue⟩

theorem parse_leaf : parse path (.obj [("leaf", inner)]) =
    (Field.string (path ++ ".leaf") inner >>= fun name => pure (.leaf name)) := by
  simp [parse]

theorem parse_node : parse path (.obj [("node", inner)]) =
    (Field.string (path ++ ".node") inner >>= fun name => pure (.node name)) := by
  simp [parse]

theorem parse_unknown (h : word ∉ ["leaf", "node", "choice"]) :
    parse path (.obj [(word, inner)]) = .error (.config path (.unknownSlotKind word)) := by
  simp only [List.mem_cons, List.not_mem_nil, or_false, not_or] at h
  simp [parse, h]

theorem parse_choice_of_not_array (h : ¬ ∃ items, inner = .arr items) :
    parse path (.obj [("choice", inner)]) = .error (.config (path ++ ".choice") .notArray) := by
  cases inner with
  | arr items => exact absurd ⟨items, rfl⟩ h
  | _ => simp [parse]

theorem parse_obj_of_not_single {members : List (String × Json)}
    (h : ¬ ∃ word inner, Json.obj members = .obj [(word, inner)]) :
    parse path (.obj members) = .error (.config path .notOneSlotKind) := by
  match members with
  | [] => simp [parse]
  | [(word, inner)] => exact absurd ⟨word, inner, rfl⟩ h
  | _ :: _ :: _ => simp [parse]

/-! ## The parser enforces what has to hold -/

theorem enforces_shape {cs : List Constraint} {x : Except Fault Slot} {post : Slot → Prop}
    (h : Enforces cs x post) :
    Enforces (shapeConstraints path (.obj [(word, inner)]) ++ cs) x post :=
  enforces_of_holds ⟨_, rfl⟩ (enforces_of_holds ⟨_, _, rfl⟩ h)

theorem enforces_parse_member
    (h : ¬ (word = "choice" ∧ ∃ alternatives, inner = .arr alternatives)) :
    Enforces (memberConstraints path word inner) (parse path (.obj [(word, inner)]))
      (Describes (.obj [(word, inner)])) := by
  unfold memberConstraints
  split
  · subst word
    rw [parse_leaf]
    apply (Field.enforces_string _ _).map
    intro name hname
    subst hname
    exact ⟨by simp, rfl⟩
  split
  · subst word
    rw [parse_node]
    apply (Field.enforces_string _ _).map
    intro name hname
    subst hname
    exact ⟨by simp, rfl⟩
  split
  · subst word
    have harray : ¬ ∃ items, inner = .arr items := fun harray => h ⟨rfl, harray⟩
    exact enforces_of_broken harray (parse_choice_of_not_array harray)
  · have hunknown : word ∉ ["leaf", "node", "choice"] := by
      simp only [List.mem_cons, List.not_mem_nil, or_false, not_or]
      exact ⟨‹_›, ‹_›, ‹_›⟩
    exact enforces_of_broken hunknown (parse_unknown hunknown)

end

theorem toJsonAll_eq_map (slots : List Slot) : toJsonAll slots = slots.map toJson := by
  induction slots with
  | nil => rfl
  | cons s rest ih => rw [toJsonAll, ih, List.map_cons]

theorem toJson_choice (first : Slot) (others : List Slot) :
    (choice first others).toJson = .obj [("choice", .arr ((first :: others).map toJson))] := by
  rw [toJson, toJsonAll_eq_map, List.map_cons]

theorem enforces_parseAll_of_parse {values : List Json}
    (h : ∀ v ∈ values, ∀ path, Enforces (constraints path v) (parse path v) (Describes v))
    (path : String) (index : Nat) :
    Enforces (constraintsOfAll path index values) (parseAll path index values)
      fun slots => (∀ s ∈ slots, s.IsNative) ∧ slots.map toJson = values := by
  induction values generalizing index with
  | nil => exact enforces_ok (by simp)
  | cons value rest ih =>
    rw [constraintsOfAll, parseAll]
    apply (h value (by simp) _).bind
    intro s hs
    have hrest := ih (fun v hv => h v (by simp [hv])) (index + 1)
    apply hrest.map
    intro slots hslots
    refine ⟨List.forall_mem_cons.2 ⟨hs.1, hslots.1⟩, ?_⟩
    rw [List.map_cons, hs.2, hslots.2]

/-- The parser looks at what has to hold in order, and returns the slot described. -/
theorem enforces_parse (path : String) (value : Json) :
    Enforces (constraints path value) (parse path value) (Describes value) := by
  induction value using value_induction generalizing path with
  | choice alternatives ih =>
    rw [constraints_choice]
    apply enforces_shape
    cases alternatives with
    | nil =>
      refine enforces_of_holds ⟨_, rfl⟩ (enforces_of_broken (fun hne => hne rfl) ?_)
      rw [parse]
    | cons first others =>
      refine enforces_of_holds ⟨_, rfl⟩ (enforces_of_holds (by simp) ?_)
      rw [parse]
      apply (ih first (by simp) _).bind
      intro s hs
      have hothers : ∀ v ∈ others, ∀ p, Enforces (constraints p v) (parse p v) (Describes v) := by
        intro v hv
        exact ih v (by simp [hv])
      apply (enforces_parseAll_of_parse hothers (path ++ ".choice") 1).map
      intro slots hslots
      refine ⟨isNative_choice.2 (List.forall_mem_cons.2 ⟨hs.1, hslots.1⟩), ?_⟩
      rw [toJson_choice, List.map_cons, hs.2, hslots.2]
  | member word inner h =>
    rw [constraints_member h]
    exact enforces_shape (enforces_parse_member h)
  | other value h =>
    rw [constraints_other h]
    cases value with
    | obj members =>
      exact enforces_of_holds ⟨_, rfl⟩ (enforces_of_broken h (parse_obj_of_not_single h))
    | _ => exact enforces_of_broken (by simp [Field.isObject]) (by simp [parse, Field.isObject])

theorem enforces_parseAll (path : String) (index : Nat) (values : List Json) :
    Enforces (constraintsOfAll path index values) (parseAll path index values)
      fun slots => (∀ s ∈ slots, s.IsNative) ∧ slots.map toJson = values :=
  enforces_parseAll_of_parse (fun v _ path => enforces_parse path v) path index

theorem forall_mem_constraintsOfAll {P : Constraint → Prop} {values : List Json}
    (h : ∀ v ∈ values, ∀ path, ∀ c ∈ constraints path v, P c) (path : String) (index : Nat) :
    ∀ c ∈ constraintsOfAll path index values, P c := by
  induction values generalizing index with
  | nil => simp [constraintsOfAll]
  | cons value rest ih =>
    rw [constraintsOfAll, List.forall_mem_append]
    exact ⟨h value (by simp) _, ih (fun v hv => h v (by simp [hv])) (index + 1)⟩

theorem isSpec_toJson {s : Slot} (h : s.IsNative) : IsSpec s.toJson := by
  induction s using Slot.induction with
  | leaf name => exact .leaf name
  | node name => exact .node name
  | choice first others ih =>
    rw [toJson_choice]
    apply IsSpec.choice (by simp)
    intro a ha
    obtain ⟨s, hs, rfl⟩ := List.mem_map.1 ha
    exact ih s hs (isNative_choice.1 h s hs)
  | foreign value =>
    exact absurd h not_isNative_foreign

theorem IsSpec.forall_holds {value : Json} (h : IsSpec value) (path : String) :
    ∀ c ∈ constraints path value, c.holds := by
  induction h generalizing path with
  | leaf name =>
    rw [constraints_member (by simp)]
    simp [shapeConstraints, memberConstraints, Field.isObject, Field.isString]
  | node name =>
    rw [constraints_member (by simp)]
    simp [shapeConstraints, memberConstraints, Field.isObject, Field.isString]
  | choice hne halternatives ih =>
    rw [constraints_choice, List.forall_mem_append, List.forall_mem_append]
    refine ⟨?_, ?_, forall_mem_constraintsOfAll ih _ _⟩
    · simp [shapeConstraints, Field.isObject]
    · simp [memberConstraints, Field.isArray, hne]

/-- A value describes a slot when all that has to hold of it does. -/
theorem isSpec_iff (path : String) (value : Json) :
    IsSpec value ↔ ∀ c ∈ constraints path value, c.holds := by
  constructor
  · intro h
    exact h.forall_holds path
  · intro h
    obtain ⟨s, -, hnative, rfl⟩ := (enforces_parse path value).returns h
    exact isSpec_toJson hnative

theorem forall_isSpec_iff (path : String) (index : Nat) (values : List Json) :
    (∀ v ∈ values, IsSpec v) ↔ ∀ c ∈ constraintsOfAll path index values, c.holds := by
  induction values generalizing index with
  | nil => simp [constraintsOfAll]
  | cons value rest ih =>
    rw [constraintsOfAll, List.forall_mem_cons, List.forall_mem_append, ← isSpec_iff, ← ih]

theorem referencesInAll_eq_flatMap (values : List Json) :
    referencesInAll values = values.flatMap referencesIn := by
  induction values with
  | nil => rfl
  | cons value rest ih => rw [referencesInAll, List.flatMap_cons, ih]

/-- The references of a slot stand in the value that describes it. -/
theorem items_eq_map_referencesIn {s : Slot} (h : s.IsNative) :
    s.items = (referencesIn s.toJson).map .reference := by
  induction s using Slot.induction with
  | leaf name => simp [items, toJson, referencesIn]
  | node name => simp [items, toJson, referencesIn]
  | choice first others ih =>
    rw [toJson_choice, referencesIn, referencesInAll_eq_flatMap, items_choice, List.map_flatMap,
      List.flatMap_map, List.flatMap_def, List.flatMap_def]
    congr 1
    apply List.map_congr_left
    intro s hs
    exact ih s hs (isNative_choice.1 h s hs)
  | foreign value =>
    exact absurd h not_isNative_foreign

/-- What is wrong with a value that describes no slot is something about the configuration. -/
theorem isConfig_of_mem_constraints (path : String) (value : Json) :
    ∀ c ∈ constraints path value, ∃ fault, c.fault = .grammar (.config fault) := by
  induction value using value_induction generalizing path with
  | choice alternatives ih =>
    rw [constraints_choice, List.forall_mem_append, List.forall_mem_append]
    refine ⟨?_, ?_, forall_mem_constraintsOfAll ih _ _⟩
    · simp [shapeConstraints, Field.isObject, Fault.config]
    · simp [memberConstraints, Field.isArray, Fault.config]
  | member word inner h =>
    rw [constraints_member h, List.forall_mem_append]
    refine ⟨by simp [shapeConstraints, Field.isObject, Fault.config], ?_⟩
    unfold memberConstraints
    split
    · simp [Field.isString, Fault.config]
    split
    · simp [Field.isString, Fault.config]
    split
    · simp [Field.isArray, Fault.config]
    · simp [Fault.config]
  | other value h =>
    rw [constraints_other h]
    simp [shapeConstraints, Field.isObject, Fault.config]

end RandomDerivation.Slot
