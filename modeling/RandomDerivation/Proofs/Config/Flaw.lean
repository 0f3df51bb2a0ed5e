import RandomDerivation.Proofs.Config.Slot
import RandomDerivation.Proofs.Position

/-!
# Where the description of a slot goes wrong

A value that should describe a slot has parts: the value itself, and the parts of the alternatives
of a choice, at any depth. A part can be flawed by itself, whatever its alternatives are. A value
without a flawed part describes exactly one slot. Any other value is refused for its first flawed
part, depth first and from left to right, and the fault names the way to this part.
-/

namespace RandomDerivation.Slot

theorem parseAll_map_toJson {slots : List Slot}
    (h : ∀ s ∈ slots, ∀ path, parse path s.toJson = .ok s) (path : String) (index : Nat) :
    parseAll path index (slots.map toJson) = .ok slots := by
  induction slots generalizing index with
  | nil => simp [parseAll, pure, Except.pure]
  | cons s rest ih =>
    rw [List.map_cons, parseAll, h s (by simp), ih (fun s hs => h s (by simp [hs]))]
    rfl

/-- The value that describes a slot is read back as this slot, with every choice inside of a
choice in its place. -/
theorem parse_toJson {s : Slot} (h : s.IsNative) (path : String) :
    parse path s.toJson = .ok s := by
  induction s using Slot.induction generalizing path with
  | leaf name => rw [toJson, parse_leaf]; rfl
  | node name => rw [toJson, parse_node]; rfl
  | choice first others ih =>
    have hparts := isNative_choice.1 h
    have hothers : ∀ s ∈ others, ∀ path, parse path s.toJson = .ok s := by
      intro s hs path
      exact ih s (by simp [hs]) (hparts s (by simp [hs])) path
    rw [toJson_choice, List.map_cons, parse, ih first (by simp) (hparts first (by simp)),
      parseAll_map_toJson hothers]
    rfl
  | foreign value => exact absurd h not_isNative_foreign

theorem parse_eq_ok_iff {path : String} {value : Json} {s : Slot} :
    parse path value = .ok s ↔ Describes value s := by
  constructor
  · intro h
    exact (enforces_parse path value).post_of_ok h
  · rintro ⟨hnative, rfl⟩
    exact parse_toJson hnative path

/-- The parts of a value: the value itself, and those of the alternatives of a choice. A position
lists the numbers of the alternatives on the way. -/
inductive PartAt : Json → List Nat → Json → Prop where
  | self (value : Json) : PartAt value [] value
  | alternative {alternatives : List Json} {i : Nat} {a part : Json} {inner : List Nat} :
    alternatives[i]? = some a → PartAt a inner part →
      PartAt (.obj [("choice", .arr alternatives)]) (i :: inner) part

/-- Something that is wrong with a part by itself: the member that it is wrong with, if it is one,
and the cause. -/
structure Flaw where
  member : String
  cause : ConfigCause

/-- What is wrong with a member that should be a name. -/
def nameFlaw? (member : String) : Json → Option Flaw
  | .str _ => none
  | _ => some ⟨member, .notString⟩

/-- What is wrong with the only member of a part, apart from the alternatives of a choice. -/
def memberFlaw? (word : String) (inner : Json) : Option Flaw :=
  if word = "leaf" then nameFlaw? ".leaf" inner
  else if word = "node" then nameFlaw? ".node" inner
  else if word = "choice" then
    match inner with
    | .arr [] => some ⟨".choice", .empty⟩
    | .arr _ => none
    | _ => some ⟨".choice", .notArray⟩
  else some ⟨"", .unknownSlotKind word⟩

/-- What is wrong with a part by itself. -/
def flaw? : Json → Option Flaw
  | .obj [(word, inner)] => memberFlaw? word inner
  | .obj _ => some ⟨"", .notOneSlotKind⟩
  | _ => some ⟨"", .notObject⟩

/-- At this position stands the first flawed part of a value. -/
structure FirstFlaw (value : Json) (position : List Nat) (flaw : Flaw) : Prop where
  flawed : ∃ part, PartAt value position part ∧ flaw? part = some flaw
  first : ∀ earlier part, earlier < position → PartAt value earlier part → flaw? part = none

/-- The path of the part at a position below a path. -/
def pathTo (path : String) : List Nat → String
  | [] => path
  | i :: inner => pathTo (itemPath (path ++ ".choice") i) inner

example : pathTo "slot" [1, 0] = "slot.choice[1].choice[0]" := by decide

/-- The fault that a flaw of the part at a position is reported as. -/
def Flaw.fault (flaw : Flaw) (path : String) (position : List Nat) : Fault :=
  .config (pathTo path position ++ flaw.member) flaw.cause

theorem PartAt.unique {value part part' : Json} {position : List Nat}
    (h : PartAt value position part) (h' : PartAt value position part') : part = part' := by
  induction h with
  | self value =>
    cases h'
    rfl
  | alternative ha _ ih =>
    cases h' with
    | alternative ha' hpart' =>
      cases ha.symm.trans ha'
      exact ih hpart'

theorem FirstFlaw.unique {value : Json} {position position' : List Nat} {flaw flaw' : Flaw}
    (h : FirstFlaw value position flaw) (h' : FirstFlaw value position' flaw') :
    position = position' ∧ flaw = flaw' := by
  obtain ⟨part, hpart, hflaw⟩ := h.flawed
  obtain ⟨part', hpart', hflaw'⟩ := h'.flawed
  have hposition : position = position' := by
    apply List.le_antisymm
    · intro hlt
      rw [h.first _ _ hlt hpart'] at hflaw'
      cases hflaw'
    · intro hlt
      rw [h'.first _ _ hlt hpart] at hflaw
      cases hflaw
  subst hposition
  cases hpart.unique hpart'
  rw [hflaw, Option.some.injEq] at hflaw'
  exact ⟨rfl, hflaw'⟩

theorem flaw?_choice {alternatives : List Json} (h : alternatives ≠ []) :
    flaw? (.obj [("choice", .arr alternatives)]) = none := by
  cases alternatives with
  | nil => exact absurd rfl h
  | cons a alternatives => rfl

theorem IsSpec.of_mem_alternatives {alternatives : List Json} {a : Json}
    (h : IsSpec (.obj [("choice", .arr alternatives)])) (ha : a ∈ alternatives) : IsSpec a := by
  generalize hvalue : Json.obj [("choice", .arr alternatives)] = value at h
  cases h with
  | leaf name => simp at hvalue
  | node name => simp at hvalue
  | choice hne halternatives =>
    obtain rfl : alternatives = _ := by simpa using hvalue
    exact halternatives a ha

/-- No part of a value that describes a slot is flawed. -/
theorem IsSpec.flaw?_eq_none {value part : Json} {position : List Nat} (h : IsSpec value)
    (hpart : PartAt value position part) : flaw? part = none := by
  induction hpart with
  | self value =>
    cases h with
    | leaf name => rfl
    | node name => rfl
    | choice hne _ => exact flaw?_choice hne
  | alternative ha _ ih => exact ih (h.of_mem_alternatives (List.mem_of_getElem? ha))

/-! ## The first flaw -/

theorem firstFlaw_self {value : Json} {flaw : Flaw} (h : flaw? value = some flaw) :
    FirstFlaw value [] flaw where
  flawed := ⟨value, .self value, h⟩
  first _ _ hlt := absurd hlt (List.not_lt_nil _)

/-- The first flaw of a choice is that of its first alternative that describes no slot. -/
theorem FirstFlaw.alternative {alternatives : List Json} {i : Nat} {a : Json} {inner : List Nat}
    {flaw : Flaw} (ha : alternatives[i]? = some a)
    (hbefore : ∀ j u, j < i → alternatives[j]? = some u → IsSpec u) (h : FirstFlaw a inner flaw) :
    FirstFlaw (.obj [("choice", .arr alternatives)]) (i :: inner) flaw where
  flawed := by
    obtain ⟨part, hpart, hflaw⟩ := h.flawed
    exact ⟨part, .alternative ha hpart, hflaw⟩
  first := by
    intro earlier part hlt hpart
    cases hpart with
    | self => exact flaw?_choice (List.ne_nil_of_mem (List.mem_of_getElem? ha))
    | @alternative _ j u _ inner' hu hpart =>
      -- Either in an alternative further to the left, or earlier in the same one.
      rcases List.cons_lt_cons_iff.1 hlt with hj | ⟨rfl, hinner⟩
      · exact (hbefore j u hj hu).flaw?_eq_none hpart
      · cases ha.symm.trans hu
        exact h.first _ _ hinner hpart

/-- What does not hold of several values does not hold of the first one that describes no slot. -/
theorem exists_of_firstBroken_constraintsOfAll {path : String} {index : Nat} {values : List Json}
    {f : Fault} (h : FirstBroken (constraintsOfAll path index values) f) :
    ∃ i v, values[i]? = some v ∧ (∀ j u, j < i → values[j]? = some u → IsSpec u) ∧
      FirstBroken (constraints (itemPath path (index + i)) v) f := by
  induction values generalizing index with
  | nil => exact absurd h not_firstBroken_nil
  | cons value rest ih =>
    rw [constraintsOfAll, firstBroken_append] at h
    rcases h with hvalue | ⟨hvalue, hrest⟩
    · exact ⟨0, value, rfl, fun j u hj => absurd hj (Nat.not_lt_zero j), hvalue⟩
    · obtain ⟨i, v, hv, hbefore, hbroken⟩ := ih hrest
      refine ⟨i + 1, v, hv, ?_, ?_⟩
      · intro j u hj hu
        cases j with
        | zero =>
          cases hu
          exact (isSpec_iff _ _).2 hvalue
        | succ j => exact hbefore j u (by omega) hu
      · rwa [Nat.add_right_comm, Nat.add_assoc] at hbroken

theorem nameFlaw?_eq_some {member : String} {inner : Json} (h : ¬ ∃ name, inner = .str name) :
    nameFlaw? member inner = some ⟨member, .notString⟩ := by
  cases inner with
  | str name => exact absurd ⟨name, rfl⟩ h
  | _ => rfl

/-- A part that is flawed as a whole is named by its own path. -/
theorem fault_self (path : String) (cause : ConfigCause) :
    Flaw.fault ⟨"", cause⟩ path [] = .config path cause := by
  rw [Flaw.fault, pathTo, String.append_empty]

/-- The shape of an object with one member is not wrong. -/
theorem not_firstBroken_shapeConstraints {path word : String} {inner : Json} {f : Fault} :
    ¬ FirstBroken (shapeConstraints path (.obj [(word, inner)])) f := by
  intro h
  obtain ⟨c, hc, hbroken, -⟩ := h.exists_mem
  simp only [shapeConstraints, Field.isObject, List.mem_cons, List.not_mem_nil, or_false] at hc
  rcases hc with rfl | rfl <;> simp at hbroken

theorem flaw?_obj_of_not_single {members : List (String × Json)}
    (h : ¬ ∃ word inner, Json.obj members = .obj [(word, inner)]) :
    flaw? (.obj members) = some ⟨"", .notOneSlotKind⟩ := by
  match members with
  | [] => rfl
  | [(word, inner)] => exact absurd ⟨word, inner, rfl⟩ h
  | _ :: _ :: _ => rfl

/-- What does not hold of the only member of a value is a flaw of the value. -/
theorem flaw?_of_firstBroken_memberConstraints {path word : String} {inner : Json} {f : Fault}
    (h : FirstBroken (memberConstraints path word inner) f) :
    ∃ flaw, flaw? (.obj [(word, inner)]) = some flaw ∧ f = flaw.fault path [] := by
  unfold memberConstraints at h
  split at h
  · subst word
    obtain ⟨hinner, rfl⟩ := firstBroken_singleton.1 h
    exact ⟨⟨".leaf", .notString⟩, nameFlaw?_eq_some hinner, rfl⟩
  split at h
  · subst word
    obtain ⟨hinner, rfl⟩ := firstBroken_singleton.1 h
    exact ⟨⟨".node", .notString⟩, nameFlaw?_eq_some hinner, rfl⟩
  split at h
  · subst word
    rw [firstBroken_cons, firstBroken_singleton] at h
    rcases h with ⟨hinner, rfl⟩ | ⟨-, hinner, rfl⟩
    · refine ⟨⟨".choice", .notArray⟩, ?_, rfl⟩
      cases inner with
      | arr items => exact absurd ⟨items, rfl⟩ hinner
      | _ => rfl
    · obtain rfl : inner = .arr [] := not_not.1 hinner
      exact ⟨⟨".choice", .empty⟩, rfl, rfl⟩
  · obtain ⟨-, rfl⟩ := firstBroken_singleton.1 h
    refine ⟨⟨"", .unknownSlotKind word⟩, ?_, (fault_self path _).symm⟩
    simp only [flaw?, memberFlaw?]
    rw [if_neg ‹_›, if_neg ‹_›, if_neg ‹_›]

/-- What does not hold of a value is a flaw of its first flawed part. -/
theorem exists_firstFlaw {path : String} {value : Json} {f : Fault}
    (h : FirstBroken (constraints path value) f) :
    ∃ position flaw, FirstFlaw value position flaw ∧ f = flaw.fault path position := by
  induction value using value_induction generalizing path with
  | choice alternatives ih =>
    rw [constraints_choice, firstBroken_append, firstBroken_append] at h
    rcases h with hshape | ⟨-, hmember | ⟨-, hall⟩⟩
    · exact absurd hshape not_firstBroken_shapeConstraints
    · obtain ⟨flaw, hflaw, hf⟩ := flaw?_of_firstBroken_memberConstraints hmember
      exact ⟨[], flaw, firstFlaw_self hflaw, hf⟩
    · obtain ⟨i, a, ha, hbefore, hbroken⟩ := exists_of_firstBroken_constraintsOfAll hall
      rw [Nat.zero_add] at hbroken
      obtain ⟨position, flaw, hflaw, rfl⟩ := ih a (List.mem_of_getElem? ha) hbroken
      exact ⟨i :: position, flaw, hflaw.alternative ha hbefore, rfl⟩
  | member word inner h' =>
    rw [constraints_member h', firstBroken_append] at h
    rcases h with hshape | ⟨-, hmember⟩
    · exact absurd hshape not_firstBroken_shapeConstraints
    · obtain ⟨flaw, hflaw, hf⟩ := flaw?_of_firstBroken_memberConstraints hmember
      exact ⟨[], flaw, firstFlaw_self hflaw, hf⟩
  | other value h' =>
    rw [constraints_other h', shapeConstraints, firstBroken_cons, firstBroken_singleton] at h
    rcases h with ⟨hobject, rfl⟩ | ⟨⟨members, rfl⟩, -, rfl⟩
    · refine ⟨[], ⟨"", .notObject⟩, firstFlaw_self ?_, (fault_self path _).symm⟩
      cases value with
      | obj members => exact absurd ⟨members, rfl⟩ hobject
      | _ => rfl
    · refine ⟨[], ⟨"", .notOneSlotKind⟩, firstFlaw_self ?_, (fault_self path _).symm⟩
      exact flaw?_obj_of_not_single h'

/-- A value is refused for its first flawed part. -/
theorem parse_eq_error_iff {path : String} {value : Json} {f : Fault} :
    parse path value = .error f ↔
      ∃ position flaw, FirstFlaw value position flaw ∧ f = flaw.fault path position := by
  have herror : ∀ f, parse path value = .error f →
      ∃ position flaw, FirstFlaw value position flaw ∧ f = flaw.fault path position := by
    intro f h
    exact exists_firstFlaw ((enforces_parse path value).eq_error_iff.1 h)
  refine ⟨herror f, ?_⟩
  rintro ⟨position, flaw, hflaw, rfl⟩
  cases h : parse path value with
  | ok s =>
    obtain ⟨part, hpart, hpartFlaw⟩ := hflaw.flawed
    obtain ⟨hnative, rfl⟩ := parse_eq_ok_iff.1 h
    rw [(isSpec_toJson hnative).flaw?_eq_none hpart] at hpartFlaw
    cases hpartFlaw
  | error f =>
    obtain ⟨position', flaw', hflaw', rfl⟩ := herror f h
    obtain ⟨rfl, rfl⟩ := hflaw.unique hflaw'
    rfl

/-- Reading the description of a slot accepts exactly the values that are put together as such
descriptions are, each as the only slot without foreign values that is written as it; so every
such slot is read back as it was, with its choices inside of choices. Any other value is refused
for its first flawed part, depth first and from left to right, and the message starts with the way
to this part, and to the member that is flawed, if the part has one. An empty choice is refused
before it is built. -/
theorem parse_exact_slot (path : String) (value : Json) :
    ((∃ s, parse path value = .ok s) ↔ IsSpec value) ∧
    (∀ s, parse path value = .ok s ↔ s.IsNative ∧ s.toJson = value) ∧
    (∀ f, parse path value = .error f ↔
      ∃ position flaw, FirstFlaw value position flaw ∧
        f = .grammar (.config ⟨pathTo path position ++ flaw.member, flaw.cause⟩) ∧
        ∃ words, f.message = pathTo path position ++ flaw.member ++ words) ∧
    parse path value ≠ .error (.grammar .emptyChoice) := by
  refine ⟨?_, fun s => parse_eq_ok_iff, ?_, ?_⟩
  · rw [isSpec_iff path, (enforces_parse path value).exists_ok_iff]
  · intro f
    rw [parse_eq_error_iff]
    constructor
    · rintro ⟨position, flaw, hflaw, rfl⟩
      exact ⟨position, flaw, hflaw, rfl, _, rfl⟩
    · rintro ⟨position, flaw, hflaw, hf, -⟩
      exact ⟨position, flaw, hflaw, hf⟩
  · rw [ne_eq, parse_eq_error_iff]
    rintro ⟨position, flaw, -, hf⟩
    cases hf

end RandomDerivation.Slot
