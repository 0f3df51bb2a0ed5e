import RandomDerivation.Json.Basic

/-!
# Objects with distinct names

A value is a document only if no object inside of it has two members of one name. Every value that
is written down member by member has this property, since a repeated name is taken once.
-/

namespace RandomDerivation.Json

mutual

/-- No object inside of a value has two members of one name. -/
def hasDistinctNames : Json → Bool
  | .arr items => allHaveDistinctNames items
  | .obj members => decide (members.map Prod.fst).Nodup && membersHaveDistinctNames members
  | _ => true

def allHaveDistinctNames : List Json → Bool
  | [] => true
  | v :: rest => hasDistinctNames v && allHaveDistinctNames rest

def membersHaveDistinctNames : List (String × Json) → Bool
  | [] => true
  | (_, v) :: rest => hasDistinctNames v && membersHaveDistinctNames rest

end

theorem hasDistinctNames_arr {items : List Json} :
    (arr items).hasDistinctNames = true ↔ ∀ v ∈ items, v.hasDistinctNames = true := by
  rw [hasDistinctNames]
  induction items with
  | nil => simp [allHaveDistinctNames]
  | cons v rest ih =>
    rw [allHaveDistinctNames, Bool.and_eq_true, ih, List.forall_mem_cons]

theorem membersHaveDistinctNames_iff {members : List (String × Json)} :
    membersHaveDistinctNames members = true ↔ ∀ e ∈ members, e.2.hasDistinctNames = true := by
  induction members with
  | nil => simp [membersHaveDistinctNames]
  | cons e rest ih =>
    rw [membersHaveDistinctNames, Bool.and_eq_true, ih, List.forall_mem_cons]

theorem hasDistinctNames_obj {members : List (String × Json)} :
    (obj members).hasDistinctNames = true ↔
      (members.map Prod.fst).Nodup ∧ ∀ e ∈ members, e.2.hasDistinctNames = true := by
  rw [hasDistinctNames, Bool.and_eq_true, decide_eq_true_iff, membersHaveDistinctNames_iff]

/-- The names of a member that is an object are distinct. -/
theorem nodup_of_lookup {members inner : List (String × Json)} {name : String}
    (h : (obj members).hasDistinctNames = true) (hinner : members.lookup name = some (.obj inner)) :
    (inner.map Prod.fst).Nodup := by
  obtain ⟨before, after, hsplit, -⟩ := List.lookup_eq_some_iff.1 hinner
  have hmem : (name, obj inner) ∈ members := by simp [hsplit]
  have hdistinct := (hasDistinctNames_obj.1 h).2 _ hmem
  exact (hasDistinctNames_obj.1 hdistinct).1

end RandomDerivation.Json
