import RandomDerivation.Json.Reader
import RandomDerivation.Proofs.Json.Distinct

/-!
# What is read

A property that constants and numbers have as they are read, and that strings, arrays and objects
get from what is inside of them, is one of everything that is read. The proof follows the reader
over shorter and shorter texts. One such property is that the names of an object's members are
distinct: a name that a text repeats is taken once.
-/

namespace RandomDerivation

namespace Table
variable {α : Type} {P : α → Prop}

theorem forall_mem_put {name : String} {value : α} {entries : List (String × α)}
    (h : ∀ e ∈ entries, P e.2) (hvalue : P value) : ∀ e ∈ put name value entries, P e.2 := by
  induction entries with
  | nil => simpa [put] using hvalue
  | cons e rest ih =>
    obtain ⟨k, v⟩ := e
    rw [List.forall_mem_cons] at h
    rw [put]
    split
    · exact List.forall_mem_cons.2 ⟨hvalue, h.2⟩
    · exact List.forall_mem_cons.2 ⟨h.1, ih h.2⟩

/-- What holds of all values in a list of entries holds of those in their table. -/
theorem forall_mem_ofList {entries : List (String × α)} (h : ∀ e ∈ entries, P e.2) :
    ∀ e ∈ (ofList entries).entries, P e.2 := by
  have hfold : ∀ t : Table α, (∀ e ∈ t.entries, P e.2) →
      ∀ e ∈ (entries.foldl (fun t e => t.insert e.1 e.2) t).entries, P e.2 := by
    induction entries with
    | nil => exact fun t ht => ht
    | cons e rest ih =>
      intro t ht
      rw [List.forall_mem_cons] at h
      exact ih h.2 (t.insert e.1 e.2) (forall_mem_put ht h.1)
  apply hfold empty
  simp [empty]

end Table

namespace Json

theorem hasDistinctNames_ofMembers {members : List (String × Json)}
    (h : ∀ e ∈ members, e.2.hasDistinctNames = true) :
    (ofMembers members).hasDistinctNames = true :=
  hasDistinctNames_obj.2 ⟨(Table.ofList members).nodup,
    Table.forall_mem_ofList (P := fun v : Json => v.hasDistinctNames = true) h⟩

theorem except_bind_eq_ok {ε α β : Type} {x : Except ε α} {f : α → Except ε β} {b : β} :
    (x >>= f) = .ok b ↔ ∃ a, x = .ok a ∧ f a = .ok b := by
  cases x <;> simp [bind, Except.bind]

/-- A property that constants and numbers have as they are read, and that other values get from
what is inside of them. -/
structure Inherited (P : Json → Prop) : Prop where
  constant : ∀ k ∈ constants, P k.value
  numeral : ∀ {s n rest v}, numeral? s = some (n, rest) → n.value = .ok v → P v
  str : ∀ s, P (.str s)
  arr : ∀ {vs}, (∀ v ∈ vs, P v) → P (.arr vs)
  obj : ∀ {ms : List (String × Json)}, (∀ e ∈ ms, P e.2) → P (ofMembers ms)

namespace Inherited
variable {P : Json → Prop}

theorem of_constant? (hP : Inherited P) {s : List Char}
    {r : { r : Json × List Char // r.2.length < s.length }} (h : constant? s = some r) :
    P r.1.1 := by
  cases s with
  | nil => cases h
  | cons c body =>
    obtain ⟨k, hk, hr⟩ := List.exists_of_findSome?_eq_some h
    split at hr
    · split at hr
      · cases hr
        exact hP.constant k hk
      · cases hr
    · cases hr

theorem of_scalar (hP : Inherited P) {s : List Char}
    {r : { r : Json × List Char // r.2.length < s.length }} (h : scalar s = .ok r) :
    P r.1.1 := by
  unfold scalar at h
  split at h
  · rename_i hconstant
    cases h
    exact hP.of_constant? hconstant
  split at h
  · cases h
  · rename_i hnumeral
    obtain ⟨v, hv, hr⟩ := except_bind_eq_ok.1 h
    cases hr
    exact hP.numeral hnumeral hv

/-- What is read at the front of a text has a property. -/
structure Reads (P : Json → Prop) (s : List Char) : Prop where
  value : ∀ r, Json.value s = .ok r → P r.1.1
  items : ∀ r, Json.items s = .ok r → ∀ v ∈ r.1.1, P v
  members : ∀ r, Json.members s = .ok r → ∀ e ∈ r.1.1, P e.2

section
variable {s : List Char}

theorem of_value (hP : Inherited P) (ih : ∀ t : List Char, t.length < s.length → Reads P t)
    {r : { r : Json × List Char // r.2.length < s.length }} (h : value s = .ok r) :
    P r.1.1 := by
  rw [value.eq_def] at h
  split at h
  · obtain ⟨_, _, hr⟩ := except_bind_eq_ok.1 h
    cases hr
    exact hP.str _
  · rename_i rest
    have hlength := length_skip_le rest
    split at h
    · cases h
      exact hP.arr (by simp)
    · obtain ⟨xs, hxs, hr⟩ := except_bind_eq_ok.1 h
      cases hr
      have hrest := ih (skip rest) (by simp only [List.length_cons]; omega)
      exact hP.arr (hrest.items xs hxs)
  · rename_i rest
    have hlength := length_skip_le rest
    split at h
    · cases h
      have hnone : P (ofMembers []) := hP.obj (by simp)
      exact hnone
    · obtain ⟨ms, hms, hr⟩ := except_bind_eq_ok.1 h
      cases hr
      have hrest := ih (skip rest) (by simp only [List.length_cons]; omega)
      exact hP.obj (hrest.members ms hms)
  · exact hP.of_scalar h

theorem of_items (hP : Inherited P) (ih : ∀ t : List Char, t.length < s.length → Reads P t)
    {r : { r : List Json × List Char // r.2.length < s.length }} (h : items s = .ok r) :
    ∀ v ∈ r.1.1, P v := by
  rw [items.eq_def] at h
  obtain ⟨⟨⟨v, rest⟩, hshorter⟩, hv, h⟩ := except_bind_eq_ok.1 h
  have hfirst := hP.of_value ih hv
  have hlength := length_skip_le rest
  dsimp only at h hshorter
  split at h
  · cases h
    simpa using hfirst
  · rename_i more hskip
    obtain ⟨vs, hvs, hr⟩ := except_bind_eq_ok.1 h
    cases hr
    have hmore := length_skip_le more
    rw [hskip, List.length_cons] at hlength
    have hrest := ih (skip more) (by omega)
    exact List.forall_mem_cons.2 ⟨hfirst, hrest.items vs hvs⟩
  · cases h

theorem of_members (ih : ∀ t : List Char, t.length < s.length → Reads P t)
    {r : { r : List (String × Json) × List Char // r.2.length < s.length }}
    (h : members s = .ok r) : ∀ e ∈ r.1.1, P e.2 := by
  rw [members.eq_def] at h
  split at h
  · obtain ⟨⟨⟨name, rest⟩, hshorter⟩, hname, h⟩ := except_bind_eq_ok.1 h
    have hlength := length_skip_le rest
    dsimp only at h hshorter
    split at h
    · rename_i more hskip
      obtain ⟨⟨⟨v, rest'⟩, hshorter'⟩, hv, h⟩ := except_bind_eq_ok.1 h
      rw [hskip, List.length_cons] at hlength
      have hmore := length_skip_le more
      have hfirst := (ih (skip more) (by simp only [List.length_cons]; omega)).value _ hv
      have hlength' := length_skip_le rest'
      dsimp only at h hshorter'
      split at h
      · cases h
        simpa using hfirst
      · rename_i more' hskip'
        obtain ⟨ms, hms, h⟩ := except_bind_eq_ok.1 h
        cases h
        rw [hskip', List.length_cons] at hlength'
        have hmore' := length_skip_le more'
        have hrest := ih (skip more') (by simp only [List.length_cons]; omega)
        exact List.forall_mem_cons.2 ⟨hfirst, hrest.members ms hms⟩
      · cases h
    · cases h
  · cases h

theorem reads (hP : Inherited P) (s : List Char) : Reads P s := by
  have ih : ∀ t : List Char, t.length < s.length → Reads P t := fun t _ => hP.reads t
  exact ⟨fun _ => hP.of_value ih, fun _ => hP.of_items ih, fun _ => of_members ih⟩
termination_by s.length

end

/-- A property that values get from what is inside of them is one of everything that is read. -/
theorem of_read (hP : Inherited P) {text : List Char} {v : Json} (h : read text = .ok v) :
    P v := by
  unfold read at h
  split at h
  · rename_i w hdocument
    cases h
    unfold document at hdocument
    split at hdocument
    · cases hdocument
    · obtain ⟨⟨⟨v, rest⟩, _⟩, hv, h⟩ := except_bind_eq_ok.1 hdocument
      dsimp only at h
      split at h
      · cases h
        exact (hP.reads _).value _ hv
      · cases h
  · cases h
  · cases h

end Inherited

theorem inherited_hasDistinctNames : Inherited fun v => v.hasDistinctNames = true where
  constant := by simp [constants, hasDistinctNames]
  numeral := by
    intro s n rest v _ hv
    unfold Numeral.value at hv
    split at hv
    · split at hv
      · cases hv
      · cases hv
        rfl
    · cases hv
      rfl
  str _ := rfl
  arr := hasDistinctNames_arr.2
  obj := hasDistinctNames_ofMembers

/-- The names of what is read are distinct. -/
theorem hasDistinctNames_of_read {text : List Char} {v : Json} (h : read text = .ok v) :
    v.hasDistinctNames = true :=
  inherited_hasDistinctNames.of_read h

end Json

end RandomDerivation
