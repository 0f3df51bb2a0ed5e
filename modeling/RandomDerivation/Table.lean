/-!
# Tables

A finite map from names to values that remembers the order in which the names came in.
-/

namespace RandomDerivation

/-- A finite map from names to values, in order of insertion. -/
structure Table (α : Type) where
  entries : List (String × α)
  nodup : (entries.map Prod.fst).Nodup

namespace Table
variable {α β : Type}

/-- The table without entries. -/
def empty : Table α := ⟨[], by simp⟩

instance : Inhabited (Table α) := ⟨empty⟩

/-- The names in order. -/
def names (t : Table α) : List String := t.entries.map Prod.fst

/-- The values in order. -/
def values (t : Table α) : List α := t.entries.map Prod.snd

/-- How many names there are. -/
def size (t : Table α) : Nat := t.entries.length

/-- The value of a name. -/
def find? (t : Table α) (name : String) : Option α := t.entries.lookup name

/-- Whether a name has a value. -/
def contains (t : Table α) (name : String) : Bool := (t.find? name).isSome

instance : Membership String (Table α) := ⟨fun t name => name ∈ t.names⟩

theorem mem_iff {t : Table α} {name : String} : name ∈ t ↔ name ∈ t.names := Iff.rfl

instance (t : Table α) (name : String) : Decidable (name ∈ t) :=
  inferInstanceAs (Decidable (name ∈ t.names))

theorem find?_isSome_iff {t : Table α} {name : String} : (t.find? name).isSome ↔ name ∈ t := by
  obtain ⟨entries, _⟩ := t
  simp only [find?, mem_iff, names]
  induction entries with
  | nil => simp
  | cons e rest ih =>
    obtain ⟨k, v⟩ := e
    by_cases h : name = k
    · subst h; simp
    · rw [List.lookup_cons, beq_false_of_ne h]
      simp only [List.map_cons, List.mem_cons, h, false_or]
      exact ih (List.nodup_cons.1 ‹_›).2

theorem contains_iff {t : Table α} {name : String} : t.contains name = true ↔ name ∈ t :=
  find?_isSome_iff

/-- The value of a name is the one that stands beside it. -/
theorem find?_eq_some_iff {t : Table α} {name : String} {a : α} :
    t.find? name = some a ↔ (name, a) ∈ t.entries := by
  obtain ⟨entries, nodup⟩ := t
  simp only [find?]
  induction entries with
  | nil => simp
  | cons e rest ih =>
    obtain ⟨k, v⟩ := e
    obtain ⟨hk, hrest⟩ := List.nodup_cons.1 nodup
    by_cases h : name = k
    · subst h
      have hv : (name, a) ∉ rest := by
        intro ha
        exact hk (List.mem_map.2 ⟨_, ha, rfl⟩)
      simp [hv, eq_comm]
    · rw [List.lookup_cons, beq_false_of_ne h]
      simpa [h] using ih hrest

theorem mem_values_of_find? {t : Table α} {name : String} {a : α} (h : t.find? name = some a) :
    a ∈ t.values :=
  List.mem_map.2 ⟨_, find?_eq_some_iff.1 h, rfl⟩

theorem mem_of_find? {t : Table α} {name : String} {a : α} (h : t.find? name = some a) :
    name ∈ t :=
  find?_isSome_iff.1 (by simp [h])

/-- A name of the table has a value. -/
theorem exists_find?_of_mem {t : Table α} {name : String} (h : name ∈ t) :
    ∃ a, t.find? name = some a :=
  Option.isSome_iff_exists.1 (find?_isSome_iff.2 h)

theorem find?_eq_none_of_not_mem {t : Table α} {name : String} (h : name ∉ t) :
    t.find? name = none := by
  rw [← find?_isSome_iff] at h
  simpa using h

/-- A known name keeps its place and takes the new value; a new name goes to the end. -/
def put (name : String) (value : α) : List (String × α) → List (String × α)
  | [] => [(name, value)]
  | (k, v) :: rest => if k = name then (k, value) :: rest else (k, v) :: put name value rest

theorem map_fst_put (name : String) (value : α) (entries : List (String × α)) :
    (put name value entries).map Prod.fst =
      if name ∈ entries.map Prod.fst then entries.map Prod.fst
      else entries.map Prod.fst ++ [name] := by
  induction entries with
  | nil => simp [put]
  | cons e rest ih =>
    obtain ⟨k, v⟩ := e
    by_cases h : k = name
    · subst h; simp [put]
    · have h' : ¬ name = k := fun e => h e.symm
      simp only [put, h, if_false, List.map_cons, ih, List.mem_cons, h', false_or]
      split <;> simp

/-- The table with a value for one more name, or with a new value for a known name. -/
def insert (t : Table α) (name : String) (value : α) : Table α where
  entries := put name value t.entries
  nodup := by
    rw [map_fst_put]
    split
    · exact t.nodup
    · rename_i h
      rw [List.nodup_append]
      exact ⟨t.nodup, by simp, fun a ha b hb => by
        simp only [List.mem_singleton] at hb
        rintro rfl
        exact h (hb ▸ ha)⟩

theorem put_of_not_mem {name : String} {value : α} {entries : List (String × α)}
    (h : name ∉ entries.map Prod.fst) : put name value entries = entries ++ [(name, value)] := by
  induction entries with
  | nil => rfl
  | cons e rest ih =>
    obtain ⟨k, v⟩ := e
    simp only [List.map_cons, List.mem_cons, not_or] at h
    have hne : ¬ k = name := fun heq => h.1 heq.symm
    rw [put, if_neg hne, ih h.2, List.cons_append]

/-- A new name goes to the end of a table. -/
theorem entries_insert_of_not_mem {t : Table α} {name : String} {value : α} (h : name ∉ t) :
    (t.insert name value).entries = t.entries ++ [(name, value)] :=
  put_of_not_mem h

/-- The table of the given entries, a repeated name keeping its first place and taking its last
value. -/
def ofList (entries : List (String × α)) : Table α :=
  entries.foldl (fun t e => t.insert e.1 e.2) empty

/-- A table of entries without a repeated name holds them as they are given. -/
theorem entries_ofList {entries : List (String × α)} (h : (entries.map Prod.fst).Nodup) :
    (ofList entries).entries = entries := by
  have hfold : ∀ t : Table α, ((t.entries ++ entries).map Prod.fst).Nodup →
      (entries.foldl (fun t e => t.insert e.1 e.2) t).entries = t.entries ++ entries := by
    clear h
    induction entries with
    | nil => simp
    | cons e rest ih =>
      intro t ht
      have hnew : e.1 ∉ t := by
        rw [mem_iff, names]
        rw [List.map_append, List.nodup_append] at ht
        intro he
        exact ht.2.2 _ he _ (by simp) rfl
      have hentries : (t.insert e.1 e.2).entries = t.entries ++ [e] :=
        entries_insert_of_not_mem hnew
      rw [List.foldl_cons, ih, hentries, List.append_assoc, List.singleton_append]
      rwa [hentries, List.append_assoc, List.singleton_append]
  exact hfold empty h

end Table

end RandomDerivation
