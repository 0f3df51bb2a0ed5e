import RandomDerivation.FileSystem
import RandomDerivation.Proofs.Action

/-!
# What writing changes

Writing a file makes directories and then gives one file a new content. Whatever fails on the way,
the files stay as they are; and when nothing fails, only the file that is written changes, and
reading it gives what was written.
-/

namespace RandomDerivation.FileSystem

/-- Every place but the one that is written holds the same file before and after, or none. -/
def SameFiles (written : Option Place) (before after : FileSystem) : Prop :=
  ∀ place, written ≠ some place → ∀ bytes,
    after.entryAt place = some (.file bytes) ↔ before.entryAt place = some (.file bytes)

section
variable {written : Option Place} {fs fs₁ fs₂ : FileSystem}

theorem SameFiles.refl : SameFiles written fs fs := fun _ _ _ => Iff.rfl

theorem SameFiles.trans (h : SameFiles written fs fs₁) (h' : SameFiles written fs₁ fs₂) :
    SameFiles written fs fs₂ :=
  fun place hplace bytes => (h' place hplace bytes).trans (h place hplace bytes)

theorem SameFiles.of_none (h : SameFiles none fs fs₁) : SameFiles written fs fs₁ :=
  fun place _ bytes => h place (by simp) bytes

end

section
variable {fs : FileSystem} {place other : Place} {entry : Entry}

theorem lookup_filter_of_ne {entries : List (Place × Entry)} (h : other ≠ place) :
    (entries.filter (fun e => e.1 ≠ place)).lookup other = entries.lookup other := by
  induction entries with
  | nil => rfl
  | cons e rest ih =>
    obtain ⟨p, v⟩ := e
    by_cases hp : p = place
    · have hother : (other == p) = false := by simp [hp, h]
      rw [List.lookup_cons, hother, List.filter_cons_of_neg (by simp [hp])]
      exact ih
    · rw [List.filter_cons_of_pos (by simpa using hp), List.lookup_cons, List.lookup_cons, ih]

theorem entryAt_put_of_ne (h : other ≠ place) :
    (fs.put place entry).entryAt other = fs.entryAt other := by
  have hother : (other == place) = false := by simp [h]
  simp only [entryAt, put, List.lookup_cons, hother, lookup_filter_of_ne h]

/-- What is put at a place that is no directory stands there. -/
theorem entryAt_put_self (h : fs.entryAt place ≠ some .directory) :
    (fs.put place entry).entryAt place = some entry := by
  have hhome : (fs.put place entry).home = fs.home := rfl
  unfold entryAt at h ⊢
  rw [hhome]
  split at h
  · exact absurd rfl h
  · rename_i hplace
    rw [if_neg hplace]
    simp [put]

theorem sameFiles_put : SameFiles (some place) fs (fs.put place entry) := by
  intro other hother bytes
  rw [entryAt_put_of_ne]
  rintro rfl
  exact hother rfl

end

/-! ## Making directories -/

/-- An action that does not touch any file, and fails only as operations on files do. -/
structure KeepsFiles {α : Type} (x : FileAction α) : Prop where
  ok : ∀ {fs a fs'}, x fs = .ok a fs' → SameFiles none fs fs'
  error : ∀ {fs f fs'}, x fs = .error f fs' →
    SameFiles none fs fs' ∧ ((∃ fault, f = .file fault) ∨ f = .pathWithNul)

namespace KeepsFiles
variable {α β : Type}

theorem pure (a : α) : KeepsFiles (Pure.pure a) where
  ok h := by
    obtain ⟨-, rfl⟩ := pure_eq_ok.1 h
    exact .refl
  error h := by cases h

theorem get : KeepsFiles (MonadState.get : FileAction FileSystem) where
  ok h := by
    cases h
    exact .refl
  error h := by cases h

theorem bind {x : FileAction α} {f : α → FileAction β} (hx : KeepsFiles x)
    (hf : ∀ a, KeepsFiles (f a)) : KeepsFiles (x >>= f) where
  ok h := by
    obtain ⟨a, fs₁, ha, hb⟩ := bind_eq_ok.1 h
    exact (hx.ok ha).trans ((hf a).ok hb)
  error h := by
    rcases bind_eq_error.1 h with hfirst | ⟨a, fs₁, ha, hsecond⟩
    · exact hx.error hfirst
    · obtain ⟨hsame, hfault⟩ := (hf a).error hsecond
      exact ⟨(hx.ok ha).trans hsame, hfault⟩

end KeepsFiles

/-- A directory is only put where nothing stands. -/
theorem sameFiles_put_directory {fs : FileSystem} {place : Place}
    (h : fs.entryAt place = none) : SameFiles none fs (fs.put place .directory) := by
  intro other _ bytes
  by_cases heq : other = place
  · have hput : (fs.put place .directory).entryAt place = some .directory := by
      apply entryAt_put_self
      simp [h]
    rw [heq, h, hput]
    simp
  · rw [entryAt_put_of_ne heq]

theorem makePlace_keepsFiles (path : String) (place : Place) :
    KeepsFiles (makePlace path place) := by
  have hrun : ∀ fs, (∃ fs', makePlace path place fs = .ok () fs' ∧ SameFiles none fs fs') ∨
      ∃ f, makePlace path place fs = .error f fs ∧
        ((∃ fault, f = .file fault) ∨ f = .pathWithNul) := by
    intro fs
    rw [makePlace, bind_run_of_ok (get_run fs)]
    dsimp only
    split
    · exact .inr ⟨_, rfl, .inr rfl⟩
    split
    · exact .inr ⟨_, rfl, .inl ⟨_, rfl⟩⟩
    cases hplace : fs.entryAt place with
    | some entry =>
      cases entry with
      | directory => exact .inl ⟨_, rfl, .refl⟩
      | file content => exact .inr ⟨_, rfl, .inl ⟨_, rfl⟩⟩
    | none =>
      cases fs.entryAt (above place) with
      | none => exact .inr ⟨_, rfl, .inl ⟨_, rfl⟩⟩
      | some entry =>
        cases entry with
        | file content => exact .inr ⟨_, rfl, .inl ⟨_, rfl⟩⟩
        | directory =>
          dsimp only
          split
          · exact .inr ⟨_, rfl, .inl ⟨_, rfl⟩⟩
          · exact .inl ⟨_, rfl, sameFiles_put_directory hplace⟩
  constructor
  · intro fs _ fs' h
    rcases hrun fs with ⟨fs₁, hok, hsame⟩ | ⟨f, herror, -⟩
    · rw [h] at hok
      cases hok
      exact hsame
    · rw [h] at herror
      cases herror
  · intro fs f fs' h
    rcases hrun fs with ⟨fs₁, hok, -⟩ | ⟨f', herror, hfault⟩
    · rw [h] at hok
      cases hok
    · rw [h] at herror
      cases herror
      exact ⟨.refl, hfault⟩

theorem makeDirectories_keepsFiles (lead : String) (place : Place) (names : List String) :
    KeepsFiles (makeDirectories lead place names) := by
  induction names generalizing place with
  | nil => exact .pure ()
  | cons name rest ih =>
    rw [makeDirectories]
    apply KeepsFiles.get.bind
    intro fs
    dsimp only
    split
    · exact ih _
    · exact (makePlace_keepsFiles _ _).bind fun _ => ih _

/-- Making the directories above a path does not touch any file. -/
theorem makeParents_keepsFiles (path : String) : KeepsFiles (makeParents path) :=
  KeepsFiles.get.bind fun _ => makeDirectories_keepsFiles _ _ _

/-! ## Where a path leads -/

/-- The last piece of a split list is only empty when the list is, or ends with a separator. -/
theorem getLast?_splitOn {α : Type} [BEq α] [LawfulBEq α] {a : α} {xs : List α}
    (h : (xs.splitOn a).getLast? = some []) : xs = [] ∨ xs.getLast? = some a := by
  induction xs with
  | nil => exact .inl rfl
  | cons x xs ih =>
    right
    have hne : xs.splitOn a ≠ [] := List.splitOn_ne_nil a xs
    obtain ⟨piece, pieces, hsplit⟩ := List.exists_cons_of_ne_nil hne
    rw [List.splitOn_cons_eq_if_modifyHead] at h
    by_cases hx : x = a
    · rw [if_pos (by simp [hx]), hsplit, List.getLast?_cons_cons, ← hsplit] at h
      rcases ih h with rfl | hend
      · simp [hx]
      · simp [List.getLast?_cons, hend]
    · rw [if_neg (by simp [hx]), hsplit, List.modifyHead_cons] at h
      cases pieces with
      | nil => simp at h
      | cons next pieces =>
        rw [List.getLast?_cons_cons, ← List.getLast?_cons_cons, ← hsplit] at h
        rcases ih h with rfl | hend
        · simp at hsplit
        · simp [List.getLast?_cons, hend]

/-- The last name of a path that does not end with a slash is not empty. -/
theorem last_name_ne_empty {path last : String} {before : List String} (hpath : path ≠ "")
    (hslash : path.toList.getLast? ≠ some '/') (h : names path = before ++ [last]) : last ≠ "" := by
  rintro rfl
  have hlast : (path.toList.splitOn '/').getLast? = some [] := by
    have hmap := congrArg List.getLast? h
    rw [names, List.getLast?_map, List.getLast?_concat, Option.map_eq_some_iff] at hmap
    obtain ⟨piece, hpiece, hempty⟩ := hmap
    rw [hpiece, String.ofList_eq_empty_iff.1 hempty]
  rcases getLast?_splitOn hlast with hnil | hend
  · exact hpath (String.toList_eq_nil_iff.1 hnil)
  · exact hslash hend

theorem exists_names_eq (path : String) : ∃ before last, names path = before ++ [last] := by
  have hne : names path ≠ [] := by simp [names, List.splitOn_ne_nil]
  exact ⟨_, _, (List.dropLast_concat_getLast hne).symm⟩

/-- What it means that a path creates a file under a name in a directory. -/
structure IsTarget (fs : FileSystem) (path : String) (directory : Place) (last : String) :
    Prop where
  ne_empty : path ≠ ""
  short : ¬ maxPathBytes < path.utf8ByteSize
  walk : ∃ before, names path = before ++ [last] ∧
    before.foldlM fs.enter (fs.startOf path) = .ok directory
  isDirectory : fs.entryAt directory = some .directory
  is_name : ¬ (path.toList.getLast? = some '/' ∨ last = "." ∨ last = "..")
  short_last : ¬ maxNameBytes < last.utf8ByteSize
  free : fs.entryAt (directory ++ [last]) ≠ some .directory

theorem isTarget_of_target {fs : FileSystem} {path : String} {place : Place}
    (h : fs.target path = .ok place) :
    ∃ directory last, place = directory ++ [last] ∧ fs.IsTarget path directory last := by
  obtain ⟨before, last, hnames⟩ := exists_names_eq path
  by_cases hpath : path = ""
  · simp [target, hpath, bind, Except.bind, throw, throwThe, MonadExceptOf.throw] at h
  by_cases hshort : maxPathBytes < path.utf8ByteSize
  · simp [target, hpath, hshort, bind, Except.bind, throw, throwThe, MonadExceptOf.throw] at h
  simp only [target, hpath, if_false, hshort, bind, Except.bind] at h
  split at h
  · cases h
  rename_i last' before' htrimmed
  split at h
  · cases h
  rename_i directory hwalk
  split at h
  · cases h
  · cases h
  rename_i hdirectory
  split at h
  · cases h
  rename_i hname
  split at h
  · cases h
  rename_i hlong
  split at h
  · cases h
  rename_i hfree
  cases h
  have hlast : last ≠ "" := by
    apply last_name_ne_empty hpath _ hnames
    intro hslash
    exact hname (.inl hslash)
  have hreverse : last' :: before' = last :: before.reverse := by
    rw [← htrimmed, hnames]
    simp [hlast]
  cases hreverse
  rw [List.reverse_reverse] at hwalk
  exact ⟨directory, last, rfl, hpath, hshort, ⟨before, hnames, hwalk⟩, hdirectory, hname, hlong,
    hfree⟩

theorem IsTarget.target_eq {fs : FileSystem} {path last : String} {directory : Place}
    (h : fs.IsTarget path directory last) : fs.target path = .ok (directory ++ [last]) := by
  obtain ⟨before, hnames, hwalk⟩ := h.walk
  have hlast : last ≠ "" := by
    apply last_name_ne_empty h.ne_empty _ hnames
    intro hslash
    exact h.is_name (.inl hslash)
  have htrimmed : (names path).reverse.dropWhile (· = "") = last :: before.reverse := by
    simp [hnames, hlast]
  simp only [target, h.ne_empty, if_false, h.short, htrimmed, List.reverse_reverse, hwalk, bind,
    Except.bind, h.isDirectory, h.is_name, h.short_last, h.free]
  rfl

/-! ## Writing -/

section
variable {fs fs' : FileSystem} {path last : String} {out place next : Place} {bytes : Utf8.Bytes}

/-- A file that is put where no directory stands does not get in the way. -/
theorem enter_put {name : String} (hout : fs.entryAt out ≠ some .directory)
    (h : fs.enter place name = .ok next) :
    (fs.put out (.file bytes)).enter place name = .ok next := by
  unfold enter at h
  split at h
  · cases h
  · cases h
  rename_i hplace
  have hne : place ≠ out := by
    rintro rfl
    exact hout hplace
  have hexists : (fs.entryAt (place ++ [name])).isSome →
      ((fs.put out (.file bytes)).entryAt (place ++ [name])).isSome := by
    intro hsome
    by_cases heq : place ++ [name] = out
    · rw [heq, entryAt_put_self hout]
      rfl
    · rwa [entryAt_put_of_ne heq]
  simp only [enter, entryAt_put_of_ne hne, hplace]
  split at h
  · rename_i hstay
    rwa [if_pos hstay]
  rename_i hgo
  rw [if_neg hgo]
  split at h
  · rename_i hup
    rwa [if_pos hup]
  rename_i hdown
  rw [if_neg hdown]
  split at h
  · cases h
  rename_i hshort
  rw [if_neg hshort]
  split at h
  · rename_i hsome
    rwa [if_pos (hexists hsome)]
  · cases h

theorem foldlM_enter_put {names : List String} (hout : fs.entryAt out ≠ some .directory)
    (h : names.foldlM fs.enter place = .ok next) :
    names.foldlM (fs.put out (.file bytes)).enter place = .ok next := by
  induction names generalizing place with
  | nil => exact h
  | cons name rest ih =>
    rw [List.foldlM_cons] at h ⊢
    cases hfirst : fs.enter place name with
    | error cause => simp [hfirst, bind, Except.bind] at h
    | ok between =>
      rw [hfirst] at h
      rw [enter_put hout hfirst]
      exact ih h

/-- The path of a file still leads to it when the file has been written. -/
theorem IsTarget.put (h : fs.IsTarget path place last) :
    (fs.put (place ++ [last]) (.file bytes)).IsTarget path place last := by
  have hne : place ≠ place ++ [last] := by simp
  obtain ⟨before, hnames, hwalk⟩ := h.walk
  exact {
    h with
    walk := ⟨before, hnames, foldlM_enter_put h.free hwalk⟩
    isDirectory := by rw [entryAt_put_of_ne hne, h.isDirectory]
    free := by simp [entryAt_put_self h.free] }

/-- What stands where a path creates a file is what reading the path gives. -/
theorem IsTarget.content_eq (h : fs.IsTarget path place last)
    (hfile : fs.entryAt (place ++ [last]) = some (.file bytes)) : fs.content path = .ok bytes := by
  obtain ⟨before, hnames, hwalk⟩ := h.walk
  have hlast : last ≠ "" := by
    apply last_name_ne_empty h.ne_empty _ hnames
    intro hslash
    exact h.is_name (.inl hslash)
  obtain ⟨-, hdot⟩ := not_or.1 h.is_name
  obtain ⟨hdot, hdots⟩ := not_or.1 hdot
  have henter : fs.enter place last = .ok (place ++ [last]) := by
    simp [enter, h.isDirectory, hlast, hdot, hdots, h.short_last, hfile]
  have hsteps : (names path).foldlM fs.enter (fs.startOf path) = .ok (place ++ [last]) := by
    rw [hnames, List.foldlM_append, hwalk]
    simp [bind, Except.bind, pure, Except.pure, henter]
  simp only [content, h.ne_empty, if_false, h.short, hsteps, bind, Except.bind, hfile]
  rfl

theorem create_run :
    create path bytes fs =
      if hasNul path then .error .pathWithNul fs
      else match fs.target path with
        | .ok place => .ok () (fs.put place (.file bytes))
        | .error cause => .error (.file ⟨cause, path⟩) fs := by
  rw [create]
  by_cases hnul : hasNul path = true
  · simp [hnul, bind_run]
  · cases htarget : fs.target path <;> simp [hnul, bind_run, htarget]

theorem create_eq_ok (h : create path bytes fs = .ok () fs') :
    hasNul path = false ∧ ∃ place, fs.target path = .ok place ∧
      fs' = fs.put place (.file bytes) := by
  rw [create_run] at h
  split at h
  · cases h
  rename_i hnul
  cases htarget : fs.target path with
  | ok place =>
    rw [htarget] at h
    cases h
    exact ⟨by simpa using hnul, place, rfl, rfl⟩
  | error cause =>
    rw [htarget] at h
    cases h

/-- A file that cannot be opened for writing is not touched. -/
theorem create_eq_error {f : Fault} (h : create path bytes fs = .error f fs') :
    fs' = fs ∧ ((∃ fault, f = .file fault) ∨ f = .pathWithNul) := by
  rw [create_run] at h
  split at h
  · cases h
    exact ⟨rfl, .inr rfl⟩
  cases htarget : fs.target path with
  | ok place =>
    rw [htarget] at h
    cases h
  | error cause =>
    rw [htarget] at h
    cases h
    exact ⟨rfl, .inl ⟨_, rfl⟩⟩

/-- After a file has been written, its path leads to a place where all that was written is read,
and at every other place the files are as before. -/
theorem write_eq_ok (h : write path bytes fs = .ok () fs') :
    ∃ place, fs'.target path = .ok place ∧ fs'.read path = .ok bytes ∧
      SameFiles (some place) fs fs' := by
  obtain ⟨_, fs₁, hparents, hcreate⟩ := bind_eq_ok.1 h
  obtain ⟨hnul, place, htarget, rfl⟩ := create_eq_ok hcreate
  obtain ⟨directory, last, rfl, hplace⟩ := isTarget_of_target htarget
  have hafter : (fs₁.put (directory ++ [last]) (.file bytes)).IsTarget path directory last :=
    hplace.put
  refine ⟨_, hafter.target_eq, ?_, ?_⟩
  · rw [read, hnul, hafter.content_eq (entryAt_put_self hplace.free)]
    rfl
  · exact ((makeParents_keepsFiles path).ok hparents).of_none.trans sameFiles_put

/-- When a file cannot be written, all files are as before. -/
theorem write_eq_error {f : Fault} (h : write path bytes fs = .error f fs') :
    SameFiles none fs fs' ∧ ((∃ fault, f = .file fault) ∨ f = .pathWithNul) := by
  rcases bind_eq_error.1 h with hparents | ⟨_, fs₁, hparents, hcreate⟩
  · exact (makeParents_keepsFiles path).error hparents
  · obtain ⟨rfl, hfault⟩ := create_eq_error hcreate
    exact ⟨(makeParents_keepsFiles path).ok hparents, hfault⟩

end

end RandomDerivation.FileSystem
