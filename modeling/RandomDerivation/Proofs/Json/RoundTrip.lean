import RandomDerivation.Proofs.Json.Scalar
import RandomDerivation.Proofs.Json.Writable

/-!
# What is written is read back

The text of a value is read as this value, wherever in a document it stands. The proof follows the
value: an item or a member is read up to the comma or the bracket behind it, since neither of these
goes on with a number, and blanks are passed by. Doubles are left out, and so are whole numbers too
long to be read and objects with two members of one name.

No carriage return is written at all, so that reading the lines of a file changes nothing.
-/

namespace RandomDerivation.Json

/-- What holds of the plain values, and of arrays and objects when it holds of what is inside of
them, holds of every value. -/
theorem induction {P : Json → Prop} (null : P .null) (bool : ∀ b, P (.bool b))
    (int : ∀ n, P (.int n)) (float : ∀ x, P (.float x)) (str : ∀ s, P (.str s))
    (arr : ∀ items, (∀ v ∈ items, P v) → P (.arr items))
    (obj : ∀ members : List (String × Json), (∀ e ∈ members, P e.2) → P (.obj members)) :
    ∀ v, P v
  | .null => null
  | .bool b => bool b
  | .int n => int n
  | .float x => float x
  | .str s => str s
  | .arr items => arr items fun v _ => induction null bool int float str arr obj v
  | .obj members => obj members fun e _ => induction null bool int float str arr obj e.2
termination_by v => sizeOf v
decreasing_by
  · rename_i h
    have := List.sizeOf_lt_of_mem h
    rw [Json.arr.sizeOf_spec]
    omega
  · rename_i h
    have := List.sizeOf_lt_of_mem h
    rw [Json.obj.sizeOf_spec]
    obtain ⟨name, v⟩ := e
    rw [Prod.mk.sizeOf_spec] at this
    dsimp only
    omega

mutual

/-- Whether a value has no doubles inside of it. -/
def isFloatFree : Json → Bool
  | .float _ => false
  | .arr items => areFloatFree items
  | .obj members => membersFloatFree members
  | _ => true

def areFloatFree : List Json → Bool
  | [] => true
  | v :: rest => isFloatFree v && areFloatFree rest

def membersFloatFree : List (String × Json) → Bool
  | [] => true
  | (_, v) :: rest => isFloatFree v && membersFloatFree rest

end

theorem isFloatFree_arr {items : List Json} :
    (arr items).isFloatFree = true ↔ ∀ v ∈ items, v.isFloatFree = true := by
  rw [isFloatFree]
  induction items with
  | nil => simp [areFloatFree]
  | cons v rest ih => rw [areFloatFree, Bool.and_eq_true, ih, List.forall_mem_cons]

theorem isFloatFree_obj {members : List (String × Json)} :
    (obj members).isFloatFree = true ↔ ∀ e ∈ members, e.2.isFloatFree = true := by
  rw [isFloatFree]
  induction members with
  | nil => simp [membersFloatFree]
  | cons e rest ih => rw [membersFloatFree, Bool.and_eq_true, ih, List.forall_mem_cons]

theorem skip_of_not_isBlank {c : Char} (h : isBlank c = false) (s : List Char) :
    skip (c :: s) = c :: s :=
  List.dropWhile_cons_of_neg (by simp [h])

theorem skip_newline (level : Nat) (s : List Char) : skip (newline level ++ s) = skip s := by
  have hblank : ∀ c ∈ newline level, isBlank c = true := by
    intro c hc
    rcases List.mem_cons.1 hc with rfl | hspace
    · rfl
    · rw [List.eq_of_mem_replicate hspace]
      rfl
  exact List.dropWhile_append_of_pos hblank

theorem skip_quoted (name : String) (s : List Char) :
    skip (quoted name ++ s) = quoted name ++ s := by
  rw [quoted_append, skip_of_not_isBlank rfl]

/-- A character that may start the text of a value. -/
def StartsValue (c : Char) : Prop := isBlank c = false ∧ c ≠ ']' ∧ c ≠ '\uFEFF'

instance : DecidablePred StartsValue := fun _ => inferInstanceAs (Decidable (_ ∧ _))

theorem exists_write_eq_cons (n : Int) :
    ∃ c s, (Integer.write n).toList = c :: s ∧ StartsValue c := by
  obtain ⟨d, ds, hdigits, hd⟩ := exists_toDigits_eq_cons n.natAbs
  by_cases hn : n < 0
  · exact ⟨'-', _, toList_write_of_neg hn, by decide⟩
  · rw [toList_write_of_not_neg hn]
    have hblank : isBlank d = false := by
      rw [Bool.eq_false_iff]
      intro hblank
      simp only [isBlank, Bool.or_eq_true, decide_eq_true_iff] at hblank
      rcases hblank with ((rfl | rfl) | rfl) | rfl <;> cases hd
    exact ⟨d, ds, hdigits, hblank, ne_of_isDigit hd rfl, ne_of_isDigit hd rfl⟩

theorem exists_text_eq_cons {v : Json} (h : v.isFloatFree = true) (level : Nat) :
    ∃ c s, text level v = c :: s ∧ StartsValue c := by
  cases v with
  | null => exact ⟨'n', _, rfl, by decide⟩
  | bool b =>
    cases b with
    | false => exact ⟨'f', _, rfl, by decide⟩
    | true => exact ⟨'t', _, rfl, by decide⟩
  | int n => exact exists_write_eq_cons n
  | float x => cases h
  | str s => exact ⟨'"', _, rfl, by decide⟩
  | arr items =>
    cases items with
    | nil => exact ⟨'[', _, rfl, by decide⟩
    | cons v rest => exact ⟨'[', _, rfl, by decide⟩
  | obj members =>
    cases members with
    | nil => exact ⟨'\x7b', _, rfl, by decide⟩
    | cons e rest => exact ⟨'\x7b', _, rfl, by decide⟩

theorem skip_text {v : Json} (h : v.isFloatFree = true) (level : Nat) (rest : List Char) :
    skip (text level v ++ rest) = text level v ++ rest := by
  obtain ⟨c, s, htext, hc, -⟩ := exists_text_eq_cons h level
  rw [htext, List.cons_append, skip_of_not_isBlank hc]

theorem itemsText_cons_append (level : Nat) (v : Json) (vs : List Json) (s : List Char) :
    itemsText level (v :: vs) ++ s =
      ',' :: (newline level ++ (text level v ++ (itemsText level vs ++ s))) := by
  simp [itemsText]

theorem membersText_cons_append (level : Nat) (name : String) (v : Json)
    (ms : List (String × Json)) (s : List Char) :
    membersText level ((name, v) :: ms) ++ s =
      ',' :: (newline level ++
        (quoted name ++ ':' :: ' ' :: (text level v ++ (membersText level ms ++ s)))) := by
  simp [membersText]

theorem text_arr_append (level : Nat) (v : Json) (vs : List Json) (s : List Char) :
    text level (.arr (v :: vs)) ++ s =
      '[' :: (newline (level + 1) ++ (text (level + 1) v ++
        (itemsText (level + 1) vs ++ (newline level ++ ']' :: s)))) := by
  simp [text]

theorem text_obj_append (level : Nat) (name : String) (v : Json) (ms : List (String × Json))
    (s : List Char) :
    text level (.obj ((name, v) :: ms)) ++ s =
      '\x7b' :: (newline (level + 1) ++ (quoted name ++ ':' :: ' ' :: (text (level + 1) v ++
        (membersText (level + 1) ms ++ (newline level ++ '\x7d' :: s))))) := by
  simp [text]

theorem endsNumber_newline (level : Nat) (s : List Char) : EndsNumber (newline level ++ s) :=
  endsNumber_cons (by decide) _

theorem endsNumber_itemsText (level outer : Nat) (vs : List Json) (s : List Char) :
    EndsNumber (itemsText level vs ++ (newline outer ++ s)) := by
  cases vs with
  | nil => exact endsNumber_newline outer s
  | cons v vs =>
    rw [itemsText_cons_append]
    exact endsNumber_cons (by decide) _

theorem endsNumber_membersText (level outer : Nat) (ms : List (String × Json)) (s : List Char) :
    EndsNumber (membersText level ms ++ (newline outer ++ s)) := by
  cases ms with
  | nil => exact endsNumber_newline outer s
  | cons e ms =>
    rw [membersText_cons_append]
    exact endsNumber_cons (by decide) _

/-! ## Steps of the reader -/

section
variable {s rest rest' rest'' : List Char} {v : Json} {vs : List Json} {name : String}
  {ms : List (String × Json)}

/-- The items behind one of them: none before the closing bracket, or more behind a comma. -/
inductive ItemsBehind (s : List Char) : List Json → List Char → Prop where
  | last {more : List Char} : skip s = ']' :: more → ItemsBehind s [] more
  | comma {more rest : List Char} {vs : List Json} :
    skip s = ',' :: more → Gives (items (skip more)) vs rest → ItemsBehind s vs rest

/-- The members behind one of them: none before the closing brace, or more behind a comma. -/
inductive MembersBehind (s : List Char) : List (String × Json) → List Char → Prop where
  | last {more : List Char} : skip s = '\x7d' :: more → MembersBehind s [] more
  | comma {more rest : List Char} {ms : List (String × Json)} :
    skip s = ',' :: more → Gives (members (skip more)) ms rest → MembersBehind s ms rest

/-- A value, and the items behind it. -/
theorem items_of_value (hv : Gives (value s) v rest) (hvs : ItemsBehind rest vs rest') :
    Gives (items s) (v :: vs) rest' := by
  obtain ⟨hlt, hvalue⟩ := hv
  rw [items.eq_def, hvalue]
  simp only [bind, Except.bind]
  cases hvs with
  | last hskip =>
    split
    · rename_i hmore
      rw [hskip] at hmore
      cases hmore
      exact ⟨_, rfl⟩
    · rename_i hmore
      rw [hskip] at hmore
      cases hmore
    · rename_i hother _
      exact absurd hskip (hother _)
  | comma hskip hmore =>
    obtain ⟨hlt', hitems⟩ := hmore
    split
    · rename_i hmore
      rw [hskip] at hmore
      cases hmore
    · rename_i hmore
      rw [hskip] at hmore
      cases hmore
      rw [hitems]
      exact ⟨_, rfl⟩
    · rename_i hother
      exact absurd hskip (hother _)

/-- A quoted name with a value behind the colon, and the members behind them. -/
theorem members_of_name (hv : Gives (value (skip rest)) v rest')
    (hms : MembersBehind rest' ms rest'') :
    Gives (members (quoted name ++ ':' :: rest)) ((name, v) :: ms) rest'' := by
  obtain ⟨hlt, hvalue⟩ := hv
  obtain ⟨hlt', hname⟩ := stringBody_escape
    ('"' :: (name.toList.flatMap escape ++ '"' :: ':' :: rest)) name.toList (':' :: rest)
  rw [quoted_append, members.eq_def]
  simp only [hname, bind, Except.bind]
  split
  · rename_i hcolon
    rw [skip_of_not_isBlank rfl] at hcolon
    cases hcolon
    rw [hvalue, String.ofList_toList]
    dsimp only
    cases hms with
    | last hskip =>
      split
      · rename_i hmore
        rw [hskip] at hmore
        cases hmore
        exact ⟨_, rfl⟩
      · rename_i hmore
        rw [hskip] at hmore
        cases hmore
      · rename_i hother _
        exact absurd hskip (hother _)
    | comma hskip hmore =>
      obtain ⟨hlt'', hmembers⟩ := hmore
      split
      · rename_i hmore
        rw [hskip] at hmore
        cases hmore
      · rename_i hmore
        rw [hskip] at hmore
        cases hmore
        rw [hmembers]
        exact ⟨_, rfl⟩
      · rename_i hother
        exact absurd hskip (hother _)
  · rename_i hother
    exact absurd (skip_of_not_isBlank rfl _) (hother _)

theorem value_of_items (hnone : ∀ more, skip s ≠ ']' :: more)
    (h : Gives (items (skip s)) vs rest) :
    Gives (value ('[' :: s)) (.arr vs) rest := by
  obtain ⟨hlt, hitems⟩ := h
  rw [value]
  split
  · rename_i hmore
    exact absurd hmore (hnone _)
  · rw [hitems]
    exact ⟨_, rfl⟩

theorem value_of_members (hnone : ∀ more, skip s ≠ '\x7d' :: more)
    (h : Gives (members (skip s)) ms rest) :
    Gives (value ('\x7b' :: s)) (ofMembers ms) rest := by
  obtain ⟨hlt, hmembers⟩ := h
  rw [value]
  split
  · rename_i hmore
    exact absurd hmore (hnone _)
  · rw [hmembers]
    exact ⟨_, rfl⟩

theorem value_arr_nil : Gives (value ('[' :: ']' :: rest)) (.arr []) rest := by
  rw [value.eq_def]
  exact ⟨Nat.lt_succ_of_lt (Nat.lt_succ_self _), rfl⟩

theorem value_obj_nil : Gives (value ('\x7b' :: '\x7d' :: rest)) (.obj []) rest := by
  rw [value.eq_def]
  exact ⟨Nat.lt_succ_of_lt (Nat.lt_succ_self _), rfl⟩

end

theorem ofMembers_of_nodup {members : List (String × Json)}
    (h : (members.map Prod.fst).Nodup) : ofMembers members = .obj members := by
  rw [ofMembers, Table.entries_ofList h]

/-! ## Values -/

/-- The value is read where it is written, at every level and in front of everything that does
not go on with a number. -/
structure ReadsBack (v : Json) : Prop where
  isFloatFree : v.isFloatFree = true
  value : ∀ (level : Nat) {rest : List Char}, EndsNumber rest →
    Gives (Json.value (text level v ++ rest)) v rest

/-- Blanks in front of the value are passed by. -/
theorem ReadsBack.value_skip {v : Json} (h : ReadsBack v) (level : Nat) {rest : List Char}
    (hrest : EndsNumber rest) :
    Gives (Json.value (skip (text level v ++ rest))) v rest := by
  rw [skip_text h.isFloatFree]
  exact h.value level hrest

/-- The items behind the first are read as they are written, up to the closing bracket. -/
theorem itemsBehind_text {vs : List Json} (hvs : ∀ v ∈ vs, ReadsBack v) (level outer : Nat)
    (rest : List Char) :
    ItemsBehind (itemsText level vs ++ (newline outer ++ ']' :: rest)) vs rest := by
  induction vs with
  | nil =>
    apply ItemsBehind.last
    rw [itemsText, List.nil_append, skip_newline, skip_of_not_isBlank rfl]
  | cons v vs ih =>
    obtain ⟨hv, hvs⟩ := List.forall_mem_cons.1 hvs
    rw [itemsText_cons_append]
    apply ItemsBehind.comma (skip_of_not_isBlank rfl _)
    rw [skip_newline, skip_text hv.isFloatFree]
    exact items_of_value (hv.value level (endsNumber_itemsText level outer vs _)) (ih hvs)

/-- The members behind the first are read as they are written, up to the closing brace. -/
theorem membersBehind_text {ms : List (String × Json)} (hms : ∀ e ∈ ms, ReadsBack e.2)
    (level outer : Nat) (rest : List Char) :
    MembersBehind (membersText level ms ++ (newline outer ++ '\x7d' :: rest)) ms rest := by
  induction ms with
  | nil =>
    apply MembersBehind.last
    rw [membersText, List.nil_append, skip_newline, skip_of_not_isBlank rfl]
  | cons e ms ih =>
    obtain ⟨name, v⟩ := e
    obtain ⟨hv, hms⟩ := List.forall_mem_cons.1 hms
    rw [membersText_cons_append]
    apply MembersBehind.comma (skip_of_not_isBlank rfl _)
    rw [skip_newline, skip_quoted]
    exact members_of_name (hv.value_skip level (endsNumber_membersText level outer ms _)) (ih hms)

/-- Behind the bracket of an array that is not empty comes no other bracket. -/
theorem skip_text_ne_bracket {v : Json} (h : v.isFloatFree = true) (level : Nat)
    (s more : List Char) : skip (newline level ++ (text level v ++ s)) ≠ ']' :: more := by
  obtain ⟨c, body, htext, -, hc, -⟩ := exists_text_eq_cons h level
  rw [skip_newline, skip_text h, htext]
  rintro heq
  cases heq
  exact hc rfl

/-- A value without doubles is read where it is written. -/
theorem readsBack {v : Json} (hfree : v.isFloatFree = true) (hwritable : v.isWritable = true)
    (hdistinct : v.hasDistinctNames = true) : ReadsBack v := by
  induction v using Json.induction with
  | null => exact ⟨hfree, fun _ {rest} _ => value_null rest⟩
  | bool b => exact ⟨hfree, fun _ {rest} _ => value_bool b rest⟩
  | int n => exact ⟨hfree, fun _ {rest} hrest => value_write hwritable hrest⟩
  | float x => cases hfree
  | str s => exact ⟨hfree, fun _ {rest} _ => value_quoted s rest⟩
  | arr items ih =>
    have hitems : ∀ v ∈ items, ReadsBack v := fun v hv =>
      ih v hv (isFloatFree_arr.1 hfree v hv) (isWritable_arr.1 hwritable v hv)
        (hasDistinctNames_arr.1 hdistinct v hv)
    refine ⟨hfree, fun level rest _ => ?_⟩
    cases items with
    | nil => exact value_arr_nil
    | cons v vs =>
      obtain ⟨hv, hvs⟩ := List.forall_mem_cons.1 hitems
      rw [text_arr_append]
      refine value_of_items (skip_text_ne_bracket hv.isFloatFree _ _) ?_
      rw [skip_newline, skip_text hv.isFloatFree]
      exact items_of_value
        (hv.value (level + 1) (endsNumber_itemsText (level + 1) level vs _))
        (itemsBehind_text hvs (level + 1) level rest)
  | obj members ih =>
    obtain ⟨hnodup, hnames⟩ := hasDistinctNames_obj.1 hdistinct
    have hmembers : ∀ e ∈ members, ReadsBack e.2 := fun e he =>
      ih e he (isFloatFree_obj.1 hfree e he) (isWritable_obj.1 hwritable e he) (hnames e he)
    refine ⟨hfree, fun level rest _ => ?_⟩
    cases members with
    | nil => exact value_obj_nil
    | cons e ms =>
      obtain ⟨name, v⟩ := e
      obtain ⟨hv, hms⟩ := List.forall_mem_cons.1 hmembers
      have hskip : ∀ s : List Char, skip (newline (level + 1) ++ (quoted name ++ s)) =
          quoted name ++ s := fun s => by rw [skip_newline, skip_quoted]
      -- The members that are read make a table, which is the object since no name is repeated.
      rw [text_obj_append, ← ofMembers_of_nodup hnodup]
      refine value_of_members (fun more heq => ?_) ?_
      · rw [hskip, quoted_append] at heq
        cases heq
      · rw [hskip]
        exact members_of_name
          (hv.value_skip (level + 1) (endsNumber_membersText (level + 1) level ms _))
          (membersBehind_text hms (level + 1) level rest)

/-- What is written is read back, with a line end behind it. -/
theorem read_text {v : Json} (hfree : v.isFloatFree = true) (hwritable : v.isWritable = true)
    (hdistinct : v.hasDistinctNames = true) : read (text 0 v ++ ['\n']) = .ok v := by
  have hread : Gives (value (skip (text 0 v ++ ['\n']))) v ['\n'] := by
    rw [skip_text hfree]
    exact (readsBack hfree hwritable hdistinct).value 0 (endsNumber_newline 0 [])
  obtain ⟨hlt, hvalue⟩ := hread
  have hdocument : document (text 0 v ++ ['\n']) = .ok v := by
    unfold document
    split
    · rename_i heq
      obtain ⟨c, s, htext, -, -, hmark⟩ := exists_text_eq_cons hfree 0
      rw [htext] at heq
      cases heq
      exact absurd rfl hmark
    · rw [hvalue]
      rfl
  rw [read, hdocument]

/-! ## Carriage returns -/

theorem Written.return_not_mem {c : Char} {written : List Char} (h : Written c written) :
    '\r' ∉ written := by
  have hdigit : ∀ d < 16, '\r' ≠ Nat.digitChar d := by decide
  cases h with
  | plain _ _ hcontrol =>
    rw [List.mem_singleton]
    rintro rfl
    exact hcontrol (by decide)
  | letter _ hletter =>
    have hne : ∀ {letter : Char}, unescape? letter = some c → '\r' ≠ letter := by
      rintro _ hsome rfl
      cases hsome
    simp [hne hletter]
  | number hcontrol =>
    simp [hdigit (c.toNat / 16) (by omega), hdigit (c.toNat % 16) (by omega)]

theorem return_not_mem_quoted (s : String) : '\r' ∉ quoted s := by
  simp [quoted, fun c => (written_escape c).return_not_mem]

theorem return_not_mem_newline (level : Nat) : '\r' ∉ newline level := by
  simp [newline]

theorem return_not_mem_write (n : Int) : '\r' ∉ (Integer.write n).toList := by
  have hdigits : '\r' ∉ Nat.toDigits 10 n.natAbs := fun h => by
    cases isDigit_of_mem_toDigits h
  by_cases hn : n < 0
  · simpa [toList_write_of_neg hn] using hdigits
  · rwa [toList_write_of_not_neg hn]

theorem return_not_mem_itemsText {level : Nat} {vs : List Json}
    (h : ∀ v ∈ vs, '\r' ∉ text level v) : '\r' ∉ itemsText level vs := by
  induction vs with
  | nil => simp [itemsText]
  | cons v vs ih =>
    obtain ⟨hv, hvs⟩ := List.forall_mem_cons.1 h
    simp [itemsText, return_not_mem_newline, hv, ih hvs]

theorem return_not_mem_membersText {level : Nat} {ms : List (String × Json)}
    (h : ∀ e ∈ ms, '\r' ∉ text level e.2) : '\r' ∉ membersText level ms := by
  induction ms with
  | nil => simp [membersText]
  | cons e ms ih =>
    obtain ⟨he, hms⟩ := List.forall_mem_cons.1 h
    simp [membersText, return_not_mem_newline, return_not_mem_quoted, he, ih hms]

/-- Nothing in a document ends a line with a carriage return. -/
theorem return_not_mem_text {v : Json} (hfree : v.isFloatFree = true) (level : Nat) :
    '\r' ∉ text level v := by
  induction v using Json.induction generalizing level with
  | null => simp [text, scalarText]
  | bool b => cases b <;> simp [text, scalarText]
  | int n => exact return_not_mem_write n
  | float x => cases hfree
  | str s => exact return_not_mem_quoted s
  | arr items ih =>
    have hitems : ∀ v ∈ items, '\r' ∉ text (level + 1) v := fun v hv =>
      ih v hv (isFloatFree_arr.1 hfree v hv) (level + 1)
    cases items with
    | nil => simp [text]
    | cons v vs =>
      obtain ⟨hv, hvs⟩ := List.forall_mem_cons.1 hitems
      simp [text, return_not_mem_newline, hv, return_not_mem_itemsText hvs]
  | obj members ih =>
    have hmembers : ∀ e ∈ members, '\r' ∉ text (level + 1) e.2 := fun e he =>
      ih e he (isFloatFree_obj.1 hfree e he) (level + 1)
    cases members with
    | nil => simp [text]
    | cons e ms =>
      obtain ⟨he, hms⟩ := List.forall_mem_cons.1 hmembers
      simp [text, return_not_mem_newline, return_not_mem_quoted, he,
        return_not_mem_membersText hms]

end RandomDerivation.Json
