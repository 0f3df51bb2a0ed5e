import RandomDerivation.Proofs.CommandLine.Numbers

/-!
# Arguments of a command

Arguments are sorted one by one and used from left to right. A command takes all that stands behind
its name, and what it leaves is refused. The path of a configuration that starts with a dash may be
taken for an option; any other is taken for what it is.
-/

namespace RandomDerivation.CommandLine

/-- Both commands that read a configuration take the text for a path, and the program can sort it
among its own arguments. -/
structure IsPath (text : String) : Prop where
  main : ∃ t, classifyOne mainLayout.options text = .ok t
  generate : classify generateLayout.options [text] = .ok [.plain text]
  validate : classify (singleLayout "config").options [text] = .ok [.plain text]

/-- The program passes the text on to a command: it can sort it among its own arguments, and its
options do not end there. -/
def Passes (text : String) : Prop :=
  text ≠ "--" ∧ ∃ t, classifyOne mainLayout.options text = .ok t

theorem classify_cons {options : List Opt} {text : String} (h : text ≠ "--")
    (rest : List String) :
    classify options (text :: rest) = (do
      let token ← classifyOne options text
      return token :: (← classify options rest)) := by
  rw [classify.eq_3]
  exact h

/-- An argument that is sorted is kept as it is. -/
theorem text_of_classifyOne {options : List Opt} {text : String} {t : Token}
    (h : classifyOne options text = .ok t) : t.text = text := by
  have hreadings : classifyOne.byReadings options text = .ok t → t.text = text := by
    intro h
    unfold classifyOne.byReadings at h
    split at h
    · split at h <;> cases h <;> rfl
    · cases h
      rfl
    · cases h
  unfold classifyOne at h
  split at h
  · cases h
    rfl
  split at h
  · cases h
    rfl
  split at h
  · cases h
    rfl
  split at h
  · split at h
    · cases h
      rfl
    · exact hreadings h
  · exact hreadings h

theorem classify_cons_eq_ok {options : List Opt} {text : String} {t : Token} {rest : List String}
    {tokens : List Token} (hne : text ≠ "--") (ht : classifyOne options text = .ok t)
    (hrest : classify options rest = .ok tokens) :
    classify options (text :: rest) = .ok (t :: tokens) := by
  rw [classify_cons hne, ht, hrest]
  rfl

/-- Arguments that are passed on one by one are passed on together. -/
theorem exists_classify {args : List String} (h : ∀ text ∈ args, Passes text) :
    ∃ tokens, classify mainLayout.options args = .ok tokens ∧ tokens.map Token.text = args := by
  induction args with
  | nil => exact ⟨[], rfl, rfl⟩
  | cons text rest ih =>
    obtain ⟨⟨hne, t, ht⟩, hrest⟩ := List.forall_mem_cons.1 h
    obtain ⟨tokens, htokens, htexts⟩ := ih hrest
    exact ⟨t :: tokens, classify_cons_eq_ok hne ht htokens, by
      rw [List.map_cons, text_of_classifyOne ht, htexts]⟩

theorem ne_separator_of_classify {options : List Opt} {text : String}
    (h : classify options [text] = .ok [.plain text]) : text ≠ "--" := by
  rintro rfl
  cases h

theorem classifyOne_of_classify {options : List Opt} {text : String}
    (h : classify options [text] = .ok [.plain text]) :
    classifyOne options text = .ok (.plain text) := by
  rw [classify_cons (ne_separator_of_classify h)] at h
  cases hone : classifyOne options text with
  | error complaint => simp [hone, bind, Except.bind] at h
  | ok t =>
    simp only [hone, bind, Except.bind, classify, pure, Except.pure, Except.ok.injEq,
      List.cons.injEq, and_true] at h
    rw [h]

theorem ne_separator_of_not_startsWith {text : String} (h : startsWith "-" text = false) :
    text ≠ "--" := by
  rintro rfl
  cases h

theorem passes_of_not_startsWith {text : String} (h : startsWith "-" text = false) :
    Passes text :=
  ⟨ne_separator_of_not_startsWith h, _, classifyOne_of_not_startsWith h⟩

theorem IsPath.passes {text : String} (h : IsPath text) : Passes text :=
  ⟨ne_separator_of_classify h.generate, h.main⟩

/-- What does not start with a dash is taken for a path. -/
theorem isPath_of_not_startsWith {text : String} (h : startsWith "-" text = false) :
    IsPath text := by
  have hne := ne_separator_of_not_startsWith h
  have hplain : ∀ options, classify options [text] = .ok [.plain text] :=
    fun options => classify_cons_eq_ok hne (classifyOne_of_not_startsWith h) rfl
  exact ⟨⟨_, classifyOne_of_not_startsWith h⟩, hplain _, hplain _⟩

section
variable {ε σ : Type} {options : List Opt} {act : σ → Use → Except ε σ} {refuse : Complaint → ε}
  {s : σ}

theorem consume_nil : consume options act refuse [] [] s = .ok (s, []) := by
  rw [consume]
  rfl

/-- Positional arguments that match are used, and what is behind them is left. -/
theorem consume_plain {ps left : List Positional} {text : String} {rest others : List Token}
    {uses : List Use}
    (hmatch : matchPositionals ps (.plain text :: rest) = (uses, left, others))
    (hshorter : others.length ≤ rest.length) :
    consume options act refuse ps (.plain text :: rest) s = (do
      consume options act refuse left others (← uses.foldlM act s)) := by
  rw [consume]
  · simp only [hmatch, if_pos hshorter]
  all_goals simp

/-- A text that no positional argument is left for is kept apart. -/
theorem consume_extra {text : String} {rest : List Token} :
    consume options act refuse [] (.plain text :: rest) s =
      (consume options act refuse [] rest s).map fun (s, extras) => (s, text :: extras) := by
  have hlonger : ¬ (Token.plain text :: rest).length ≤ rest.length := by simp
  have hmatch : matchPositionals [] (.plain text :: rest) = ([], [], .plain text :: rest) := rfl
  rw [consume]
  · simp only [hmatch, List.foldlM_nil, pure_bind, if_neg hlonger]
    cases consume options act refuse [] rest s <;> rfl
  all_goals simp

/-- A text other than the separator is a value by itself. -/
theorem dropSeparator_singleton {text : String} (h : text ≠ "--") :
    dropSeparator [text] = [text] := by
  simp [dropSeparator, h]

/-- An option takes the text behind it as its value. -/
theorem consume_value {ps : List Positional} {o : Opt} {name text : String} {rest : List Token}
    (hvalue : o.takesValue = true) (htext : text ≠ "--") :
    consume options act refuse ps (.known name o name none :: .plain text :: rest) s = (do
      consume options act refuse ps rest (← act s (.option o [text]))) := by
  rw [consume]
  simp only [hvalue, Option.isNone_none, Bool.and_true, if_true, dropSeparator_singleton htext,
    List.foldlM_nil, bind, Except.bind, pure, Except.pure]

/-- What looks like an option is not taken as a value. -/
theorem consume_unknown_value {ps : List Positional} {o : Opt} {name text : String}
    {rest : List Token} (hvalue : o.takesValue = true) :
    consume options act refuse ps (.known name o name none :: .unknown text :: rest) s =
      .error (refuse (.valueExpected o.title)) := by
  rw [consume]
  simp only [hvalue, Option.isNone_none, Bool.and_true, if_true, bind, Except.bind]

end

/-- A command takes all that follows its name, as long as the program passes it on. What the command
leaves is refused. -/
theorem parse_eq {name : String} {args : List String} (hname : startsWith "-" name = false)
    (hargs : ∀ text ∈ args, Passes text) :
    Invocation.parse (name :: args) = (do
      let (r, others) ← parseCommand name args
      if others.isEmpty then return { verbose := false, request := r }
      else throw (.refused mainManual (.unrecognized others))) := by
  obtain ⟨tokens, htokens, htexts⟩ := exists_classify hargs
  have hclassify := classify_cons_eq_ok (ne_separator_of_not_startsWith hname)
    (classifyOne_of_not_startsWith hname) htokens
  have hmatch : matchPositionals mainLayout.positionals (.plain name :: tokens) =
      ([.positional ⟨"cmd", .command⟩ (name :: tokens.map Token.text)], [], []) := rfl
  have hrun : mainLayout.run MainArguments.take (.refused mainManual) {} (name :: args) =
      (parseCommand name args).map fun command => ({ command := some command }, []) := by
    rw [Layout.run, hclassify]
    refine (consume_plain hmatch (Nat.zero_le _)).trans ?_
    rw [htexts, List.foldlM_cons, MainArguments.take]
    cases parseCommand name args with
    | error stop => rfl
    | ok command => exact consume_nil
  rw [Invocation.parse, hrun]
  cases parseCommand name args with
  | error stop => rfl
  | ok command => rfl

section
variable {path : String} (h : IsPath path)
include h

theorem parseSingle_validate : parseSingle validateManual "config" [path] = .ok (path, []) := by
  have hvalues := dropSeparator_singleton (ne_separator_of_classify h.validate)
  have hmatch : matchPositionals [⟨"config", .one⟩] [.plain path] =
      ([.positional ⟨"config", .one⟩ (dropSeparator [path])], [], []) := rfl
  rw [hvalues] at hmatch
  have hrun : (singleLayout "config").run (takeSingle validateManual) (.refused validateManual)
      none [path] = .ok (some path, []) := by
    rw [Layout.run, h.validate]
    exact (consume_plain hmatch (Nat.zero_le _)).trans consume_nil
  rw [parseSingle, hrun]
  rfl

/-- The invocation that checks the configuration at a path. -/
theorem parse_validate : Invocation.parse ["validate", path] = .ok ⟨false, .validate path⟩ := by
  rw [parse_eq rfl (by simpa using h.passes), parseCommand, parseSingle_validate h]
  rfl

end

end RandomDerivation.CommandLine
