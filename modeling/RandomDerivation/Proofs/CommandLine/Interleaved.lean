import RandomDerivation.Proofs.CommandLine.Files

/-!
# Options among paths

The command that derives a tree takes two paths, of which the second may be left out. Positional
arguments are matched as many at a time as stand together, so that options in front of the first
path and behind the second one come to the same as options behind both. When an option stands
between the paths, the first one is matched without the second, and the second one is left over
and refused.
-/

namespace RandomDerivation.CommandLine

/-- The command that derives a tree, with options before, between and behind its two paths. -/
def arranged (before between after : List Given) (config output : String) : List String :=
  "generate" :: (textsOf before ++ config :: (textsOf between ++ output :: textsOf after))

section
variable {config output : String}

/-- The first path is matched with the second one when it stands right behind, and without it
else. -/
theorem consume_paths (hconfig : config ≠ "--") (houtput : output ≠ "--")
    (between after : List Given) (s : GenerateArguments) :
    consume generateLayout.options GenerateArguments.take (.refused generateManual)
        generateLayout.positionals
        (.plain config :: (tokensOf between ++ .plain output :: tokensOf after)) s =
      (settle (between ++ after) s).map fun s =>
        if between = [] then (s.placed config (some output), [])
        else (s.placed config none, [output]) := by
  cases between with
  | nil =>
    have hmatch : matchPositionals generateLayout.positionals
          (.plain config :: .plain output :: tokensOf after) =
        ([.positional ⟨"config", .one⟩ (dropSeparator [config]),
          .positional ⟨"output", .atMostOne⟩ (dropSeparator [output])], [], tokensOf after) := by
      cases after <;> rfl
    rw [dropSeparator_singleton hconfig, dropSeparator_singleton houtput] at hmatch
    refine (consume_plain hmatch (Nat.le_succ _)).trans ?_
    refine (consume_tokensOf_nil after (s.placed config (some output))).trans ?_
    rw [settle_placed]
    cases hsettle : settle after s <;> simp [hsettle, Except.map]
  | cons g groups =>
    have hnext : ∀ t ∈ (tokensOf (g :: groups) ++ .plain output :: tokensOf after).head?,
        t.isOption = true := by
      rintro _ ⟨⟩
      rfl
    refine (consume_config hconfig hnext s).trans ?_
    refine (consume_tokensOf (g :: groups) [] _ (s.placed config none)).trans ?_
    rw [settle_placed, settle_append]
    cases settle (g :: groups) s with
    | error stop => rfl
    | ok s =>
      refine (consume_extra (s := s.placed config none)).trans ?_
      rw [consume_tokensOf_nil, settle_placed]
      cases hsettle : settle after s <;> simp [hsettle, Except.map, bind, Except.bind]

section
variable (hconfig : startsWith "-" config = false) (houtput : startsWith "-" output = false)
include hconfig houtput

theorem parseGenerate_arranged (before between after : List Given) :
    parseGenerate (textsOf before ++ config :: (textsOf between ++ output :: textsOf after)) =
      (settle (before ++ (between ++ after)) {}).map fun s =>
        if between = [] then (.generate config (some output) s.depth s.seed s.format, [])
        else (.generate config none s.depth s.seed s.format, [output]) := by
  have hconfigNe := ne_separator_of_not_startsWith hconfig
  have houtputNe := ne_separator_of_not_startsWith houtput
  have hclassify := classify_textsOf before (classify_cons_eq_ok hconfigNe
    (classifyOne_of_not_startsWith hconfig) (classify_textsOf between
      (classify_cons_eq_ok houtputNe (classifyOne_of_not_startsWith houtput)
        (classify_textsOf_nil after))))
  have hrun : generateLayout.run GenerateArguments.take (.refused generateManual) {}
      (textsOf before ++ config :: (textsOf between ++ output :: textsOf after)) =
        (settle (before ++ (between ++ after)) {}).map fun s =>
          if between = [] then (s.placed config (some output), [])
          else (s.placed config none, [output]) := by
    rw [Layout.run, hclassify]
    refine (consume_tokensOf before _ _ _).trans ?_
    rw [settle_append]
    cases settle before {} with
    | error stop => rfl
    | ok s => exact consume_paths hconfigNe houtputNe between after s
  rw [parseGenerate, hrun]
  cases settle (before ++ (between ++ after)) {} with
  | error stop => rfl
  | ok s => cases between <;> rfl

/-- The invocation that arguments with options before, between and behind the paths stand for. The
options are used up before the second path is refused, so that the first of them that is not taken
counts. -/
theorem parse_arranged (before between after : List Given) :
    Invocation.parse (arranged before between after config output) =
      (settle (before ++ (between ++ after)) {}).bind fun s =>
        if between = [] then
          .ok ⟨false, .generate config (some output) s.depth s.seed s.format⟩
        else .error (.refused mainManual (.unrecognized [output])) := by
  have hargs : ∀ text ∈ textsOf before ++ config :: (textsOf between ++ output :: textsOf after),
      Passes text := by
    intro text htext
    simp only [List.mem_append, List.mem_cons] at htext
    rcases htext with htext | rfl | htext | rfl | htext
    · exact passes_of_mem_textsOf htext
    · exact passes_of_not_startsWith hconfig
    · exact passes_of_mem_textsOf htext
    · exact passes_of_not_startsWith houtput
    · exact passes_of_mem_textsOf htext
  rw [arranged, parse_eq rfl hargs, parseCommand, if_pos rfl,
    parseGenerate_arranged hconfig houtput]
  cases settle (before ++ (between ++ after)) {} with
  | error stop => rfl
  | ok s => cases between <;> rfl

end

end

theorem message_unrecognized (text : String) :
    (Complaint.unrecognized [text]).message = "unrecognized arguments: " ++ text := rfl

/-- How the program refuses a text that is left over. -/
theorem report_unrecognized (text : String) :
    (Stop.refused mainManual (.unrecognized [text])).report =
      { ending := .code 2
        stderr := mainManual.usage ++ "treegen: error: unrecognized arguments: " ++ text ++
          "\n" } := by
  have htitle : mainManual.program ++ (": error: " ++ "unrecognized arguments: ") =
    "treegen: error: unrecognized arguments: " := rfl
  simp only [Stop.report, message_unrecognized, String.append_assoc]
  rw [← htitle]
  simp only [String.append_assoc]

/-- The second path is refused when an option stands between the paths and all values are taken. -/
theorem parse_arranged_eq_error {config output : String}
    (hconfig : startsWith "-" config = false) (houtput : startsWith "-" output = false)
    (before between after : List Given) (hne : between ≠ [])
    (htaken : ∀ g ∈ before ++ (between ++ after), g.IsTaken) :
    Invocation.parse (arranged before between after config output) =
      .error (.refused mainManual (.unrecognized [output])) := by
  obtain ⟨s, hs⟩ := exists_settle htaken {}
  rw [parse_arranged hconfig houtput, hs]
  exact if_neg hne

/-- Two paths that do not start with a dash are given, with options before, between and behind
them. If no option stands between the paths, or one of the values is not taken, the run comes to
the same as with all options behind both paths. If an option stands between the paths and all
values are taken, the second path is refused: nothing is printed, and no file is touched. The order
of different options behind both paths does not count. -/
theorem run_arranged (entropy : Int) (fs : FileSystem) {config output : String}
    (hconfig : startsWith "-" config = false) (houtput : startsWith "-" output = false)
    (before between after : List Given) :
    let groups := before ++ (between ++ after)
    (between = [] ∨ (∃ g ∈ groups, ¬ g.IsTaken) →
      run entropy (arranged before between after config output) fs =
        run entropy (arranged [] [] groups config output) fs) ∧
    (between ≠ [] → (∀ g ∈ groups, g.IsTaken) →
      run entropy (arranged before between after config output) fs =
        ({ ending := .code 2
           stdout := ""
           stderr := mainManual.usage ++ "treegen: error: unrecognized arguments: " ++ output ++
             "\n" }, fs)) ∧
    ((∀ g ∈ groups, g.IsTaken) → (groups.map Given.option).Nodup →
      ∀ groups', groups.Perm groups' →
        run entropy (arranged [] [] groups' config output) fs =
          run entropy (arranged [] [] groups config output) fs) := by
  intro groups
  have hparse := parse_arranged hconfig houtput
  refine ⟨?_, ?_, ?_⟩
  · intro h
    have hsame : Invocation.parse (arranged before between after config output) =
        Invocation.parse (arranged [] [] groups config output) := by
      rw [hparse, hparse, List.nil_append, List.nil_append]
      rcases h with rfl | hnot
      · rfl
      · obtain ⟨stop, hstop⟩ := exists_stop_of_settle hnot {}
        rw [hstop]
        rfl
    rw [run, run, hsame]
  · intro hne htaken
    rw [run, parse_arranged_eq_error hconfig houtput _ _ _ hne htaken]
    exact congrArg (·, fs) (report_unrecognized output)
  · intro htaken hnodup groups' hperm
    have hsame : Invocation.parse (arranged [] [] groups' config output) =
        Invocation.parse (arranged [] [] groups config output) := by
      rw [hparse, hparse, List.nil_append, List.nil_append, List.nil_append, List.nil_append,
        settle_perm hperm htaken hnodup]
    rw [run, run, hsame]

/-- A seed behind the paths may as well stand in front of a depth bound that stood before them. A
seed between the paths keeps the tree from being written. -/
theorem run_arranged_branching :
    startsWith "-" "config.json" = false ∧ startsWith "-" "tree.json" = false ∧
      run 0 ["generate", "--depth", "0", "config.json", "tree.json", "--seed", "-18"]
          branchingFiles =
        run 0 ["generate", "config.json", "tree.json", "--seed", "-18", "--depth", "0"]
          branchingFiles ∧
      (run 0 ["generate", "config.json", "tree.json", "--seed", "-18", "--depth", "0"]
        branchingFiles).2.read "tree.json" =
          .ok (Utf8.encode (Format.json.text cutOffBranch).toList) ∧
      run 0 ["generate", "config.json", "--seed", "-18", "tree.json"] branchingFiles =
        ({ ending := .code 2
           stdout := ""
           stderr := mainManual.usage ++ "treegen: error: unrecognized arguments: " ++
             "tree.json" ++ "\n" }, branchingFiles) := by
  have hconfig : startsWith "-" "config.json" = false := rfl
  have houtput : startsWith "-" "tree.json" = false := rfl
  have hdepth : (Given.ofDepth 0).IsTaken := Given.isTaken_ofDepth rfl
  have hseed : (Given.ofSeed (-18)).IsTaken := Given.isTaken_ofSeed rfl
  have haround : arranged [.ofDepth 0] [] [.ofSeed (-18)] "config.json" "tree.json" =
    ["generate", "--depth", "0", "config.json", "tree.json", "--seed", "-18"] := rfl
  have hbehind : arranged [] [] [.ofSeed (-18), .ofDepth 0] "config.json" "tree.json" =
    ["generate", "config.json", "tree.json", "--seed", "-18", "--depth", "0"] := rfl
  have hbetween : arranged [] [.ofSeed (-18)] [] "config.json" "tree.json" =
    ["generate", "config.json", "--seed", "-18", "tree.json"] := rfl
  obtain ⟨hsame, -, hperm⟩ :=
    run_arranged 0 branchingFiles hconfig houtput [.ofDepth 0] [] [.ofSeed (-18)]
  obtain ⟨-, hrefused, -⟩ := run_arranged 0 branchingFiles hconfig houtput [] [.ofSeed (-18)] []
  have hdifferent : ([Given.ofDepth 0, Given.ofSeed (-18)].map Given.option).Nodup := by decide
  have hbehindSame := hperm (by simp [hdepth, hseed]) hdifferent [.ofSeed (-18), .ofDepth 0]
    (List.Perm.swap _ _ [])
  have hparse : Invocation.parse
      ["generate", "config.json", "tree.json", "--seed", "-18", "--depth", "0"] =
      .ok ⟨false, .generate "config.json" (some "tree.json") (.value 0) (.value (-18)) .json⟩ := by
    have hsettle : settle [.ofSeed (-18), .ofDepth 0] {} =
        .ok { depth := .value 0, seed := .value (-18) } :=
      (settle_cons_of_apply (Given.apply_ofSeed (by decide) _) _).trans
        (settle_cons_of_apply (Given.apply_ofDepth (by decide) _) [])
    rw [← hbehind, parse_arranged hconfig houtput, List.nil_append, List.nil_append, hsettle]
    rfl
  have hderives : Derives 0 (branchingFiles.read "config.json") "config.json" (.value 0)
      (.value (-18)) cutOffBranch _ := ⟨loadConfig_branching, rfl, deriveTree_branching_zero 0 _⟩
  obtain ⟨after, hwrite⟩ := write_branchingFiles (.tail _ (.head _))
    (Utf8.encode (Format.json.text cutOffBranch).toList)
  obtain ⟨_, -, hread, -⟩ := FileSystem.write_eq_ok hwrite
  rw [← haround, ← hbetween, run_of_derives_of_write hparse hderives hwrite]
  refine ⟨hconfig, houtput, ?_, hread, hrefused (List.cons_ne_nil _ _) (by simp [hseed])⟩
  rw [← run_of_derives_of_write hparse hderives hwrite, ← hbehind]
  exact (hsame (.inl rfl)).trans hbehindSame.symm

/-- A format between the paths is not the same as behind them. -/
theorem run_between_branching :
    startsWith "-" "config.json" = false ∧ startsWith "-" "tree.json" = false ∧
      (run 0 ["generate", "config.json", "--format", "json", "tree.json"]
        branchingFiles).1.ending = .code 2 ∧
      (run 0 ["generate", "config.json", "tree.json", "--format", "json"]
        branchingFiles).1.ending = .code 0 := by
  have hbetween : Invocation.parse ["generate", "config.json", "--format", "json", "tree.json"] =
      .error (.refused mainManual (.unrecognized ["tree.json"])) :=
    parse_arranged_eq_error rfl rfl [] [.ofFormat .json] [] (List.cons_ne_nil _ _)
      (by simp [Given.isTaken_ofFormat])
  have hbehind : Invocation.parse ["generate", "config.json", "tree.json", "--format", "json"] =
      .ok ⟨false, .generate "config.json" (some "tree.json") .unset .unset .json⟩ :=
    parse_arranged rfl rfl [] [] [.ofFormat .json]
  obtain ⟨after, hwrite⟩ := write_branchingFiles (.tail _ (.head _))
    (Utf8.encode (Format.json.text branchingTree).toList)
  refine ⟨rfl, rfl, ?_, ?_⟩
  · rw [run, hbetween]
    rfl
  · rw [run_of_derives_of_write hbehind (derives_branching 0) hwrite]
    rfl

end RandomDerivation.CommandLine
