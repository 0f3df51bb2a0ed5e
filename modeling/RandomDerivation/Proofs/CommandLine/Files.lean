import RandomDerivation.Proofs.CommandLine.Validate
import RandomDerivation.Proofs.FileSystem

/-!
# Files and what is printed

A request prints or leaves a file to be written, and it does so last. So a run that fails has
printed nothing and has not touched any file. A run that succeeds changes the file that it was
given as its output and no other, and what stands there is what would have been printed without
it.
-/

namespace RandomDerivation.CommandLine

/-- The path of the file that a request writes, if there is one. -/
def Request.output? : Request → Option String
  | .generate _ output _ _ _ => output
  | .validate _ => none
  | .writeExample output => some output

/-- Why a request fails, given the content of the file that it reads: its configuration cannot be
loaded, or its depth bound and seed cannot be settled, or a draw goes on for ever. -/
inductive Fails (entropy : Int) (content : Except Fault Utf8.Bytes) : Request → Fault → Prop where
  | unloaded {r : Request} {path : String} {f : Fault} :
    r.input? = some path → LoadFault path content f → Fails entropy content r f
  | unsettled {config : String} {output : Option String} {depth seed : Setting Int}
      {format : Format} {c : Config} {log : Log} {f : Fault} :
    loadConfig config content [] = .ok c log → settings c depth seed = .error f →
      Fails entropy content (.generate config output depth seed format) f
  | endless {config : String} {output : Option String} {depth seed : Setting Int}
      {format : Format} {c : Config} {log log' : Log} {bound : Nat} {chosen : Option Int}
      {s : Source} {n : Nat} :
    loadConfig config content [] = .ok c log → settings c depth seed = .ok (bound, chosen) →
      s.Waits n → deriveTree c.grammar bound chosen entropy log = .error .exhausted log' →
      Fails entropy content (.generate config output depth seed format) .exhausted
  /-- The sample for a summary goes on for ever. -/
  | endlessSample {config : String} {c : Config} {log log' : Log} {s : Source} {n : Nat} :
    loadConfig config content [] = .ok c log → s.Waits n →
      deriveTree c.grammar c.depth c.seed entropy log = .error .exhausted log' →
      Fails entropy content (.validate config) .exhausted

section
variable {entropy : Int} {content : Except Fault Utf8.Bytes} {r : Request} {f : Fault}
  {shown : Shown}

/-- When a request fails, nothing has been printed; only a draw that goes on for ever may stand
behind some lines of a summary. -/
theorem answer_eq_error (h : r.answer entropy content {} = .error f shown) :
    Fails entropy content r f ∧ (f = .exhausted ∨ shown.stdout = "") := by
  cases r with
  | generate config output depth seed format =>
    rw [answer_generate] at h
    split at h
    · rename_i hload
      cases h
      exact ⟨.unloaded rfl (loadConfig_eq_error.1 ⟨_, hload⟩), .inr rfl⟩
    rename_i c log hload
    split at h
    · rename_i hsettings
      cases h
      exact ⟨.unsettled hload hsettings, .inr rfl⟩
    rename_i bound chosen hsettings
    rcases deriveTree_cases bound chosen entropy log (isWritable_of_loadConfig hload).leaves with
      ⟨t, hderive, -⟩ | ⟨⟨s, n, hwaits⟩, hderive⟩
    · rw [hderive] at h
      cases output <;> cases h
    · rw [hderive] at h
      cases h
      exact ⟨.endless hload hsettings hwaits hderive, .inl rfl⟩
  | validate config =>
    rw [answer_validate] at h
    split at h
    · rename_i hload
      cases h
      exact ⟨.unloaded rfl (loadConfig_eq_error.1 ⟨_, hload⟩), .inr rfl⟩
    rename_i c log hload
    rcases deriveTree_cases c.depth c.seed entropy log (isWritable_of_loadConfig hload).leaves with
      ⟨t, hderive, -⟩ | ⟨⟨s, n, hwaits⟩, hderive⟩
    · rw [hderive] at h
      cases h
    · rw [hderive] at h
      cases h
      exact ⟨.endlessSample hload hwaits hderive, .inl rfl⟩
  | writeExample output =>
    obtain ⟨log, hanswer⟩ := answer_writeExample entropy content output {}
    rw [hanswer] at h
    cases h

/-- A request fails for each of these reasons. -/
theorem Fails.answer_eq_error (h : Fails entropy content r f) :
    ∃ shown, r.answer entropy content {} = .error f shown := by
  cases h with
  | unloaded hinput hfault =>
    have hload : ∃ log, loadConfig _ content [] = .error f log := loadConfig_eq_error.2 hfault
    obtain ⟨log, hload⟩ := hload
    refine ⟨⟨log, ""⟩, ?_⟩
    cases r with
    | generate =>
      cases hinput
      simp only [answer_generate, hload]
    | validate =>
      cases hinput
      simp only [answer_validate, hload]
    | writeExample => cases hinput
  | @unsettled _ _ _ _ _ _ log _ hload hsettings =>
    exact ⟨⟨log, ""⟩, by simp only [answer_generate, hload, hsettings]⟩
  | @endless _ _ _ _ _ _ _ log' _ _ _ _ hload hsettings _ hderive =>
    exact ⟨⟨log', ""⟩, by simp only [answer_generate, hload, hsettings, hderive]⟩
  | @endlessSample _ c _ log' _ _ hload _ hderive =>
    exact ⟨⟨log', "" ++ summaryHead c⟩, by simp only [answer_validate, hload, hderive]⟩

/-- A file that is left to be written has the path that was asked for, and nothing has been
printed then. -/
theorem answer_eq_ok {output : Option Output}
    (h : r.answer entropy content {} = .ok output shown) :
    output.map Output.path = r.output? ∧ (output ≠ none → shown.stdout = "") := by
  cases r with
  | generate path output' depth seed format =>
    rw [answer_generate] at h
    split at h
    · cases h
    split at h
    · cases h
    split at h
    · cases h
    cases output' <;> cases h <;> simp [Request.output?]
  | validate path =>
    rw [answer_validate] at h
    split at h
    · cases h
    split at h
    · cases h
      simp [Request.output?]
    · cases h
  | writeExample path =>
    obtain ⟨log, hanswer⟩ := answer_writeExample entropy content path {}
    rw [hanswer] at h
    cases h
    simp [Request.output?]

end

section
variable (verbose : Bool) (shown : Shown) (f : Fault)

theorem ending_faultReport : (faultReport verbose shown f).ending ≠ .code 0 := by
  cases f <;> simp [faultReport]

@[simp] theorem stdout_faultReport : (faultReport verbose shown f).stdout = shown.stdout := by
  cases f <;> rfl

theorem not_ends_exhausted : ¬ (faultReport verbose shown .exhausted).Ends :=
  fun h => h rfl

end

/-- What a run comes to: it ends with its arguments, or its request fails, or has nothing left to
be written, or leaves a file that is written or cannot be. -/
inductive Runs (entropy : Int) (args : List String) (fs : FileSystem) :
    Report × FileSystem → Prop where
  | stopped {stop : Stop} : Invocation.parse args = .error stop →
    Runs entropy args fs (stop.report, fs)
  | failed {i : Invocation} {f : Fault} {shown : Shown} : Invocation.parse args = .ok i →
    i.request.answer entropy (i.request.content fs) {} = .error f shown →
      Runs entropy args fs (faultReport i.verbose shown f, fs)
  | printed {i : Invocation} {shown : Shown} : Invocation.parse args = .ok i →
    i.request.answer entropy (i.request.content fs) {} = .ok none shown →
      Runs entropy args fs (successReport i.verbose shown, fs)
  | written {i : Invocation} {o : Output} {shown : Shown} {after : FileSystem} :
    Invocation.parse args = .ok i →
      i.request.answer entropy (i.request.content fs) {} = .ok (some o) shown →
      o.write fs = .ok () after → Runs entropy args fs (successReport i.verbose shown, after)
  | unwritten {i : Invocation} {o : Output} {f : Fault} {shown : Shown} {after : FileSystem} :
    Invocation.parse args = .ok i →
      i.request.answer entropy (i.request.content fs) {} = .ok (some o) shown →
      o.write fs = .error f after → Runs entropy args fs (faultReport i.verbose shown f, after)

theorem run_of_parse {args : List String} {i : Invocation} (h : Invocation.parse args = .ok i)
    (entropy : Int) (fs : FileSystem) : run entropy args fs = i.run entropy fs := by
  rw [run, h]

theorem runs (entropy : Int) (args : List String) (fs : FileSystem) :
    Runs entropy args fs (run entropy args fs) := by
  cases hparse : Invocation.parse args with
  | error stop =>
    rw [run, hparse]
    exact .stopped hparse
  | ok i =>
    rw [run_of_parse hparse, Invocation.run]
    cases hanswer : i.request.answer entropy (i.request.content fs) {} with
    | error f shown => exact .failed hparse hanswer
    | ok output shown =>
      cases output with
      | none => exact .printed hparse hanswer
      | some o =>
        dsimp only
        cases hwrite : o.write fs with
        | ok _ after => exact .written hparse hanswer hwrite
        | error f after => exact .unwritten hparse hanswer hwrite

/-! ## Files -/

section
variable {entropy : Int} {args : List String} {fs after : FileSystem} {report : Report}

/-- A run that fails has not touched any file, and has printed nothing. -/
theorem Runs.sameFiles_of_failure (h : Runs entropy args fs (report, after))
    (hcode : report.ending ≠ .code 0) :
    FileSystem.SameFiles none fs after ∧ (report.Ends → report.stdout = "") := by
  cases h with
  | @stopped stop _ =>
    cases stop with
    | help m => exact absurd rfl hcode
    | refused m complaint => exact ⟨.refl, fun _ => rfl⟩
  | printed => exact absurd rfl hcode
  | written => exact absurd rfl hcode
  | failed _ hanswer =>
    refine ⟨.refl, ?_⟩
    intro hends
    rw [stdout_faultReport]
    obtain ⟨-, rfl | hstdout⟩ := answer_eq_error hanswer
    · exact absurd hends (not_ends_exhausted _ _)
    · exact hstdout
  | unwritten _ hanswer hwrite =>
    obtain ⟨hsame, -⟩ := FileSystem.write_eq_error hwrite
    obtain ⟨-, hstdout⟩ := answer_eq_ok hanswer
    refine ⟨hsame, ?_⟩
    intro _
    rw [stdout_faultReport]
    exact hstdout (by simp)

/-- A run that succeeds changes no file other than the one that it was given as its output. -/
theorem Runs.sameFiles_of_success (h : Runs entropy args fs (report, after))
    (hcode : report.ending = .code 0) :
    ∃ written, FileSystem.SameFiles written fs after ∧
      ∀ place, written = some place → ∃ i path, Invocation.parse args = .ok i ∧
        i.request.output? = some path ∧ after.target path = .ok place := by
  cases h with
  | stopped => exact ⟨none, .refl, by simp⟩
  | printed => exact ⟨none, .refl, by simp⟩
  | failed => exact absurd hcode (ending_faultReport _ _ _)
  | unwritten => exact absurd hcode (ending_faultReport _ _ _)
  | @written i o _ _ hparse hanswer hwrite =>
    obtain ⟨place, htarget, -, hsame⟩ := FileSystem.write_eq_ok hwrite
    obtain ⟨hpath, -⟩ := answer_eq_ok hanswer
    refine ⟨some place, hsame, ?_⟩
    intro _ hplace
    cases hplace
    exact ⟨i, o.path, hparse, hpath.symm, htarget⟩

end

/-! ## What is printed without an output -/

section
variable {entropy entropy' : Int} {content : Except Fault Utf8.Bytes} {config : String}
  {depth seed : Setting Int} {format : Format} {t : Tree} {log : Log}

/-- The tree that is derived from the configuration in a file, and the events on the way. -/
inductive Derives (entropy : Int) (content : Except Fault Utf8.Bytes) (config : String)
    (depth seed : Setting Int) (t : Tree) (log : Log) : Prop where
  | intro {c : Config} {loaded : Log} {bound : Nat} {chosen : Option Int} :
    loadConfig config content [] = .ok c loaded → settings c depth seed = .ok (bound, chosen) →
      deriveTree c.grammar bound chosen entropy loaded = .ok t log →
      Derives entropy content config depth seed t log

/-- The text of the tree is printed, or left to be written. -/
theorem answer_generate_eq_ok {output : Option String} {o : Option Output} {shown : Shown} :
    (Request.generate config output depth seed format).answer entropy content {} = .ok o shown ↔
      ∃ t, Derives entropy content config depth seed t shown.log ∧
        match output with
        | none => o = none ∧ shown.stdout = format.text t
        | some path => o = some ⟨path, format.text t⟩ ∧ shown.stdout = "" := by
  rw [answer_generate]
  constructor
  · intro h
    split at h
    · cases h
    rename_i hload
    split at h
    · cases h
    rename_i hsettings
    split at h
    · cases h
    rename_i t _ hderive
    cases output with
    | none =>
      cases h
      exact ⟨t, ⟨hload, hsettings, hderive⟩, rfl, by simp⟩
    | some path =>
      cases h
      exact ⟨t, ⟨hload, hsettings, hderive⟩, rfl, rfl⟩
  · rintro ⟨t, ⟨hload, hsettings, hderive⟩, hshown⟩
    obtain ⟨log, stdout⟩ := shown
    simp only [hload, hsettings, hderive]
    cases output with
    | none =>
      obtain ⟨rfl, rfl⟩ := hshown
      simp
    | some path =>
      obtain ⟨rfl, rfl⟩ := hshown
      rfl

/-- The seed that a tree is derived from is settled if the configuration has one, or the command
line. -/
theorem exists_seed_of_settings {c : Config} {bound : Nat} {chosen : Option Int}
    (hseed : seed = .unset → c.seed ≠ none) (h : settings c depth seed = .ok (bound, chosen)) :
    ∃ n, chosen = some n := by
  unfold settings at h
  cases hbound : overrideDepth c.depth depth with
  | error f => simp [hbound, bind, Except.bind] at h
  | ok bound' =>
    cases seed with
    | unset =>
      simp [hbound, overrideSeed, bind, Except.bind, pure, Except.pure] at h
      obtain ⟨-, rfl⟩ := h
      exact Option.ne_none_iff_exists'.1 (hseed rfl)
    | blank => simp [hbound, overrideSeed, bind, Except.bind] at h
    | value n =>
      simp [hbound, overrideSeed, bind, Except.bind, pure, Except.pure] at h
      exact ⟨n, h.2.symm⟩

/-- When the seed is settled, the same tree is derived in every run. -/
theorem Derives.of_seed {c : Config} {loaded : Log}
    (hload : loadConfig config content [] = .ok c loaded) (hseed : seed = .unset → c.seed ≠ none)
    (h : Derives entropy content config depth seed t log) :
    Derives entropy' content config depth seed t log := by
  obtain ⟨hload', hsettings, hderive⟩ := h
  rw [hload] at hload'
  cases hload'
  obtain ⟨n, rfl⟩ := exists_seed_of_settings hseed hsettings
  rw [deriveTree_of_seed _ entropy _ n entropy'] at hderive
  exact ⟨hload, hsettings, hderive⟩

/-- The tree is printed when there is no output. -/
theorem run_of_derives {args : List String} {verbose : Bool} {fs : FileSystem}
    (hargs : Invocation.parse args = .ok ⟨verbose, .generate config none depth seed format⟩)
    (h : Derives entropy (fs.read config) config depth seed t log) :
    run entropy args fs = (successReport verbose ⟨log, format.text t⟩, fs) := by
  have hanswer : (Request.generate config none depth seed format).answer entropy
      (fs.read config) {} = .ok none ⟨log, format.text t⟩ :=
    answer_generate_eq_ok.2 ⟨t, h, rfl, rfl⟩
  simp only [run_of_parse hargs, Invocation.run, Request.content, Request.input?, hanswer]

/-- The tree is written when there is an output that can be written. -/
theorem run_of_derives_of_write {args : List String} {verbose : Bool} {fs fs' : FileSystem}
    {path : String}
    (hargs : Invocation.parse args = .ok ⟨verbose, .generate config (some path) depth seed format⟩)
    (h : Derives entropy (fs.read config) config depth seed t log)
    (hwrite : FileSystem.write path (Utf8.encode (format.text t).toList) fs = .ok () fs') :
    run entropy args fs = (successReport verbose ⟨log, ""⟩, fs') := by
  have hanswer : (Request.generate config (some path) depth seed format).answer entropy
      (fs.read config) {} = .ok (some ⟨path, format.text t⟩) ⟨log, ""⟩ :=
    answer_generate_eq_ok.2 ⟨t, h, rfl, rfl⟩
  simp only [run_of_parse hargs, Invocation.run, Request.content, Request.input?, hanswer,
    Output.write, hwrite]

end

/-- Some arguments ask for a tree to be written to a path, and others for the same without an
output. The seed is settled, by the configuration or by the arguments. -/
inductive WithoutOutput (fs : FileSystem) (path : String) (args args' : List String) : Prop where
  | intro {verbose verbose' : Bool} {config : String} {depth seed : Setting Int} {format : Format}
      {c : Config} {log : Log} :
    Invocation.parse args = .ok ⟨verbose, .generate config (some path) depth seed format⟩ →
      Invocation.parse args' = .ok ⟨verbose', .generate config none depth seed format⟩ →
      loadConfig config (fs.read config) [] = .ok c log → (seed = .unset → c.seed ≠ none) →
      WithoutOutput fs path args args'

/-- What is written to the output of a run is what the same request prints without an output. -/
theorem Runs.read_output {entropy : Int} {args args' : List String} {fs after : FileSystem}
    {report : Report} {path : String} (h : Runs entropy args fs (report, after))
    (hcode : report.ending = .code 0) (hwithout : WithoutOutput fs path args args')
    (entropy' : Int) :
    (run entropy' args' fs).1.ending = .code 0 ∧
      after.read path = .ok (Utf8.encode (run entropy' args' fs).1.stdout.toList) := by
  obtain ⟨hargs, hargs', hload, hseed⟩ := hwithout
  cases h with
  | stopped hparse =>
    rw [hargs] at hparse
    cases hparse
  | failed => exact absurd hcode (ending_faultReport _ _ _)
  | unwritten => exact absurd hcode (ending_faultReport _ _ _)
  | printed hparse hanswer =>
    rw [hargs] at hparse
    cases hparse
    obtain ⟨_, _, hnone, _⟩ := answer_generate_eq_ok.1 hanswer
    cases hnone
  | written hparse hanswer hwrite =>
    rw [hargs] at hparse
    cases hparse
    obtain ⟨t, hderives, houtput, -⟩ := answer_generate_eq_ok.1 hanswer
    cases houtput
    obtain ⟨_, -, hread, -⟩ := FileSystem.write_eq_ok hwrite
    -- With its seed settled, the same tree is derived when it is to be printed.
    rw [run_of_derives hargs' (hderives.of_seed hload hseed)]
    exact ⟨rfl, hread⟩

/-- A run that fails leaves all files as they are and prints nothing. A run that succeeds changes
at most the file that it was given as its output; and what a tree is written as there is what is
printed without an output, from the same files, as long as the seed is settled. -/
theorem run_files (entropy : Int) (args : List String) (fs : FileSystem) :
    let report := (run entropy args fs).1
    let after := (run entropy args fs).2
    (report.ending ≠ .code 0 →
      FileSystem.SameFiles none fs after ∧ (report.Ends → report.stdout = "")) ∧
    (report.ending = .code 0 → ∃ written, FileSystem.SameFiles written fs after ∧
      ∀ place, written = some place → ∃ i path, Invocation.parse args = .ok i ∧
        i.request.output? = some path ∧ after.target path = .ok place) ∧
    (report.ending = .code 0 → ∀ path args', WithoutOutput fs path args args' → ∀ entropy',
      (run entropy' args' fs).1.ending = .code 0 ∧
        after.read path = .ok (Utf8.encode (run entropy' args' fs).1.stdout.toList)) := by
  have h := runs entropy args fs
  exact ⟨h.sameFiles_of_failure, h.sameFiles_of_success, fun hcode _ _ => h.read_output hcode⟩

theorem derives_branching (entropy : Int) :
    Derives entropy (branchingFiles.read "config.json") "config.json" .unset .unset branchingTree
      [.registeredLeaf "color", .registeredNode "branch" 2,
        .derived "branch" 3 branchingTree.size branchingTree.height] :=
  ⟨loadConfig_branching, rfl, deriveTree_branching entropy _⟩

theorem write_branchingFiles {path : String} (h : path ∈ ["config.json", "tree.json"])
    (bytes : Utf8.Bytes) :
    ∃ after, FileSystem.write path bytes branchingFiles = .ok () after := by
  rcases List.mem_pair.1 h with rfl | rfl
  all_goals
    apply Exists.intro
    rfl

/-- The output may be the configuration itself. -/
theorem run_files_branching :
    WithoutOutput branchingFiles "config.json" ["generate", "config.json", "config.json"]
        ["generate", "config.json"] ∧
      (run 0 ["generate", "config.json", "config.json"] branchingFiles).1.ending = .code 0 ∧
      (run 1 ["generate", "config.json"] branchingFiles).1.stdout =
        Format.json.text branchingTree ∧
      (run 0 ["generate", "config.json", "config.json"] branchingFiles).2.read "config.json" =
        .ok (Utf8.encode (run 1 ["generate", "config.json"] branchingFiles).1.stdout.toList) := by
  have hargs : Invocation.parse ["generate", "config.json", "config.json"] =
    .ok ⟨false, .generate "config.json" (some "config.json") .unset .unset .json⟩ := by cbv
  have hargs' : Invocation.parse ["generate", "config.json"] =
    .ok ⟨false, .generate "config.json" none .unset .unset .json⟩ := by cbv
  have hwithout : WithoutOutput branchingFiles "config.json"
      ["generate", "config.json", "config.json"] ["generate", "config.json"] :=
    ⟨hargs, hargs', loadConfig_branching, by simp [branchingConfig]⟩
  have hcode : (run 0 ["generate", "config.json", "config.json"] branchingFiles).1.ending =
      .code 0 := by
    obtain ⟨after, hwrite⟩ := write_branchingFiles (.head _)
      (Utf8.encode (Format.json.text branchingTree).toList)
    rw [run_of_derives_of_write hargs (derives_branching 0) hwrite]
    rfl
  have hprinted : (run 1 ["generate", "config.json"] branchingFiles).1.stdout =
      Format.json.text branchingTree := by
    rw [run_of_derives hargs' (derives_branching 1)]
    rfl
  obtain ⟨-, -, hread⟩ := run_files 0 ["generate", "config.json", "config.json"] branchingFiles
  exact ⟨hwithout, hcode, hprinted, (hread hcode _ _ hwithout 1).2⟩

end RandomDerivation.CommandLine
