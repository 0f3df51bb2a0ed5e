import RandomDerivation.Proofs.CommandLine.Files

/-!
# Faults that are left to the caller

Faults of grammars and of files are reported in a line on standard error, and the program ends
with a code. Any other fault is left to the caller. Which these are, and when each of them comes
about, can be told from the file and the arguments: bytes that are no text, whole numbers that
are too long to be read or too large for a double, paths with a character that no path can hold,
options without their values, and draws that go on for ever.
-/

namespace RandomDerivation

/-- The program reports the fault itself. -/
def Fault.IsReported (f : Fault) : Prop := (∃ g, f = .grammar g) ∨ ∃ g, f = .file g

namespace CommandLine

/-- The program ends with code 2, and a line on standard error tells a fault of a grammar or of a
file. -/
def Report.Tells (r : Report) : Prop :=
  r.ending = .code 2 ∧ ∃ log,
    (∃ g : GrammarFault, r.stderr = log ++ "Grammar error: " ++ g.message ++ "\n") ∨
      ∃ g : FileFault, r.stderr = log ++ "File error: " ++ g.message ++ "\n"

/-- When a request ends with a fault that the program does not report. -/
inductive Escapes (entropy : Int) (fs : FileSystem) (r : Request) : Fault → Prop where
  | nulInConfig {path : String} :
    r.input? = some path → FileSystem.hasNul path = true → Escapes entropy fs r .pathWithNul
  | undecodable {path : String} {bytes : Utf8.Bytes} {fault : Utf8.Fault} :
    r.input? = some path → fs.read path = .ok bytes → Utf8.decode bytes = .error fault →
      Escapes entropy fs r (.undecodable fault)
  | integerTooLong {path : String} {bytes : Utf8.Bytes} {text : List Char} {digits : Nat} :
    r.input? = some path → fs.read path = .ok bytes → Utf8.decode bytes = .ok text →
      Json.read (LineEnd.normalize text) = .error (.tooLong digits) →
      Escapes entropy fs r (.integerTooLong digits)
  /-- All that is looked at before the number is as it should be. -/
  | numberTooLarge {path : String} {bytes : Utf8.Bytes} {document : Json} :
    r.input? = some path → fs.read path = .ok bytes → Holds bytes document →
      FirstBroken (Config.constraints document) .numberTooLarge →
      Escapes entropy fs r .numberTooLarge
  | boundBlank {config : String} {output : Option String} {seed : Setting Int} {format : Format}
      {c : Config} {log : Log} :
    r = .generate config output .blank seed format →
      loadConfig config (fs.read config) [] = .ok c log → Escapes entropy fs r .boundBlank
  | seedBlank {config : String} {output : Option String} {depth : Setting Int} {format : Format}
      {c : Config} {log : Log} {bound : Nat} :
    r = .generate config output depth .blank format →
      loadConfig config (fs.read config) [] = .ok c log →
      overrideDepth c.depth depth = .ok bound → Escapes entropy fs r .seedBlank
  /-- A tree is derived for a summary, and a draw for it goes on for ever. -/
  | endlessSample {config : String} {c : Config} {log log' : Log} {s : Source} {n : Nat} :
    r = .validate config → loadConfig config (fs.read config) [] = .ok c log → s.Waits n →
      deriveTree c.grammar c.depth c.seed entropy log = .error .exhausted log' →
      Escapes entropy fs r .exhausted
  /-- A draw for the tree goes on for ever. -/
  | endless {config : String} {output : Option String} {depth seed : Setting Int}
      {format : Format} {c : Config} {log log' : Log} {bound : Nat} {chosen : Option Int}
      {s : Source} {n : Nat} :
    r = .generate config output depth seed format →
      loadConfig config (fs.read config) [] = .ok c log →
      settings c depth seed = .ok (bound, chosen) → s.Waits n →
      deriveTree c.grammar bound chosen entropy log = .error .exhausted log' →
      Escapes entropy fs r .exhausted
  | nulInOutput {o : Output} {shown : Shown} {fs' : FileSystem} :
    r.answer entropy (r.content fs) {} = .ok (some o) shown →
      o.write fs = .error .pathWithNul fs' → Escapes entropy fs r .pathWithNul

section
variable (verbose : Bool) (shown : Shown) {f : Fault}

theorem tells_faultReport (h : f.IsReported) : (faultReport verbose shown f).Tells := by
  rcases h with ⟨g, rfl⟩ | ⟨g, rfl⟩
  · exact ⟨rfl, _, .inl ⟨g, rfl⟩⟩
  · exact ⟨rfl, _, .inr ⟨g, rfl⟩⟩

theorem faultReport_ending_eq_fault {f' : Fault} :
    (faultReport verbose shown f).ending = .fault f' ↔ f = f' ∧ ¬ f.IsReported := by
  cases f <;> simp [faultReport, Fault.IsReported]

end

section
variable {entropy : Int} {fs : FileSystem} {r : Request} {f : Fault} {path : String}

theorem content_of_input (h : r.input? = some path) : r.content fs = fs.read path := by
  rw [Request.content, h]

/-- What goes wrong with reading a file is reported, unless the path cannot be one. -/
theorem read_eq_error (h : fs.read path = .error f) :
    (∃ g, f = .file g) ∨ f = .pathWithNul ∧ FileSystem.hasNul path = true := by
  unfold FileSystem.read at h
  split at h
  · rename_i hnul
    cases h
    exact .inr ⟨rfl, hnul⟩
  · cases hcontent : fs.content path with
    | ok bytes =>
      rw [hcontent] at h
      cases h
    | error cause =>
      rw [hcontent] at h
      cases h
      exact .inl ⟨_, rfl⟩

theorem escapes_of_loadFault (hinput : r.input? = some path)
    (h : LoadFault path (fs.read path) f) : f.IsReported ∨ Escapes entropy fs r f := by
  cases h with
  | unread hcontent =>
    rcases read_eq_error hcontent with hfile | ⟨rfl, hnul⟩
    · exact .inl (.inr hfile)
    · exact .inr (.nulInConfig hinput hnul)
  | undecodable hcontent hdecode => exact .inr (.undecodable hinput hcontent hdecode)
  | malformed => exact .inl (.inl ⟨_, rfl⟩)
  | tooLong hcontent htext hread => exact .inr (.integerTooLong hinput hcontent htext hread)
  | schema hcontent hdocument hbroken =>
    obtain ⟨c, hc, -, rfl⟩ := hbroken.exists_mem
    rcases Config.fault_of_mem_constraints c hc with ⟨_, hconfig⟩ | ⟨_, _, hunresolved⟩ | hlarge
    · exact .inl (.inl ⟨_, hconfig⟩)
    · exact .inl (.inl ⟨_, hunresolved⟩)
    · rw [hlarge] at hbroken ⊢
      exact .inr (.numberTooLarge hinput hcontent hdocument hbroken)

/-- Why the depth bound or the seed cannot be had from the command line. -/
theorem settings_eq_error {c : Config} {depth seed : Setting Int}
    (h : settings c depth seed = .error f) :
    (∃ g, f = .grammar g) ∨ (f = .boundBlank ∧ depth = .blank) ∨
      f = .seedBlank ∧ seed = .blank ∧ ∃ bound, overrideDepth c.depth depth = .ok bound := by
  unfold settings at h
  cases hbound : overrideDepth c.depth depth with
  | error f' =>
    simp only [hbound, bind, Except.bind] at h
    cases h
    cases depth with
    | unset => cases hbound
    | blank =>
      cases hbound
      exact .inr (.inl ⟨rfl, rfl⟩)
    | value n =>
      by_cases hn : 0 ≤ n
      · simp [overrideDepth, Field.ensure, hn, bind, Except.bind, pure, Except.pure] at hbound
      · simp only [overrideDepth, Field.ensure, hn, decide_false, bind, Except.bind] at hbound
        cases hbound
        exact .inl ⟨_, rfl⟩
  | ok bound =>
    simp only [hbound, bind, Except.bind] at h
    cases seed with
    | unset => cases h
    | blank =>
      cases h
      exact .inr (.inr ⟨rfl, rfl, bound, rfl⟩)
    | value n => cases h

theorem escapes_of_fails (h : Fails entropy (r.content fs) r f) :
    f.IsReported ∨ Escapes entropy fs r f := by
  cases h with
  | unloaded hinput hfault =>
    rw [content_of_input hinput] at hfault
    exact escapes_of_loadFault hinput hfault
  | unsettled hload hsettings =>
    rcases settings_eq_error hsettings with hgrammar | ⟨rfl, rfl⟩ | ⟨rfl, rfl, bound, hbound⟩
    · exact .inl (.inl hgrammar)
    · exact .inr (.boundBlank rfl hload)
    · exact .inr (.seedBlank rfl hload hbound)
  | endless hload hsettings hwaits hderive =>
    exact .inr (.endless rfl hload hsettings hwaits hderive)
  | endlessSample hload hwaits hderive => exact .inr (.endlessSample rfl hload hwaits hderive)

/-- A request with a fault that escapes fails, unless it is what it leaves that cannot be
written. -/
theorem Escapes.fails (h : Escapes entropy fs r f) :
    Fails entropy (r.content fs) r f ∨
      ∃ o shown after, r.answer entropy (r.content fs) {} = .ok (some o) shown ∧
        o.write fs = .error f after := by
  have hunloaded : ∀ {path f}, r.input? = some path → LoadFault path (fs.read path) f →
      Fails entropy (r.content fs) r f := by
    intro path f hinput hfault
    rw [content_of_input hinput]
    exact .unloaded hinput hfault
  cases h with
  | nulInConfig hinput hnul =>
    have hread : fs.read _ = .error .pathWithNul := if_pos hnul
    exact .inl (hunloaded hinput (.unread hread))
  | undecodable hinput hcontent hdecode =>
    exact .inl (hunloaded hinput (.undecodable hcontent hdecode))
  | integerTooLong hinput hcontent htext hread =>
    exact .inl (hunloaded hinput (.tooLong hcontent htext hread))
  | numberTooLarge hinput hcontent hdocument hbroken =>
    exact .inl (hunloaded hinput (.schema hcontent hdocument hbroken))
  | boundBlank hr hload =>
    subst hr
    exact .inl (.unsettled hload rfl)
  | seedBlank hr hload hbound =>
    subst hr
    refine .inl (.unsettled hload ?_)
    simp [settings, hbound, overrideSeed, bind, Except.bind]
  | endless hr hload hsettings hwaits hderive =>
    subst hr
    exact .inl (.endless hload hsettings hwaits hderive)
  | endlessSample hr hload hwaits hderive =>
    subst hr
    exact .inl (.endlessSample hload hwaits hderive)
  | nulInOutput hanswer hwrite => exact .inr ⟨_, _, _, hanswer, hwrite⟩

theorem Escapes.not_isReported (h : Escapes entropy fs r f) : ¬ f.IsReported := by
  cases h <;> simp [Fault.IsReported]

end

/-! ## How runs end -/

section
variable {entropy : Int} {args : List String} {i : Invocation} {fs after : FileSystem}
  {report : Report} {f : Fault}

/-- A fault that escapes is what the run ends with. -/
theorem ending_of_escapes (hparse : Invocation.parse args = .ok i)
    (h : Escapes entropy fs i.request f) : (run entropy args fs).1.ending = .fault f := by
  have hending := fun shown =>
    (faultReport_ending_eq_fault i.verbose shown).2 ⟨rfl, h.not_isReported⟩
  rw [run_of_parse hparse, Invocation.run]
  rcases h.fails with hfails | ⟨o, shown, _, hanswer, hwrite⟩
  · obtain ⟨shown, hanswer⟩ := hfails.answer_eq_error
    simp only [hanswer, hending]
  · simp only [hanswer, hwrite, hending]

/-- A run ends with code 0, or tells what is wrong with a grammar or a file, or ends with a fault
that escapes. -/
theorem Runs.ends (h : Runs entropy args fs (report, after))
    (hparse : Invocation.parse args = .ok i) :
    report.ending = .code 0 ∨ report.Tells ∨
      ∃ f, report.ending = .fault f ∧ Escapes entropy fs i.request f := by
  have hfault : ∀ {f shown}, f.IsReported ∨ Escapes entropy fs i.request f →
      (faultReport i.verbose shown f).Tells ∨
        ∃ f', (faultReport i.verbose shown f).ending = .fault f' ∧
          Escapes entropy fs i.request f' := by
    intro f shown hf
    rcases hf with hreported | hescapes
    · exact .inl (tells_faultReport _ _ hreported)
    · have hending := (faultReport_ending_eq_fault i.verbose shown).2
        ⟨rfl, hescapes.not_isReported⟩
      exact .inr ⟨f, hending, hescapes⟩
  cases h with
  | stopped hstop =>
    rw [hparse] at hstop
    cases hstop
  | failed hparse' hanswer =>
    rw [hparse] at hparse'
    cases hparse'
    exact .inr (hfault (escapes_of_fails (answer_eq_error hanswer).1))
  | printed => exact .inl rfl
  | written => exact .inl rfl
  | unwritten hparse' hanswer hwrite =>
    rw [hparse] at hparse'
    cases hparse'
    obtain ⟨-, hfile | rfl⟩ := FileSystem.write_eq_error hwrite
    · exact .inr (hfault (.inl (.inr hfile)))
    · exact .inr (hfault (.inr (.nulInOutput hanswer hwrite)))

end

/-- The program ends with a fault exactly when it is one that escapes. When none does, the program
ends with code 0, or with code 2 and a line that tells what is wrong with a grammar or a file. -/
theorem run_escapes {args : List String} {i : Invocation} (h : Invocation.parse args = .ok i)
    (entropy : Int) (fs : FileSystem) :
    let report := (run entropy args fs).1
    (∀ f, report.ending = .fault f ↔ Escapes entropy fs i.request f) ∧
      ((¬ ∃ f, Escapes entropy fs i.request f) → report.ending = .code 0 ∨ report.Tells) := by
  have hends : (run entropy args fs).1.ending = .code 0 ∨ (run entropy args fs).1.Tells ∨
      ∃ f, (run entropy args fs).1.ending = .fault f ∧ Escapes entropy fs i.request f :=
    (runs entropy args fs).ends h
  constructor
  · intro f
    refine ⟨fun hf => ?_, ending_of_escapes h⟩
    rcases hends with hcode | ⟨hcode, -⟩ | ⟨f', hf', hescapes⟩
    · simp [hf] at hcode
    · simp [hf] at hcode
    · rw [hf] at hf'
      cases hf'
      exact hescapes
  · intro hnone
    rcases hends with hcode | htells | ⟨f', -, hescapes⟩
    · exact .inl hcode
    · exact .inr htells
    · exact absurd ⟨f', hescapes⟩ hnone

/-- A file whose only byte starts no character. -/
def undecodableFile : FileSystem where
  home := ["", "home"]
  entries := [(["", "home", "config.json"], .file [0xff])]

theorem run_escapes_undecodableFile :
    Invocation.parse ["generate", "config.json", "--format", "json"] =
        .ok ⟨false, .generate "config.json" none .unset .unset .json⟩ ∧
      (run 0 ["generate", "config.json", "--format", "json"] undecodableFile).1.ending =
        .fault (.undecodable ⟨.invalidStart, 0, 1, 0xff⟩) := by
  have hpath : IsPath "config.json" := isPath_of_not_startsWith (by decide)
  have hparse := parse_generate hpath .json
  have hdecode : Utf8.decode [0xff] = .error ⟨.invalidStart, 0, 1, 0xff⟩ := by cbv
  obtain ⟨hfault, -⟩ := run_escapes hparse 0 undecodableFile
  exact ⟨hparse, (hfault _).2 (.undecodable rfl rfl hdecode)⟩

/-- Bytes that are no text are not reported when a configuration is checked either: the program
ends with none of its codes. -/
theorem run_validate_undecodableFile :
    Invocation.parse ["validate", "config.json"] = .ok ⟨false, .validate "config.json"⟩ ∧
      (run 0 ["validate", "config.json"] undecodableFile).1.ending ≠ .code 0 ∧
      (run 0 ["validate", "config.json"] undecodableFile).1.ending ≠ .code 2 := by
  have hpath : IsPath "config.json" := isPath_of_not_startsWith (by decide)
  have hcontent : undecodableFile.read "config.json" = .ok [0xff] := rfl
  have hdecode : Utf8.decode [0xff] = .error ⟨.invalidStart, 0, 1, 0xff⟩ := by cbv
  have hbytes : Document.ofBytes "config.json" [0xff] =
      .error (.undecodable ⟨.invalidStart, 0, 1, 0xff⟩) := by simp only [ofBytes_eq, hdecode]
  have hending : (run 0 ["validate", "config.json"] undecodableFile).1.ending =
      .fault (.undecodable ⟨.invalidStart, 0, 1, 0xff⟩) := by
    rw [run_validate hpath, loadConfig_of_ofBytes_eq_error hcontent hbytes]
    rfl
  refine ⟨parse_validate hpath, ?_, ?_⟩
  · simp [hending]
  · simp [hending]

end CommandLine

end RandomDerivation
