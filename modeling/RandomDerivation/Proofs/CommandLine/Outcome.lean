import RandomDerivation.CommandLine.Run
import RandomDerivation.Proofs.Config.Writable
import RandomDerivation.Proofs.Derivation.Filling
import RandomDerivation.Proofs.Derivation.Levels
import RandomDerivation.Proofs.Document
import RandomDerivation.Proofs.Grammar.FirstFault
import RandomDerivation.Proofs.Random.Seeding

/-!
# What requests come to

A request that reads a configuration comes to the same two things: whether the configuration can be
loaded, and whether a tree can be derived from its seed. Whatever has been loaded can be written,
so neither a tree nor a summary fails behind a derivation that returns.
-/

namespace RandomDerivation

/-- What a value holds as an object can be written when the value can. -/
theorem Json.isWritable_entries {v : Json} (h : v.isWritable = true) :
    (Json.obj v.entries).isWritable = true := by
  cases v with
  | obj members => exact h
  | _ => rfl

namespace CommandLine

theorem ofRecorded_run {α : Type} (x : Recorded α) (s : Shown) :
    Showing.ofRecorded x s =
      match x s.log with
      | .ok a log => .ok a { s with log }
      | .error f log => .error f { s with log } := rfl

/-- The document that the bytes of a file are read as. -/
inductive Holds (bytes : Utf8.Bytes) (document : Json) : Prop where
  | intro {text : List Char} : Utf8.decode bytes = .ok text →
    Json.read (LineEnd.normalize text) = .ok document → Holds bytes document

/-- Why the configuration in a file cannot be loaded. -/
inductive LoadFault (path : String) (content : Except Fault Utf8.Bytes) : Fault → Prop where
  | unread {f : Fault} : content = .error f → LoadFault path content f
  | undecodable {bytes : Utf8.Bytes} {fault : Utf8.Fault} :
    content = .ok bytes → Utf8.decode bytes = .error fault →
      LoadFault path content (.undecodable fault)
  | malformed {bytes : Utf8.Bytes} {text : List Char} {fault : SyntaxFault} :
    content = .ok bytes → Utf8.decode bytes = .ok text →
      Json.read (LineEnd.normalize text) = .error (.malformed fault) →
      LoadFault path content (.grammar (.malformed path fault))
  | tooLong {bytes : Utf8.Bytes} {text : List Char} {digits : Nat} :
    content = .ok bytes → Utf8.decode bytes = .ok text →
      Json.read (LineEnd.normalize text) = .error (.tooLong digits) →
      LoadFault path content (.integerTooLong digits)
  /-- The document does not follow the schema of configurations. -/
  | schema {bytes : Utf8.Bytes} {document : Json} {f : Fault} :
    content = .ok bytes → Holds bytes document → FirstBroken (Config.constraints document) f →
      LoadFault path content f

/-- The document of a file, step by step. -/
theorem ofBytes_eq (path : String) (bytes : Utf8.Bytes) :
    Document.ofBytes path bytes =
      match Utf8.decode bytes with
      | .error fault => .error (.undecodable fault)
      | .ok text =>
        match Json.read (LineEnd.normalize text) with
        | .ok document => .ok document
        | .error (.malformed fault) => .error (.grammar (.malformed path fault))
        | .error (.tooLong digits) => .error (.integerTooLong digits) := by
  rw [Document.ofBytes]
  cases Utf8.decode bytes with
  | error fault => rfl
  | ok text =>
    simp only [Except.mapError, bind, Except.bind]
    cases Json.read (LineEnd.normalize text) with
    | ok document => rfl
    | error stop => cases stop <;> rfl

theorem ofBytes_eq_ok (path : String) {bytes : Utf8.Bytes} {document : Json} :
    Document.ofBytes path bytes = .ok document ↔ Holds bytes document := by
  rw [ofBytes_eq]
  constructor
  · intro h
    split at h
    · cases h
    rename_i htext
    split at h
    · rename_i hread
      cases h
      exact ⟨htext, hread⟩
    · cases h
    · cases h
  · rintro ⟨htext, hread⟩
    simp only [htext, hread]

section
variable {path : String} {content : Except Fault Utf8.Bytes} {log log' : Log} {c : Config}

/-- A configuration that is loaded is described by the document in the file. -/
theorem describes_of_loadConfig (h : loadConfig path content log = .ok c log') :
    ∃ bytes document, content = .ok bytes ∧ Holds bytes document ∧
      Config.Describes document.entries c := by
  simp only [loadConfig, bind_eq_ok, ofExcept_eq_ok] at h
  obtain ⟨bytes, _, ⟨hcontent, -⟩, document, log₁, ⟨hdocument, -⟩, hparse⟩ := h
  obtain ⟨htext, hread⟩ := (ofBytes_eq_ok path).1 hdocument
  have hdescribes := (Config.enforces_parse_of_read hread log₁).post_of_ok
    (Recorded.outcome_eq_ok.2 ⟨log', hparse⟩)
  exact ⟨bytes, document, hcontent, ⟨htext, hread⟩, hdescribes⟩

/-- Everything of a configuration that is loaded can be written. -/
theorem isWritable_of_loadConfig (h : loadConfig path content log = .ok c log') :
    c.IsWritable := by
  obtain ⟨bytes, document, -, ⟨-, hread⟩, hdescribes⟩ := describes_of_loadConfig h
  exact Config.isWritable_of_describes hdescribes
    (Json.isWritable_entries (Json.isWritable_of_read hread))

theorem loadFault_of_ofBytes {bytes : Utf8.Bytes} {f : Fault} (hcontent : content = .ok bytes)
    (h : Document.ofBytes path bytes = .error f) : LoadFault path content f := by
  rw [ofBytes_eq] at h
  split at h
  · rename_i hdecode
    cases h
    exact .undecodable hcontent hdecode
  rename_i htext
  split at h
  · cases h
  · rename_i hread
    cases h
    exact .malformed hcontent htext hread
  · rename_i hread
    cases h
    exact .tooLong hcontent htext hread

theorem loadConfig_of_ofBytes_eq_error {bytes : Utf8.Bytes} {f : Fault}
    (hcontent : content = .ok bytes) (h : Document.ofBytes path bytes = .error f) :
    loadConfig path content log = .error f log := by
  simp [loadConfig, bind_run, Recorded.ofExcept, hcontent, h]

/-- A configuration fails to load for one of the reasons listed, and for no other. -/
theorem loadConfig_eq_error {f : Fault} :
    (∃ log', loadConfig path content log = .error f log') ↔ LoadFault path content f := by
  constructor
  · rintro ⟨log', h⟩
    simp only [loadConfig, bind_eq_error, ofExcept_eq_error, ofExcept_eq_ok] at h
    rcases h with ⟨hcontent, -⟩ | ⟨bytes, _, ⟨hcontent, -⟩, hlater⟩
    · exact .unread hcontent
    rcases hlater with ⟨hbytes, -⟩ | ⟨document, log₁, ⟨hbytes, -⟩, hparse⟩
    · exact loadFault_of_ofBytes hcontent hbytes
    · obtain ⟨htext, hread⟩ := (ofBytes_eq_ok path).1 hbytes
      have hbroken := (Config.enforces_parse_of_read hread log₁).eq_error_iff.1
        (Recorded.outcome_eq_error.2 ⟨log', hparse⟩)
      exact .schema hcontent ⟨htext, hread⟩ hbroken
  · intro h
    cases h with
    | unread hcontent => exact ⟨log, by simp [loadConfig, bind_run, Recorded.ofExcept, hcontent]⟩
    | undecodable hcontent hdecode =>
      exact ⟨log, loadConfig_of_ofBytes_eq_error hcontent (by simp only [ofBytes_eq, hdecode])⟩
    | malformed hcontent htext hread =>
      exact ⟨log, loadConfig_of_ofBytes_eq_error hcontent
        (by simp only [ofBytes_eq, htext, hread])⟩
    | tooLong hcontent htext hread =>
      exact ⟨log, loadConfig_of_ofBytes_eq_error hcontent
        (by simp only [ofBytes_eq, htext, hread])⟩
    | schema hcontent hdocument hbroken =>
      have hbytes := (ofBytes_eq_ok path).2 hdocument
      obtain ⟨-, hread⟩ := hdocument
      obtain ⟨log', hparse⟩ := Recorded.outcome_eq_error.1
        ((Config.enforces_parse_of_read hread log).eq_error_iff.2 hbroken)
      refine ⟨log', ?_⟩
      simpa [loadConfig, bind_run, Recorded.ofExcept, hcontent, hbytes] using hparse

end

/-- A file that holds a document is loaded as the configuration of the document. -/
theorem loadConfig_of_load {fs : FileSystem} {path : String} {document : Json}
    (h : Document.load fs path = .ok document) (log : Log) :
    loadConfig path (fs.read path) log = Config.parse document log := by
  rw [Document.load, Json.except_bind_eq_ok] at h
  obtain ⟨bytes, hbytes, hdocument⟩ := h
  simp [loadConfig, bind_run, Recorded.ofExcept, hbytes, hdocument]

/-- The slots of a node with a drawn value, beside which another such node is drawn or another
value. -/
def branchSlots : List Slot := [.leaf "color", .choice (.node "branch") [.leaf "color"]]

/-- A configuration with this node. -/
def branchingConfig : Config where
  name := "Tree"
  grammar := {
    root := "branch"
    nodes := ⟨[("branch", ⟨"branch", branchSlots⟩)], by decide⟩
    leaves := ⟨[("color", ⟨"color", .choice (.str "red") [.str "blue"]⟩)], by decide⟩
    checked := rfl }
  depth := 3
  seed := some 425

/-- The members of a document that describes it. -/
def branchingMembers : List (String × Json) :=
  [("root", .str "branch"), ("seed", .int 425),
    ("leaves", .obj [("color", .obj [("type", .str "choice"),
      ("values", .arr [.str "red", .str "blue"])])]),
    ("nodes", .obj [("branch", .arr [.obj [("leaf", .str "color")],
      .obj [("choice", .arr [.obj [("node", .str "branch")], .obj [("leaf", .str "color")]])]])])]

/-- A working directory with a file that holds this document. -/
def branchingFiles : FileSystem where
  home := ["", "home"]
  entries := [(["", "home", "config.json"], .file (Document.toBytes (.obj branchingMembers)))]

theorem load_branching :
    Document.load branchingFiles "config.json" = .ok (.obj branchingMembers) :=
  Document.load_of_read (by decide) (by decide) (by decide) rfl

theorem parse_branching :
    Config.parse (.obj branchingMembers) [] =
      .ok branchingConfig [.registeredLeaf "color", .registeredNode "branch" 2] := rfl

theorem loadConfig_branching :
    loadConfig "config.json" (branchingFiles.read "config.json") [] =
      .ok branchingConfig [.registeredLeaf "color", .registeredNode "branch" 2] :=
  (loadConfig_of_load load_branching []).trans parse_branching

/-! ## Deriving -/

section
variable {g : Grammar Producer} (bound : Nat) (seed : Option Int) (entropy : Int) (log : Log)

theorem deriveTree_run :
    deriveTree g bound seed entropy log =
      match g.generate bound ⟨.ofSeed (seed.getD entropy), ()⟩ with
      | .ok t _ => .ok t (log ++ [.derived g.root bound t.size t.height])
      | .error f _ => .error f log := by
  rw [deriveTree, Grammar.generateRecorded]
  cases g.generate bound ⟨.ofSeed (seed.getD entropy), ()⟩ <;> rfl

/-- With a seed, a derivation does not depend on anything else. -/
theorem deriveTree_of_seed (n entropy' : Int) :
    deriveTree g bound (some n) entropy log = deriveTree g bound (some n) entropy' log := by
  rw [deriveTree_run, deriveTree_run]
  rfl

/-- A derivation returns a tree that can be written, or it would go on for ever. -/
theorem deriveTree_cases (hleaves : ∀ name leaf, g.leaves.find? name = some leaf →
      leaf.generator.Writes) :
    (∃ t, deriveTree g bound seed entropy log =
        .ok t (log ++ [.derived g.root bound t.size t.height]) ∧ t.isWritable = true) ∨
      (∃ s n, Source.Waits s n) ∧ deriveTree g bound seed entropy log = .error .exhausted log := by
  rw [deriveTree_run]
  cases h : g.generate bound ⟨.ofSeed (seed.getD entropy), ()⟩ with
  | ok t w => exact .inl ⟨t, rfl, Grammar.isWritable_of_generate hleaves h⟩
  | error f w =>
    obtain ⟨rfl, hwaits⟩ := Grammar.waits_of_generate_eq_error (Source.isSeeded_ofSeed _) h
    exact .inr ⟨hwaits, rfl⟩

end

/-- A value of the leaf of `branchingConfig`. -/
def color (i : Fin 2) : Tree := .node "color" ([.str "red", .str "blue"].get i) []

section
variable {s s₁ s₂ s₃ : Source} {i j : Fin 2}

theorem resolve_color (h : Draw.below 2 s = .ok i s₁) :
    branchingConfig.grammar.resolve (.leaf "color") ⟨s, ()⟩ = .ok (.tree (color i)) ⟨s₁, ()⟩ := by
  have hleaf : branchingConfig.grammar.leaves.find? "color" =
    some ⟨"color", .choice (.str "red") [.str "blue"]⟩ := rfl
  rw [Grammar.resolve, bind_run_of_ok (Grammar.produceLeaf_of_below hleaf h)]
  rfl

/-- The node when the draw beside its value gives another node. -/
theorem grow_branch_of_node (hvalue : Draw.below 2 s = .ok i s₁)
    (hnext : Draw.below 2 s₁ = .ok 0 s₂) {levels : Nat} {t : Tree}
    (ht : branchingConfig.grammar.grow levels ⟨.node, "branch"⟩ ⟨s₂, ()⟩ = .ok t ⟨s₃, ()⟩) :
    branchingConfig.grammar.grow (levels + 1) ⟨.node, "branch"⟩ ⟨s, ()⟩ =
      .ok (.node "branch" .null [color i, t]) ⟨s₃, ()⟩ := by
  have hchoice : branchingConfig.grammar.resolve (.choice (.node "branch") [.leaf "color"])
      ⟨s₁, ()⟩ = .ok (.pending ⟨.node, "branch"⟩) ⟨s₂, ()⟩ := by
    rw [Grammar.resolve_choice_of_below _ _ [.leaf "color"] hnext, List.get_cons_zero,
      Grammar.resolve]
    rfl
  have hslots : branchingConfig.grammar.resolveAll branchSlots ⟨s, ()⟩ =
      .ok [.tree (color i), .pending ⟨.node, "branch"⟩] ⟨s₂, ()⟩ := by
    simp only [branchSlots, Grammar.resolveAll, bind_assoc, pure_bind,
      bind_run_of_ok (resolve_color hvalue), bind_run_of_ok hchoice, pure_run]
  rw [Grammar.grow_succ_node (d := ⟨"branch", branchSlots⟩) rfl, bind_run_of_ok hslots]
  simp only [List.mapM_cons, List.mapM_nil, Filling.complete, pure_bind, bind_assoc,
    bind_run_of_ok ht, pure_run]

/-- The node when it gives another value. -/
theorem grow_branch_of_leaf (hvalue : Draw.below 2 s = .ok i s₁)
    (hnext : Draw.below 2 s₁ = .ok 1 s₂) (hlast : Draw.below 2 s₂ = .ok j s₃) (levels : Nat) :
    branchingConfig.grammar.grow (levels + 1) ⟨.node, "branch"⟩ ⟨s, ()⟩ =
      .ok (.node "branch" .null [color i, color j]) ⟨s₃, ()⟩ := by
  have hchoice : branchingConfig.grammar.resolve (.choice (.node "branch") [.leaf "color"])
      ⟨s₁, ()⟩ = .ok (.tree (color j)) ⟨s₃, ()⟩ :=
    (Grammar.resolve_choice_of_below _ _ [.leaf "color"] hnext ()).trans (resolve_color hlast)
  have hslots : branchingConfig.grammar.resolveAll branchSlots ⟨s, ()⟩ =
      .ok [.tree (color i), .tree (color j)] ⟨s₃, ()⟩ := by
    simp only [branchSlots, Grammar.resolveAll, bind_assoc, pure_bind,
      bind_run_of_ok (resolve_color hvalue), bind_run_of_ok hchoice, pure_run]
  rw [Grammar.grow_succ_node (d := ⟨"branch", branchSlots⟩) rfl, bind_run_of_ok hslots]
  simp only [List.mapM_cons, List.mapM_nil, Filling.complete, pure_bind, pure_run]

end

/-- The tree of `branchingConfig` for its own seed. -/
def branchingTree : Tree :=
  .node "branch" .null [color 1, .node "branch" .null [color 0, color 0]]

/-- The tree for the seed -18 without levels below the root. -/
def cutOffBranch : Tree := .node "branch" .null [color 0, .node "branch" .null []]

theorem deriveTree_branching (entropy : Int) (log : Log) :
    deriveTree branchingConfig.grammar 3 (some 425) entropy log =
      .ok branchingTree (log ++ [.derived "branch" 3 branchingTree.size branchingTree.height]) := by
  obtain ⟨h₀, h₁, h₂, h₃, h₄⟩ : Source.Gives 425 0 (1 : Fin 2) ∧ Source.Gives 425 1 (0 : Fin 2) ∧
      Source.Gives 425 2 (0 : Fin 2) ∧ Source.Gives 425 3 (1 : Fin 2) ∧
      Source.Gives 425 4 (0 : Fin 2) := by decide +kernel
  have hbelow := grow_branch_of_leaf (Source.below_of_gives h₂) (Source.below_of_gives h₃)
    (Source.below_of_gives h₄) 2
  have hsource : Source.ofSeed 425 = .drawn 425 0 := Source.ofSeed_eq_drawn (by decide)
  have hgenerate : branchingConfig.grammar.generate 3 ⟨.ofSeed 425, ()⟩ =
      .ok branchingTree ⟨.drawn 425 5, ()⟩ := by
    rw [hsource, Grammar.generate_eq_grow]
    exact grow_branch_of_node (Source.below_of_gives h₀) (Source.below_of_gives h₁) hbelow
  simp only [deriveTree_run, Option.getD_some, hgenerate]
  rfl

/-- With a depth bound of zero, a node below the root is cut off. -/
theorem deriveTree_branching_zero (entropy : Int) (log : Log) :
    deriveTree branchingConfig.grammar 0 (some (-18)) entropy log =
      .ok cutOffBranch (log ++ [.derived "branch" 0 cutOffBranch.size cutOffBranch.height]) := by
  obtain ⟨h₀, h₁⟩ : Source.Gives 18 0 (0 : Fin 2) ∧ Source.Gives 18 1 (0 : Fin 2) := by
    decide +kernel
  have hsource : Source.ofSeed (-18) = .drawn 18 0 := Source.ofSeed_eq_drawn (by decide)
  have hgenerate : branchingConfig.grammar.generate 0 ⟨.ofSeed (-18), ()⟩ =
      .ok cutOffBranch ⟨.drawn 18 2, ()⟩ := by
    rw [hsource, Grammar.generate_eq_grow]
    exact grow_branch_of_node (Source.below_of_gives h₀) (Source.below_of_gives h₁) rfl
  simp only [deriveTree_run, Option.getD_some, hgenerate]
  rfl

/-! ## Answering -/

/-- The text of a tree in a format. -/
def Format.text : Format → Tree → String
  | .json, t => Document.text t.toJson
  | .outline, t => t.outline ++ "\n"

theorem render_of_isWritable (format : Format) {t : Tree} (h : t.isWritable = true) :
    format.render t = .ok (format.text t) := by
  cases format with
  | json => rw [Format.render, if_pos h, Format.text]
  | outline =>
    rw [Format.render, Tree.outlineChecked, if_pos h]
    rfl

/-- A summary up to its last line, which has the measures of a tree. -/
def summaryHead (c : Config) : String :=
  "name: " ++ c.name ++ "\n" ++
  ("root: " ++ c.grammar.root ++ " (" ++ c.grammar.rootKind.word ++ ")" ++ "\n") ++
  ("nodes: " ++ toString c.grammar.nodes.size ++ "\n") ++
  ("leaves: " ++ toString c.grammar.leaves.size ++ "\n") ++
  ("depth: " ++ Integer.write c.depth ++ "\n") ++
  if c.grammar.ungrounded.isEmpty then ""
  else "warning: nodes that never reach a leaf: " ++
    String.intercalate ", " c.grammar.ungrounded ++ "\n"

section
variable {c : Config} (entropy : Int) (content : Except Fault Utf8.Bytes)

theorem printSummary_run (hc : c.IsWritable) (s : Shown) :
    printSummary c entropy s =
      match deriveTree c.grammar c.depth c.seed entropy s.log with
      | .ok t log => .ok () ⟨log, s.stdout ++ summaryHead c ++ (sampleLine t ++ "\n")⟩
      | .error f log => .error f ⟨log, s.stdout ++ summaryHead c⟩ := by
  have hprint : ∀ line (s : Shown),
      printLine line s = .ok () { s with stdout := s.stdout ++ (line ++ "\n") } := fun _ _ => rfl
  by_cases hungrounded : c.grammar.ungrounded = []
  · cases h : deriveTree c.grammar c.depth c.seed entropy s.log <;>
      simp [printSummary, bind_run, ofRecorded_run, Grammar.recheck_eq, Recorded.ofExcept, hprint,
        depthLine, hc.depth, hungrounded, h, summaryHead, String.append_assoc]
  · cases h : deriveTree c.grammar c.depth c.seed entropy s.log <;>
      simp [printSummary, bind_run, ofRecorded_run, Grammar.recheck_eq, Recorded.ofExcept, hprint,
        depthLine, hc.depth, hungrounded, h, summaryHead, String.append_assoc]

/-- Checking a configuration comes to a summary of it. -/
theorem answer_validate (path : String) (s : Shown) :
    (Request.validate path).answer entropy content s =
      match loadConfig path content s.log with
      | .error f log => .error f { s with log }
      | .ok c log =>
        match deriveTree c.grammar c.depth c.seed entropy log with
        | .ok t log => .ok none ⟨log, s.stdout ++ summaryHead c ++ (sampleLine t ++ "\n")⟩
        | .error f log => .error f ⟨log, s.stdout ++ summaryHead c⟩ := by
  cases h : loadConfig path content s.log with
  | error f log => simp [Request.answer, bind_run, ofRecorded_run, h]
  | ok c log =>
    have hsummary := printSummary_run entropy (isWritable_of_loadConfig h)
    simp only [Request.answer, bind_run, ofRecorded_run, h, hsummary]
    cases deriveTree c.grammar c.depth c.seed entropy log <;> rfl

/-- The depth bound and the seed that a tree is derived with. -/
def settings (c : Config) (depth seed : Setting Int) : Except Fault (Nat × Option Int) := do
  let bound ← overrideDepth c.depth depth
  let seed ← overrideSeed c.seed seed
  return (bound, seed)

theorem generateText_run (hc : c.IsWritable) (depth seed : Setting Int) (format : Format)
    (log : Log) :
    generateText c depth seed format entropy log =
      match settings c depth seed with
      | .error f => .error f log
      | .ok (bound, seed) =>
        match deriveTree c.grammar bound seed entropy log with
        | .error f log => .error f log
        | .ok t log => .ok (format.text t) log := by
  cases hbound : overrideDepth c.depth depth with
  | error f =>
    have hsettings : settings c depth seed = .error f := by
      simp [settings, hbound, bind, Except.bind]
    simp [generateText, bind_run, Recorded.ofExcept, hbound, hsettings]
  | ok bound =>
    cases hseed : overrideSeed c.seed seed with
    | error f =>
      have hsettings : settings c depth seed = .error f := by
        simp [settings, hbound, hseed, bind, Except.bind]
      simp [generateText, bind_run, Recorded.ofExcept, hbound, hseed, hsettings]
    | ok chosen =>
      have hsettings : settings c depth seed = .ok (bound, chosen) := by
        simp [settings, hbound, hseed, bind, Except.bind, pure, Except.pure]
      rcases deriveTree_cases bound chosen entropy log hc.leaves with
        ⟨t, hderive, hwritable⟩ | ⟨-, hderive⟩
      · simp [generateText, bind_run, Recorded.ofExcept, hbound, hseed, hsettings, hderive,
          render_of_isWritable format hwritable]
      · simp [generateText, bind_run, Recorded.ofExcept, hbound, hseed, hsettings, hderive]

/-- Deriving a tree of a configuration comes to a text, which is printed if no file is to take
it. -/
theorem answer_generate (path : String) (output : Option String) (depth seed : Setting Int)
    (format : Format) (s : Shown) :
    (Request.generate path output depth seed format).answer entropy content s =
      match loadConfig path content s.log with
      | .error f log => .error f { s with log }
      | .ok c log =>
        match settings c depth seed with
        | .error f => .error f { s with log }
        | .ok (bound, seed) =>
          match deriveTree c.grammar bound seed entropy log with
          | .error f log => .error f { s with log }
          | .ok t log =>
            match output with
            | none => .ok none ⟨log, s.stdout ++ format.text t⟩
            | some path => .ok (some ⟨path, format.text t⟩) { s with log } := by
  cases h : loadConfig path content s.log with
  | error f log => simp [Request.answer, bind_run, ofRecorded_run, h]
  | ok c log =>
    have htext := generateText_run entropy (isWritable_of_loadConfig h) depth seed format log
    simp only [Request.answer, bind_run, ofRecorded_run, h, htext]
    cases settings c depth seed with
    | error f => rfl
    | ok chosen =>
      simp only
      cases deriveTree c.grammar chosen.1 chosen.2 entropy log with
      | error f log => rfl
      | ok t log => cases output <;> rfl

/-- The example describes a configuration. -/
theorem exampleChecked_run (log : Log) :
    Config.exampleChecked log = .ok Config.exampleDocument (log ++ [.registeredLeaf "angle"] ++
      [.registeredLeaf "color"] ++ [.registeredNode "split" 3] ++ [.registeredNode "square" 1]) :=
  rfl

/-- Writing the example comes to its document. -/
theorem answer_writeExample (path : String) (s : Shown) :
    ∃ log, (Request.writeExample path).answer entropy content s =
      .ok (some ⟨path, Document.text Config.exampleDocument⟩) { s with log } := by
  apply Exists.intro
  simp only [Request.answer, bind_run, ofRecorded_run, exampleChecked_run]
  rfl

end

end CommandLine

end RandomDerivation
