import RandomDerivation.Proofs.CommandLine.Validate

/-!
# Overriding a configuration

A depth bound and a seed can be given on the command line, where they are written with digits, or
in the configuration, where they are members of the document. It does not matter which: a number
on the command line takes the place of the member, whether the document has it or not, and also
when it is zero. The same tree is derived, and the same is printed.
-/

namespace RandomDerivation

theorem Table.lookup_cons {α : Type} (name other : String) (value : α)
    (entries : List (String × α)) :
    ((name, value) :: entries).lookup other =
      if other = name then some value else entries.lookup other := by
  by_cases h : other = name
  · subst h
    rw [List.lookup_cons_self, if_pos rfl]
  · rw [List.lookup_cons, beq_false_of_ne h, if_neg h]

theorem Table.lookup_put {α : Type} (name other : String) (value : α)
    (entries : List (String × α)) :
    (put name value entries).lookup other =
      if other = name then some value else entries.lookup other := by
  induction entries with
  | nil => exact lookup_cons name other value []
  | cons e rest ih =>
    obtain ⟨k, v⟩ := e
    rw [put]
    split
    · subst k
      simp only [lookup_cons]
      split <;> rfl
    · rename_i hk
      rw [lookup_cons, lookup_cons, ih]
      by_cases h : other = name
      · subst h
        simp only [Ne.symm hk, if_true, if_false]
      · simp only [h, if_false]

namespace Config

/-- Members that are the same as others except for the depth bound and the seed, which are the given
ones. What is not given stays as it is. -/
def Amends (depth seed : Option Int) (members members' : List (String × Json)) : Prop :=
  ∀ name, members'.lookup name =
    if name = "depth" then (depth.map Json.int).or (members.lookup name)
    else if name = "seed" then (seed.map Json.int).or (members.lookup name)
    else members.lookup name

/-- Members with a whole number put in, if one is given. -/
def putInteger (name : String) (value : Option Int) (members : List (String × Json)) :
    List (String × Json) :=
  value.elim members fun n => Table.put name (.int n) members

theorem lookup_putInteger (name other : String) (value : Option Int)
    (members : List (String × Json)) :
    (putInteger name value members).lookup other =
      if other = name then (value.map Json.int).or (members.lookup other)
      else members.lookup other := by
  cases value with
  | none => simp [putInteger]
  | some n => simp [putInteger, Table.lookup_put]

/-- Putting the two members into a document amends it. -/
theorem amends_putInteger (depth seed : Option Int) (members : List (String × Json)) :
    Amends depth seed members (putInteger "seed" seed (putInteger "depth" depth members)) := by
  intro name
  rw [lookup_putInteger, lookup_putInteger]
  by_cases hdepth : name = "depth"
  · subst hdepth
    rfl
  · simp only [if_neg hdepth]

/-- A configuration with another depth bound and another seed, if they are given. -/
def amended (c : Config) (depth seed : Option Int) : Config :=
  { c with depth := (depth.map Int.toNat).getD c.depth, seed := seed.or c.seed }

section
variable {depth seed : Option Int} {members members' : List (String × Json)}

theorem Amends.get {name : String} (h : Amends depth seed members members')
    (hdepth : name ≠ "depth") (hseed : name ≠ "seed") (absent : Json) :
    Field.get members' name absent = Field.get members name absent := by
  rw [Field.get, Field.get, h, if_neg hdepth, if_neg hseed]

/-- A depth bound that is not negative is accepted in the place of any other. -/
theorem parseDepth_of_amends (h : Amends depth seed members members')
    (hdepth : ∀ n ∈ depth, 0 ≤ n) {bound : Nat}
    (hbound : parseDepth (Field.get members "depth" (.int 3)) = .ok bound) :
    parseDepth (Field.get members' "depth" (.int 3)) =
      .ok ((depth.map Int.toNat).getD bound) := by
  rw [Field.get, h, if_pos rfl]
  cases depth with
  | none => exact hbound
  | some n =>
    have hn : 0 ≤ n := hdepth n rfl
    simp [parseDepth, Field.integer, Field.ensure, hn, bind, Except.bind, pure, Except.pure]

theorem parseSeed_of_amends (h : Amends depth seed members members') {chosen : Option Int}
    (hchosen : parseSeed (Field.get members "seed") = .ok chosen) :
    parseSeed (Field.get members' "seed") = .ok (seed.or chosen) := by
  rw [Field.get, h, if_neg (by decide), if_pos rfl]
  cases seed with
  | none => exact hchosen
  | some n => rfl

theorem parseHeader_of_amends (h : Amends depth seed members members')
    (hdepth : ∀ n ∈ depth, 0 ≤ n) {header : Header} (hheader : parseHeader members = .ok header) :
    parseHeader members' = .ok { header with
      depth := (depth.map Int.toNat).getD header.depth, seed := seed.or header.seed } := by
  have hname := h.get (by decide : "name" ≠ "depth") (by decide) (.str "Tree")
  have hroot := h.get (by decide : "root" ≠ "depth") (by decide) .null
  simp only [parseHeader, Json.except_bind_eq_ok, pure, Except.pure, Except.ok.injEq,
    hname, hroot] at hheader ⊢
  obtain ⟨name, hname, root, hroot, _, hempty, bound, hbound, chosen, hchosen, rfl⟩ := hheader
  exact ⟨name, hname, root, hroot, (), hempty, _, parseDepth_of_amends h hdepth hbound, _,
    parseSeed_of_amends h hchosen, rfl⟩

/-- Amended members describe the same configuration with the other depth bound and the other
seed. -/
theorem parse_of_amends (h : Amends depth seed members members') (hdepth : ∀ n ∈ depth, 0 ≤ n)
    {c : Config} {log log' : Log} (hparse : parse (.obj members) log = .ok c log') :
    parse (.obj members') log = .ok (c.amended depth seed) log' := by
  have hleaves := h.get (by decide : "leaves" ≠ "depth") (by decide) (.obj [])
  have hnodes := h.get (by decide : "nodes" ≠ "depth") (by decide) (.obj [])
  simp only [parse, bind_eq_ok, ofExcept_eq_ok, pure_eq_ok] at hparse ⊢
  obtain ⟨_, _, ⟨hmembers, rfl⟩, header, _, ⟨hheader, rfl⟩, leaves, _, ⟨hleaves', rfl⟩, hlater⟩ :=
    hparse
  obtain ⟨b, _, hb, nodes, _, ⟨hnodes', rfl⟩, hbuild⟩ := hlater
  cases hmembers
  rw [← hleaves] at hleaves'
  rw [← hnodes] at hnodes'
  obtain ⟨b', _, hb', rooted, _, hrooted, grammar, _, hgrammar, rfl, rfl⟩ := hbuild
  exact ⟨members', _, ⟨rfl, rfl⟩, _, _, ⟨parseHeader_of_amends h hdepth hheader, rfl⟩,
    leaves, _, ⟨hleaves', rfl⟩, b, _, hb, nodes, _, ⟨hnodes', rfl⟩, b', _, hb', rooted, _, hrooted,
    grammar, _, hgrammar, rfl, rfl⟩

end

end Config

namespace CommandLine

/-- What is given on the command line takes the place of what the configuration says. -/
theorem settings_elim (c : Config) {depth seed : Option Int} (hdepth : ∀ n ∈ depth, 0 ≤ n) :
    settings c (depth.elim .unset .value) (seed.elim .unset .value) =
      .ok ((c.amended depth seed).depth, (c.amended depth seed).seed) := by
  have hbound : overrideDepth c.depth (depth.elim .unset .value) =
      .ok (c.amended depth seed).depth := by
    cases depth with
    | none => rfl
    | some n =>
      have hn : 0 ≤ n := hdepth n rfl
      simp [overrideDepth, Config.amended, Field.ensure, hn, bind, Except.bind, pure, Except.pure]
  have hseed : overrideSeed c.seed (seed.elim .unset .value) = .ok (c.amended depth seed).seed := by
    cases seed <;> rfl
  rw [settings, hbound, hseed]
  rfl

/-- To derive a tree of a configuration with a depth bound, a seed or both given on the command line
comes to the same as to derive one of a configuration whose document has them as its members: the
run ends in the same way, and prints the same. Neither run touches a file. The numbers are those
that have few enough digits to be written. -/
theorem run_eq_run_of_amends {path path' : String} (hpath : IsPath path) (hpath' : IsPath path')
    {fs fs' : FileSystem} {members members' : List (String × Json)} {c : Config} {log : Log}
    (hload : Document.load fs path = .ok (.obj members))
    (hload' : Document.load fs' path' = .ok (.obj members'))
    (haccepted : Config.parse (.obj members) [] = .ok c log) {depth seed : Option Int}
    (hdepth : ∀ n ∈ depth, 0 ≤ n ∧ Integer.isWritable n = true)
    (hseed : ∀ n ∈ seed, Integer.isWritable n = true)
    (hamends : Config.Amends depth seed members members') (format : Format) (entropy : Int) :
    ∃ report,
      run entropy ("generate" :: path :: overrideTexts depth seed format) fs = (report, fs) ∧
        run entropy ["generate", path', "--format", format.word] fs' = (report, fs') := by
  have hnonneg : ∀ n ∈ depth, 0 ≤ n := fun n hn => (hdepth n hn).1
  have hamended := Config.parse_of_amends hamends hnonneg haccepted
  refine ⟨_, run_overrides hpath entropy fs (fun n hn => (hdepth n hn).2) hseed format, ?_⟩
  rw [run_generate hpath', loadConfig_of_load hload, loadConfig_of_load hload', haccepted, hamended]
  simp only [settings_elim c hnonneg]
  rfl

/-- The members of `branchingConfig` with a depth bound of zero, which they lacked, and another
seed. -/
def amendedMembers : List (String × Json) :=
  Config.putInteger "seed" (some (-18)) (Config.putInteger "depth" (some 0) branchingMembers)

/-- A working directory with both documents. -/
def amendedFiles : FileSystem where
  home := ["", "home"]
  entries := [(["", "home", "config.json"], .file (Document.toBytes (.obj branchingMembers))),
    (["", "home", "amended.json"], .file (Document.toBytes (.obj amendedMembers)))]

theorem run_eq_run_of_amends_branching :
    Config.Amends (some 0) (some (-18)) branchingMembers amendedMembers ∧
      ∃ report,
        run 1 ["generate", "config.json", "--depth", "0", "--seed", "-18", "--format", "outline"]
            amendedFiles = (report, amendedFiles) ∧
          run 1 ["generate", "amended.json", "--format", "outline"] amendedFiles =
            (report, amendedFiles) ∧
          report.ending = .code 0 ∧ report.stdout = Format.outline.text cutOffBranch := by
  have hpath : IsPath "config.json" := isPath_of_not_startsWith (by decide)
  have hload : Document.load amendedFiles "config.json" = .ok (.obj branchingMembers) :=
    Document.load_of_read (by decide) (by decide) (by decide) rfl
  have hload' : Document.load amendedFiles "amended.json" = .ok (.obj amendedMembers) :=
    Document.load_of_read (by decide) (by decide) (by decide) rfl
  have hamends : Config.Amends (some 0) (some (-18)) branchingMembers amendedMembers :=
    Config.amends_putInteger (some 0) (some (-18)) branchingMembers
  have hdepth : ∀ n ∈ some (0 : Int), 0 ≤ n ∧ Integer.isWritable n = true := by
    rintro n ⟨⟩
    decide
  have hseed : ∀ n ∈ some (-18 : Int), Integer.isWritable n = true := by
    rintro n ⟨⟩
    decide
  obtain ⟨report, hrun, hrun'⟩ := run_eq_run_of_amends hpath
    (isPath_of_not_startsWith (by decide)) hload hload' parse_branching hdepth hseed hamends
    .outline 1
  have hsettings : settings branchingConfig (.value 0) (.value (-18)) = .ok (0, some (-18)) := rfl
  have hreport := run_overrides hpath 1 amendedFiles (fun n hn => (hdepth n hn).2) hseed .outline
  rw [hrun, loadConfig_of_load hload, parse_branching] at hreport
  simp only [Option.elim_some, hsettings, deriveTree_branching_zero] at hreport
  cases hreport
  exact ⟨hamends, _, hrun, hrun', rfl, rfl⟩

end CommandLine

end RandomDerivation
