import Mathlib.Data.List.Nodup
import RandomDerivation.Proofs.CommandLine.Arguments

/-!
# Options of the command that derives a tree

The command that derives a tree may be given a depth bound, a seed and a format. An option takes
the text behind it, unless the text looks like an option; a number that is given is the one that is
read. What a row of options comes to does not depend on where the path of the configuration stands.
-/

namespace RandomDerivation.CommandLine

/-- The texts that are meant for an option: what is read as a whole number and what a whole number
is written as, for the depth bound and the seed, and the word of a format. -/
inductive Suits : Opt → String → Prop where
  | read {o : Opt} {text : String} {n : Int} : o = depthOption ∨ o = seedOption →
    Integer.read? text = some n → Suits o text
  /-- A number may have more digits than can be read. -/
  | written {o : Opt} (n : Int) : o = depthOption ∨ o = seedOption → Suits o (Integer.write n)
  | word (f : Format) : Suits formatOption f.word

theorem startsWith_word (f : Format) : startsWith "-" f.word = false := by cases f <;> rfl

section
variable {o : Opt} {text : String} (h : Suits o text)
include h

theorem Suits.option_cases : o = depthOption ∨ o = seedOption ∨ o = formatOption := by
  cases h with
  | read ho _ => exact ho.imp_right .inl
  | written _ ho => exact ho.imp_right .inl
  | word _ => exact .inr (.inr rfl)

theorem Suits.isValue : IsValue text := by
  cases h with
  | read _ hread => exact isValue_of_read? hread
  | written n _ => exact isValue_write n
  | word f => exact .inl (startsWith_word f)

end

theorem Suits.exists_word {text : String} (h : Suits formatOption text) :
    ∃ f : Format, text = f.word := by
  cases h with
  | read ho _ => exact absurd ho (by decide)
  | written _ ho => exact absurd ho (by decide)
  | word f => exact ⟨f, rfl⟩

section
variable {text : String} {n : Int} (h : Integer.read? text = some n)
include h

/-- A number is given for an option as it is read. -/
theorem ofTexts_read (m : Manual) (o : Opt) :
    Setting.ofTexts (integerValue m o) [text] = .ok (.value n) := by
  rw [Setting.ofTexts, integerValue, h]
  rfl

theorem take_depth (s : GenerateArguments) :
    s.take (.option depthOption [text]) = .ok { s with depth := .value n } := by
  rw [GenerateArguments.take, if_pos rfl, ofTexts_read h]
  rfl

theorem take_seed (s : GenerateArguments) :
    s.take (.option seedOption [text]) = .ok { s with seed := .value n } := by
  rw [GenerateArguments.take, if_neg (by decide), if_pos rfl, ofTexts_read h]
  rfl

end

theorem take_format (f : Format) (s : GenerateArguments) :
    s.take (.option formatOption [f.word]) = .ok { s with format := f } := by cases f <;> rfl

theorem take_unread {o : Opt} {text : String} (ho : o = depthOption ∨ o = seedOption)
    (h : Integer.read? text = none) (s : GenerateArguments) :
    s.take (.option o [text]) = .error (.refused generateManual (.notInteger o.title text)) := by
  rcases ho with rfl | rfl <;> simp [GenerateArguments.take, Setting.ofTexts, integerValue, h]

/-- An option of the command that derives a tree, with a text that is meant for it. -/
structure Given where
  option : Opt
  text : String
  suits : Suits option text

namespace Given

/-- The option and its value as arguments. -/
def texts (g : Given) : List String := [g.option.title, g.text]

/-- These arguments, sorted. -/
def tokens (g : Given) : List Token :=
  [.known g.option.title g.option g.option.title none, .ofValue g.text]

/-- The text does not look like an option, and a number has no more digits than can be read. -/
def IsTaken (g : Given) : Prop :=
  isPlain g.text = true ∧ (g.option = formatOption ∨ (Integer.read? g.text).isSome = true)

/-- What has been given to the command, with this option and its value behind it. -/
def apply (g : Given) (s : GenerateArguments) : Except Stop GenerateArguments :=
  if isPlain g.text then s.take (.option g.option [g.text])
  else .error (.refused generateManual (.valueExpected g.option.title))

/-- The depth bound `n`. -/
def ofDepth (n : Int) : Given := ⟨depthOption, Integer.write n, .written n (.inl rfl)⟩

/-- The seed `n`. -/
def ofSeed (n : Int) : Given := ⟨seedOption, Integer.write n, .written n (.inr rfl)⟩

/-- The format `f`. -/
def ofFormat (f : Format) : Given := ⟨formatOption, f.word, .word f⟩

/-- A number as it is written is taken, if it has no more digits than may be written. -/
theorem isTaken_ofDepth {n : Int} (h : Integer.isWritable n = true) : (ofDepth n).IsTaken :=
  ⟨isPlain_write n, .inr (by rw [ofDepth, Integer.read?_write h]; rfl)⟩

theorem isTaken_ofSeed {n : Int} (h : Integer.isWritable n = true) : (ofSeed n).IsTaken :=
  ⟨isPlain_write n, .inr (by rw [ofSeed, Integer.read?_write h]; rfl)⟩

theorem isTaken_ofFormat (f : Format) : (ofFormat f).IsTaken := ⟨by cases f <;> rfl, .inl rfl⟩

theorem apply_ofDepth {n : Int} (h : Integer.isWritable n = true) (s : GenerateArguments) :
    (ofDepth n).apply s = .ok { s with depth := .value n } :=
  (if_pos (isPlain_write n)).trans (take_depth (Integer.read?_write h) s)

theorem apply_ofSeed {n : Int} (h : Integer.isWritable n = true) (s : GenerateArguments) :
    (ofSeed n).apply s = .ok { s with seed := .value n } :=
  (if_pos (isPlain_write n)).trans (take_seed (Integer.read?_write h) s)

theorem apply_ofFormat (f : Format) (s : GenerateArguments) :
    (ofFormat f).apply s = .ok { s with format := f } :=
  (if_pos (isTaken_ofFormat f).1).trans (take_format f s)

variable (g : Given)

theorem takesValue : g.option.takesValue = true := by
  rcases g.suits.option_cases with h | h | h <;> rw [h] <;> rfl

theorem title_ne_separator : g.option.title ≠ "--" := by
  rcases g.suits.option_cases with h | h | h <;> rw [h] <;> decide

theorem classifyOne_title : classifyOne generateLayout.options g.option.title =
    .ok (.known g.option.title g.option g.option.title none) := by
  rcases g.suits.option_cases with h | h | h <;> rw [h] <;> rfl

theorem exists_classifyOne_title : ∃ t, classifyOne mainLayout.options g.option.title = .ok t := by
  rcases g.suits.option_cases with h | h | h <;> rw [h] <;> exact ⟨_, rfl⟩

/-- The program passes the option and its value on. -/
theorem passes {text : String} (h : text ∈ g.texts) : Passes text := by
  rw [texts, List.mem_pair] at h
  rcases h with rfl | rfl
  · exact ⟨g.title_ne_separator, g.exists_classifyOne_title⟩
  · exact ⟨g.suits.isValue.ne_separator, _, g.suits.isValue.classifyOne_eq noDigits_main⟩

theorem classify_texts {rest : List String} {tokens : List Token}
    (hrest : classify generateLayout.options rest = .ok tokens) :
    classify generateLayout.options (g.texts ++ rest) = .ok (g.tokens ++ tokens) :=
  classify_cons_eq_ok g.title_ne_separator g.classifyOne_title
    (classify_cons_eq_ok g.suits.isValue.ne_separator
      (g.suits.isValue.classifyOne_eq noDigits_generate) hrest)

theorem consume_tokens (ps : List Positional) (rest : List Token) (s : GenerateArguments) :
    consume generateLayout.options GenerateArguments.take (.refused generateManual) ps
        (g.tokens ++ rest) s = (do
      consume generateLayout.options GenerateArguments.take (.refused generateManual) ps rest
        (← g.apply s)) := by
  rw [tokens, Token.ofValue, apply]
  split
  · exact consume_value g.takesValue g.suits.isValue.ne_separator
  · exact consume_unknown_value g.takesValue

end Given

/-! ## Rows of options -/

/-- Options and their values as arguments, one after the other. -/
def textsOf (groups : List Given) : List String := groups.flatMap Given.texts

/-- These arguments, sorted. -/
def tokensOf (groups : List Given) : List Token := groups.flatMap Given.tokens

/-- What has been given to the command, with some options and their values behind it. -/
def settle (groups : List Given) (s : GenerateArguments) : Except Stop GenerateArguments :=
  groups.foldlM (fun s g => g.apply s) s

theorem settle_cons (g : Given) (groups : List Given) (s : GenerateArguments) :
    settle (g :: groups) s = (do settle groups (← g.apply s)) := List.foldlM_cons

theorem settle_cons_of_apply {g : Given} {s s' : GenerateArguments} (h : g.apply s = .ok s')
    (groups : List Given) : settle (g :: groups) s = settle groups s' := by
  rw [settle_cons, h]
  rfl

theorem settle_append (groups groups' : List Given) (s : GenerateArguments) :
    settle (groups ++ groups') s = (do settle groups' (← settle groups s)) := List.foldlM_append

theorem classify_textsOf (groups : List Given) {rest : List String} {tokens : List Token}
    (hrest : classify generateLayout.options rest = .ok tokens) :
    classify generateLayout.options (textsOf groups ++ rest) =
      .ok (tokensOf groups ++ tokens) := by
  induction groups with
  | nil => exact hrest
  | cons g groups ih =>
    simp only [textsOf, tokensOf, List.flatMap_cons, List.append_assoc]
    exact g.classify_texts ih

theorem consume_tokensOf (groups : List Given) (ps : List Positional) (rest : List Token)
    (s : GenerateArguments) :
    consume generateLayout.options GenerateArguments.take (.refused generateManual) ps
        (tokensOf groups ++ rest) s = (do
      consume generateLayout.options GenerateArguments.take (.refused generateManual) ps rest
        (← settle groups s)) := by
  induction groups generalizing s with
  | nil => rfl
  | cons g groups ih =>
    simp only [tokensOf, List.flatMap_cons, List.append_assoc, settle_cons, bind_assoc]
    rw [g.consume_tokens]
    exact bind_congr fun s => ih s

/-- Nothing is left of options behind the last path. -/
theorem consume_tokensOf_nil (groups : List Given) (s : GenerateArguments) :
    consume generateLayout.options GenerateArguments.take (.refused generateManual) []
        (tokensOf groups) s =
      (settle groups s).map (·, []) := by
  have hrow := consume_tokensOf groups [] [] s
  rw [List.append_nil] at hrow
  rw [hrow]
  cases settle groups s with
  | error stop => rfl
  | ok s => exact consume_nil

/-- What a text that is taken sets an option to. -/
theorem Given.IsTaken.apply_cases {g : Given} (h : g.IsTaken) :
    (∃ n, g.option = depthOption ∧ ∀ s, g.apply s = .ok { s with depth := .value n }) ∨
    (∃ n, g.option = seedOption ∧ ∀ s, g.apply s = .ok { s with seed := .value n }) ∨
    (∃ f, g.option = formatOption ∧ ∀ s, g.apply s = .ok { s with format := f }) := by
  obtain ⟨hplain, hvalue⟩ := h
  have happly : ∀ s, g.apply s = s.take (.option g.option [g.text]) := fun s => if_pos hplain
  have hread : g.option ≠ formatOption → ∃ n, Integer.read? g.text = some n :=
    fun hne => Option.isSome_iff_exists.1 (hvalue.resolve_left hne)
  rcases g.suits.option_cases with ho | ho | ho <;> rw [ho] at happly hread
  · obtain ⟨n, hn⟩ := hread (by decide)
    exact .inl ⟨n, ho, fun s => (happly s).trans (take_depth hn s)⟩
  · obtain ⟨n, hn⟩ := hread (by decide)
    exact .inr (.inl ⟨n, ho, fun s => (happly s).trans (take_seed hn s)⟩)
  · obtain ⟨f, hf⟩ := (ho ▸ g.suits).exists_word
    refine .inr (.inr ⟨f, ho, fun s => (happly s).trans ?_⟩)
    rw [hf, take_format]

/-- A text that is not taken ends the run. -/
theorem Given.exists_stop {g : Given} (h : ¬ g.IsTaken) (s : GenerateArguments) :
    ∃ stop, g.apply s = .error stop := by
  rw [Given.apply]
  split
  · rename_i hplain
    rw [IsTaken, not_and_or, not_or] at h
    obtain ⟨hformat, hread⟩ := h.resolve_left (not_not.2 hplain)
    have ho : g.option = depthOption ∨ g.option = seedOption := by
      simpa [hformat] using g.suits.option_cases
    exact ⟨_, take_unread ho (by simpa using hread) s⟩
  · exact ⟨_, rfl⟩

/-- Options whose values are all taken come to something. -/
theorem exists_settle {groups : List Given} (h : ∀ g ∈ groups, g.IsTaken)
    (s : GenerateArguments) : ∃ s', settle groups s = .ok s' := by
  induction groups generalizing s with
  | nil => exact ⟨s, rfl⟩
  | cons g groups ih =>
    obtain ⟨hg, hgroups⟩ := List.forall_mem_cons.1 h
    obtain ⟨s', happly⟩ : ∃ s', g.apply s = .ok s' := by
      rcases hg.apply_cases with ⟨_, -, happly⟩ | ⟨_, -, happly⟩ | ⟨_, -, happly⟩
      all_goals exact ⟨_, happly s⟩
    rw [settle_cons, happly]
    exact ih hgroups s'

/-- Options of which one value is not taken end the run. -/
theorem exists_stop_of_settle {groups : List Given} (h : ∃ g ∈ groups, ¬ g.IsTaken)
    (s : GenerateArguments) : ∃ stop, settle groups s = .error stop := by
  induction groups generalizing s with
  | nil => simp at h
  | cons g groups ih =>
    rw [settle_cons]
    cases happly : g.apply s with
    | error stop => exact ⟨stop, rfl⟩
    | ok s' =>
      refine ih ?_ s'
      obtain ⟨g', hg', hnot⟩ := h
      rcases List.mem_cons.1 hg' with rfl | hmem
      · obtain ⟨stop, hstop⟩ := Given.exists_stop hnot s
        rw [happly] at hstop
        cases hstop
      · exact ⟨g', hmem, hnot⟩

/-- Two different options may be given in either order. -/
theorem apply_comm {g g' : Given} (h : g.IsTaken) (h' : g'.IsTaken) (hne : g.option ≠ g'.option)
    (s : GenerateArguments) : (do g'.apply (← g.apply s)) = (do g.apply (← g'.apply s)) := by
  rcases h.apply_cases with ⟨_, ho, happly⟩ | ⟨_, ho, happly⟩ | ⟨_, ho, happly⟩ <;>
  rcases h'.apply_cases with ⟨_, ho', happly'⟩ | ⟨_, ho', happly'⟩ | ⟨_, ho', happly'⟩ <;>
  first
    | exact absurd (ho.trans ho'.symm) hne
    | simp only [happly, happly', bind, Except.bind]

/-- What has been given so far, or why the run has ended, is all that counts. -/
theorem foldl_apply (groups : List Given) (r : Except Stop GenerateArguments) :
    groups.foldl (fun r g => r >>= g.apply) r = r >>= settle groups := by
  induction groups generalizing r with
  | nil => exact (bind_pure r).symm
  | cons g groups ih =>
    rw [List.foldl_cons, ih, bind_assoc]
    rfl

/-- Different options may be given in any order. -/
theorem settle_perm {groups groups' : List Given} (hperm : groups.Perm groups')
    (htaken : ∀ g ∈ groups, g.IsTaken) (hnodup : (groups.map Given.option).Nodup)
    (s : GenerateArguments) : settle groups s = settle groups' s := by
  have hcomm : ∀ g ∈ groups, ∀ g' ∈ groups, ∀ r : Except Stop GenerateArguments,
      r >>= g.apply >>= g'.apply = r >>= g'.apply >>= g.apply := by
    intro g hg g' hg' r
    by_cases heq : g.option = g'.option
    · rw [List.inj_on_of_nodup_map hnodup hg hg' heq]
    · rw [bind_assoc, bind_assoc]
      exact bind_congr fun s => apply_comm (htaken g hg) (htaken g' hg') heq s
  calc settle groups s
      = groups.foldl (fun r g => r >>= g.apply) (.ok s) := (foldl_apply groups (.ok s)).symm
    _ = groups'.foldl (fun r g => r >>= g.apply) (.ok s) := hperm.foldl_eq' hcomm (Except.ok s)
    _ = settle groups' s := foldl_apply groups' (.ok s)

/-! ## Paths -/

/-- The paths have been given as well. -/
def GenerateArguments.placed (s : GenerateArguments) (config : String) (output : Option String) :
    GenerateArguments :=
  { s with config := some config, output }

/-- Options do not read the paths. -/
theorem take_option_placed (o : Opt) (texts : List String) (s : GenerateArguments)
    (config : String) (output : Option String) :
    (s.placed config output).take (.option o texts) =
      (s.take (.option o texts)).map (·.placed config output) := by
  simp only [GenerateArguments.take]
  split_ifs
  · cases Setting.ofTexts (integerValue generateManual o) texts <;> rfl
  · cases Setting.ofTexts (integerValue generateManual o) texts <;> rfl
  · cases Setting.ofTexts (formatValue generateManual o) texts <;> rfl
  · rfl

theorem Given.apply_placed (g : Given) (s : GenerateArguments) (config : String)
    (output : Option String) :
    g.apply (s.placed config output) = (g.apply s).map (·.placed config output) := by
  rw [apply, apply]
  split
  · exact take_option_placed _ _ _ _ _
  · rfl

theorem settle_placed (groups : List Given) (s : GenerateArguments) (config : String)
    (output : Option String) :
    settle groups (s.placed config output) = (settle groups s).map (·.placed config output) := by
  induction groups generalizing s with
  | nil => rfl
  | cons g groups ih =>
    rw [settle_cons, settle_cons, g.apply_placed]
    cases g.apply s with
    | error stop => rfl
    | ok s => exact ih s

/-- A path that no other one stands behind is matched without an output. -/
theorem consume_config {path : String} (hpath : path ≠ "--") {next : List Token}
    (hnext : ∀ t ∈ next.head?, t.isOption = true) (s : GenerateArguments) :
    consume generateLayout.options GenerateArguments.take (.refused generateManual)
        generateLayout.positionals (.plain path :: next) s =
      consume generateLayout.options GenerateArguments.take (.refused generateManual) [] next
        (s.placed path none) := by
  have hmatch : matchPositionals generateLayout.positionals (.plain path :: next) =
      ([.positional ⟨"config", .one⟩ (dropSeparator [path]),
        .positional ⟨"output", .atMostOne⟩ []], [], next) := by
    cases next with
    | nil => rfl
    | cons t later =>
      have hoption := hnext t rfl
      cases t with
      | separator => cases hoption
      | plain text => cases hoption
      | known text option name attached => rfl
      | unknown text => rfl
  rw [dropSeparator_singleton hpath] at hmatch
  exact consume_plain hmatch (Nat.le_refl _)

theorem isOption_of_head_tokensOf {groups : List Given} :
    ∀ t ∈ (tokensOf groups).head?, t.isOption = true := by
  cases groups with
  | nil => exact nofun
  | cons g groups =>
    rintro _ ⟨⟩
    rfl

theorem passes_of_mem_textsOf {groups : List Given} {text : String} (h : text ∈ textsOf groups) :
    Passes text := by
  obtain ⟨g, -, hg⟩ := List.mem_flatMap.1 h
  exact g.passes hg

theorem classify_textsOf_nil (groups : List Given) :
    classify generateLayout.options (textsOf groups) = .ok (tokensOf groups) := by
  have hnil : classify generateLayout.options [] = .ok [] := rfl
  simpa using classify_textsOf groups hnil

section
variable {path : String} (h : IsPath path)
include h

theorem parseGenerate_options (groups : List Given) :
    parseGenerate (path :: textsOf groups) = (settle groups {}).map fun s =>
      (.generate path none s.depth s.seed s.format, []) := by
  have hne := ne_separator_of_classify h.generate
  have hclassify := classify_cons_eq_ok hne (classifyOne_of_classify h.generate)
    (classify_textsOf_nil groups)
  have hrun : generateLayout.run GenerateArguments.take (.refused generateManual) {}
      (path :: textsOf groups) = (settle groups {}).map fun s => (s.placed path none, []) := by
    rw [Layout.run, hclassify]
    refine (consume_config hne isOption_of_head_tokensOf {}).trans ?_
    rw [consume_tokensOf_nil, settle_placed]
    cases settle groups {} <;> rfl
  rw [parseGenerate, hrun]
  cases settle groups {} <;> rfl

/-- The invocation that options behind the path of a configuration stand for. -/
theorem parse_options (groups : List Given) :
    Invocation.parse ("generate" :: path :: textsOf groups) = (settle groups {}).map fun s =>
      ⟨false, .generate path none s.depth s.seed s.format⟩ := by
  have hargs : ∀ text ∈ path :: textsOf groups, Passes text :=
    List.forall_mem_cons.2 ⟨h.passes, fun _ => passes_of_mem_textsOf⟩
  rw [parse_eq rfl hargs, parseCommand, if_pos rfl, parseGenerate_options h]
  cases settle groups {} <;> rfl

end

/-! ## Overrides -/

/-- The texts that give a whole number for an option, if there is one to be given. -/
def optionTexts (name : String) : Option Int → List String
  | none => []
  | some n => [name, Integer.write n]

/-- The texts that give a format, and perhaps a depth bound and a seed. -/
def overrideTexts (depth seed : Option Int) (f : Format) : List String :=
  optionTexts "--depth" depth ++ (optionTexts "--seed" seed ++ ["--format", f.word])

/-- A format, and perhaps a depth bound and a seed. -/
def overrides (depth seed : Option Int) (f : Format) : List Given :=
  depth.toList.map .ofDepth ++ (seed.toList.map .ofSeed ++ [.ofFormat f])

theorem textsOf_overrides (depth seed : Option Int) (f : Format) :
    textsOf (overrides depth seed f) = overrideTexts depth seed f := by
  cases depth <;> cases seed <;> rfl

section
variable {path : String} {depth seed : Option Int}

theorem settle_overrides (hdepth : ∀ n ∈ depth, Integer.isWritable n = true)
    (hseed : ∀ n ∈ seed, Integer.isWritable n = true) (f : Format) (s : GenerateArguments) :
    settle (overrides depth seed f) s = .ok { s with
      depth := depth.elim s.depth .value, seed := seed.elim s.seed .value, format := f } := by
  have hseeded : ∀ s, settle (seed.toList.map .ofSeed ++ [.ofFormat f]) s =
      .ok { s with seed := seed.elim s.seed .value, format := f } := fun s => by
    cases seed with
    | none => exact settle_cons_of_apply (Given.apply_ofFormat f _) []
    | some n =>
      exact (settle_cons_of_apply (Given.apply_ofSeed (hseed n rfl) s) _).trans
        (settle_cons_of_apply (Given.apply_ofFormat f _) [])
  rw [overrides]
  cases depth with
  | none => exact hseeded s
  | some n =>
    exact (settle_cons_of_apply (Given.apply_ofDepth (hdepth n rfl) s) _).trans (hseeded _)

/-- The invocation that derives a tree of the configuration at a path, perhaps with another depth
bound or another seed, and prints it. -/
theorem parse_overrides (h : IsPath path) (hdepth : ∀ n ∈ depth, Integer.isWritable n = true)
    (hseed : ∀ n ∈ seed, Integer.isWritable n = true) (f : Format) :
    Invocation.parse ("generate" :: path :: overrideTexts depth seed f) =
      .ok ⟨false, .generate path none (depth.elim .unset .value) (seed.elim .unset .value) f⟩ := by
  rw [← textsOf_overrides, parse_options h, settle_overrides hdepth hseed]
  rfl

/-- The invocation that derives a tree of the configuration at a path, and prints it. -/
theorem parse_generate (h : IsPath path) (f : Format) :
    Invocation.parse ["generate", path, "--format", f.word] =
      .ok ⟨false, .generate path none .unset .unset f⟩ :=
  parse_overrides h (nofun : ∀ n ∈ (none : Option Int), _) (nofun : ∀ n ∈ (none : Option Int), _) f

end

end RandomDerivation.CommandLine
