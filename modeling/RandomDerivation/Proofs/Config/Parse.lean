import RandomDerivation.Config.Basic
import RandomDerivation.Proofs.Config.References
import RandomDerivation.Proofs.Json.Read

/-!
# Which documents describe configurations

A document describes a configuration when it follows a schema. All that the schema asks for is
listed in the order in which it is looked at: the name, the root, the depth and the seed, then the
entries of the two tables, and then whether all that is referred to is defined. The parser returns
the configuration of every document that follows the schema; for any other document it fails with
the fault of what comes first in the list and is not as the schema asks.
-/

namespace RandomDerivation.Config

/-- A member may be absent, and is as it should be otherwise. -/
def Optional (members : List (String × Json)) (name : String) (P : Json → Prop) : Prop :=
  ∀ value, members.lookup name = some value → P value

/-- What the members of a document have to be. A table that is absent has no entries. -/
structure Schema (members leafEntries nodeEntries : List (String × Json)) (start : String) :
    Prop where
  name : Optional members "name" fun v => ∃ s, v = .str s
  root : members.lookup "root" = some (.str start)
  root_ne_empty : start ≠ ""
  depth : Optional members "depth" fun v => ∃ n : Nat, v = .int n
  seed : Optional members "seed" fun v => v = .null ∨ ∃ n, v = .int n
  leaves : Field.get members "leaves" (.obj []) = .obj leafEntries
  leaf_specs : ∀ e ∈ leafEntries, ∃ p, Producer.Describes e.2 p
  nodes : Field.get members "nodes" (.obj []) = .obj nodeEntries
  node_specs : ∀ e ∈ nodeEntries, ∃ slots, e.2 = .arr slots ∧ ∀ s ∈ slots, Slot.IsSpec s
  root_defined : start ∈ nodeEntries.map Prod.fst ∨ start ∈ leafEntries.map Prod.fst
  references_defined :
    ∀ e ∈ nodeEntries, ∀ r ∈ referencesOf e.2, DefinedIn leafEntries nodeEntries r

/-- The configuration that the members of a document describe. Its tables hold what the entries
of the document describe, in their order. -/
structure Describes (members : List (String × Json)) (c : Config) : Prop where
  name : Field.get members "name" (.str "Tree") = .str c.name
  root : Field.get members "root" = .str c.grammar.root
  depth : Field.get members "depth" (.int 3) = .int c.depth
  seed : Field.get members "seed" = c.seed.elim .null .int
  leaves : ∃ leaves, Field.get members "leaves" (.obj []) = .obj leaves ∧
    c.grammar.leaves.Represents DescribesLeaf leaves
  nodes : ∃ nodes, Field.get members "nodes" (.obj []) = .obj nodes ∧
    c.grammar.nodes.Represents DescribesNode nodes

/-- What has to hold of the members other than the tables. -/
def headerConstraints (members : List (String × Json)) : List Constraint :=
  let name := Field.get members "name" (.str "Tree")
  let root := Field.get members "root"
  let depth := Field.get members "depth" (.int 3)
  let seed := Field.get members "seed"
  [Field.isString "name" name,
    Field.isString "root" root,
    ⟨root ≠ .str "", .config "root" .empty⟩,
    Field.isInteger "depth" depth,
    ⟨∀ n, depth = .int n → 0 ≤ n, .config "depth" .negative⟩,
    ⟨seed = .null ∨ ∃ n, seed = .int n, .config "seed" .notInteger⟩]

/-- What has to hold of a document. -/
def constraints (document : Json) : List Constraint :=
  let members := document.entries
  let leaves := Field.get members "leaves" (.obj [])
  let nodes := Field.get members "nodes" (.obj [])
  [Field.isObject "root" document] ++ headerConstraints members ++
    [Field.isObject "leaves" leaves] ++ leafConstraints leaves.entries ++
    [Field.isObject "nodes" nodes] ++ nodeConstraints nodes.entries ++
    match Field.get members "root" with
    | .str root => referenceConstraints root leaves.entries nodes.entries
    | _ => []

/-! ## The parser -/

theorem enforces_parseDepth (value : Json) :
    Enforces [Field.isInteger "depth" value,
        ⟨∀ n, value = .int n → 0 ≤ n, .config "depth" .negative⟩]
      (parseDepth value) fun (d : Nat) => value = .int d := by
  apply (Field.enforces_integer "depth" value).bind
  intro n hn
  subst hn
  have hsign : (decide (0 ≤ n)) = true ↔ ∀ m, Json.int n = .int m → 0 ≤ m := by simp
  apply (Field.enforces_ensure hsign _ _).map
  intro _ hpositive
  rw [Int.toNat_of_nonneg (hpositive n rfl)]

theorem enforces_parseSeed (value : Json) :
    Enforces [⟨value = .null ∨ ∃ n, value = .int n, .config "seed" .notInteger⟩]
      (parseSeed value) fun seed => value = seed.elim .null .int := by
  cases value with
  | null => exact enforces_of_holds (Or.inl rfl) (enforces_ok rfl)
  | int n => exact enforces_of_holds (Or.inr ⟨n, rfl⟩) (enforces_ok rfl)
  | _ => exact enforces_of_broken (by simp) rfl

/-- The members other than the tables are what a header holds. -/
structure DescribesHeader (members : List (String × Json)) (h : Header) : Prop where
  name : Field.get members "name" (.str "Tree") = .str h.name
  root : Field.get members "root" = .str h.root
  depth : Field.get members "depth" (.int 3) = .int h.depth
  seed : Field.get members "seed" = h.seed.elim .null .int

theorem enforces_parseHeader (members : List (String × Json)) :
    Enforces (headerConstraints members) (parseHeader members) (DescribesHeader members) := by
  apply (Field.enforces_string "name" _).bind
  intro name hname
  apply (Field.enforces_string "root" _).bind
  intro root hroot
  have hempty : (decide (root ≠ "")) = true ↔ Field.get members "root" ≠ .str "" := by
    simp [hroot]
  apply (Field.enforces_ensure hempty _ _).bind
  intro _ _
  apply (enforces_parseDepth _).bind
  intro depth hdepth
  apply (enforces_parseSeed _).map
  intro seed hseed
  exact ⟨hname, hroot, hdepth, hseed⟩

/-- The names of a table are distinct. -/
theorem nodup_of_get {members entries : List (String × Json)} {name : String}
    (hmembers : (Json.obj members).hasDistinctNames = true)
    (hentries : Field.get members name (.obj []) = .obj entries) :
    (entries.map Prod.fst).Nodup := by
  cases h : members.lookup name with
  | none =>
    rw [Field.get, h] at hentries
    cases hentries
    exact List.nodup_nil
  | some value =>
    rw [Field.get, h] at hentries
    cases hentries
    exact Json.nodup_of_lookup hmembers h

/-- The parser looks at the constraints in order, and returns the configuration described. -/
theorem enforces_parse {document : Json} (hdocument : document.hasDistinctNames = true) :
    Recorded.Enforces (constraints document) (parse document) (Describes document.entries) := by
  simp only [constraints, List.append_assoc]
  apply (Recorded.enforces_ofExcept (Field.enforces_object "root" document)).bind
  intro members hmembers
  subst hmembers
  simp only [Json.entries]
  apply (Recorded.enforces_ofExcept (enforces_parseHeader members)).bind
  intro header hheader
  apply (Recorded.enforces_ofExcept (Field.enforces_object "leaves" _)).bind
  intro leaves hleaves
  simp only [hleaves, hheader.root]
  apply (enforces_registerLeaves registered_empty (nodup_of_get hdocument hleaves)).bind
  intro b hb
  apply (Recorded.enforces_ofExcept (Field.enforces_object "nodes" _)).bind
  intro nodes hnodes
  simp only [hnodes]
  apply (enforces_registerNodes hb (nodup_of_get hdocument hnodes)).bind
  intro b' hb'
  rw [Builder.setRoot, hb'.root]
  simp only [pure_bind]
  rw [← List.append_nil (referenceConstraints _ _ _)]
  apply (Grammar.enforces_ofTables (enforces_checkReferences hb'.leaves hb'.nodes header.root)).bind
  intro g hg
  obtain ⟨hroot, hgnodes, hgleaves⟩ := hg
  apply Recorded.enforces_pure
  refine ⟨hheader.name, ?_, hheader.depth, hheader.seed, ⟨leaves, hleaves, ?_⟩, ⟨nodes, hnodes, ?_⟩⟩
  · rw [hroot]
    exact hheader.root
  · rw [hgleaves]
    exact hb'.leaves
  · rw [hgnodes]
    exact hb'.nodes

/-- A document that is read from a text has distinct names. -/
theorem enforces_parse_of_read {text : List Char} {document : Json}
    (h : Json.read text = .ok document) :
    Recorded.Enforces (constraints document) (parse document) (Describes document.entries) :=
  enforces_parse (Json.hasDistinctNames_of_read h)

/-- Of two things that are wrong, what is looked at first is reported, wherever it stands. -/
example : parse (.obj [("depth", .int (-1)), ("root", .str "")]) [] =
    .error (.config "root" .empty) [] := rfl

theorem optional_iff {members : List (String × Json)} {name : String} {absent : Json}
    {P : Json → Prop} (h : P absent) :
    P (Field.get members name absent) ↔ Optional members name P := by
  unfold Field.get Optional
  cases members.lookup name with
  | none => simpa using h
  | some v => simp

theorem isNat_iff {value : Json} :
    ((∃ n, value = .int n) ∧ ∀ n, value = .int n → 0 ≤ n) ↔ ∃ n : Nat, value = .int n := by
  constructor
  · rintro ⟨⟨n, rfl⟩, hsign⟩
    exact ⟨n.toNat, by rw [Int.toNat_of_nonneg (hsign n rfl)]⟩
  · rintro ⟨n, rfl⟩
    refine ⟨⟨n, rfl⟩, ?_⟩
    intro m hm
    cases hm
    exact Int.natCast_nonneg n

theorem isRoot_iff {members : List (String × Json)} :
    ((∃ s, Field.get members "root" = .str s) ∧ Field.get members "root" ≠ .str "") ↔
      ∃ start, members.lookup "root" = some (.str start) ∧ start ≠ "" := by
  constructor
  · rintro ⟨⟨start, hstart⟩, hempty⟩
    rw [hstart] at hempty
    exact ⟨start, (Field.get_eq_iff (by simp)).1 hstart, fun h => hempty (by rw [h])⟩
  · rintro ⟨start, hstart, hempty⟩
    rw [Field.get_of_lookup hstart]
    exact ⟨⟨start, rfl⟩, by simpa using hempty⟩

theorem forall_holds_headerConstraints_iff {members : List (String × Json)} :
    (∀ c ∈ headerConstraints members, c.holds) ↔
      (Optional members "name" fun v => ∃ s, v = .str s) ∧
      (∃ start, members.lookup "root" = some (.str start) ∧ start ≠ "") ∧
      (Optional members "depth" fun v => ∃ n : Nat, v = .int n) ∧
      Optional members "seed" fun v => v = .null ∨ ∃ n, v = .int n := by
  have hname : (∃ s, Field.get members "name" (.str "Tree") = .str s) ↔
      Optional members "name" fun v => ∃ s, v = .str s :=
    optional_iff (P := fun v => ∃ s, v = .str s) ⟨"Tree", rfl⟩
  have hdepth : (∃ n : Nat, Field.get members "depth" (.int 3) = .int n) ↔
      Optional members "depth" fun v => ∃ n : Nat, v = .int n :=
    optional_iff (P := fun v => ∃ n : Nat, v = .int n) ⟨3, rfl⟩
  have hseed : (Field.get members "seed" = .null ∨ ∃ n, Field.get members "seed" = .int n) ↔
      Optional members "seed" fun v => v = .null ∨ ∃ n, v = .int n :=
    optional_iff (P := fun v => v = .null ∨ ∃ n, v = .int n) (Or.inl rfl)
  rw [← hname, ← isRoot_iff, ← hdepth, ← hseed, ← isNat_iff]
  simp only [headerConstraints, List.forall_mem_cons, List.not_mem_nil, Field.isString,
    Field.isInteger, and_assoc, false_implies, implies_true, and_true]

theorem forall_holds_referenceConstraints_iff {root : String}
    {leaves nodes : List (String × Json)} :
    (∀ c ∈ referenceConstraints root leaves nodes, c.holds) ↔
      (root ∈ nodes.map Prod.fst ∨ root ∈ leaves.map Prod.fst) ∧
        ∀ e ∈ nodes, ∀ r ∈ referencesOf e.2, DefinedIn leaves nodes r := by
  simp only [referenceConstraints, List.forall_mem_append, List.forall_mem_singleton,
    List.forall_mem_flatMap, entryReferenceConstraints, List.forall_mem_map]

/-- All constraints on a document hold when it follows the schema. -/
theorem schema_iff {document : Json} :
    (∃ members leaves nodes root, document = .obj members ∧ Schema members leaves nodes root) ↔
      ∀ c ∈ constraints document, c.holds := by
  simp only [constraints, List.forall_mem_append, List.forall_mem_singleton,
    forall_holds_headerConstraints_iff, forall_holds_leafConstraints_iff,
    forall_holds_nodeConstraints_iff, Field.isObject, and_assoc]
  constructor
  · rintro ⟨members, leaves, nodes, root, rfl, h⟩
    simp only [Json.entries, h.leaves, h.nodes, Field.get_of_lookup h.root,
      forall_holds_referenceConstraints_iff]
    exact ⟨⟨_, rfl⟩, h.name, ⟨root, h.root, h.root_ne_empty⟩, h.depth, h.seed, ⟨_, rfl⟩,
      h.leaf_specs, ⟨_, rfl⟩, h.node_specs, h.root_defined, h.references_defined⟩
  · rintro ⟨⟨members, rfl⟩, hname, ⟨root, hroot, hempty⟩, hdepth, hseed, ⟨leaves, hleaves⟩,
      hproducers, ⟨nodes, hnodes⟩, hslots, hreferences⟩
    simp only [Json.entries] at hroot hleaves hnodes
    simp only [Json.entries, hleaves, hnodes, Field.get_of_lookup hroot,
      forall_holds_referenceConstraints_iff] at hproducers hslots hreferences
    exact ⟨members, leaves, nodes, root, rfl, hname, hroot, hempty, hdepth, hseed, hleaves,
      hproducers, hnodes, hslots, hreferences.1, hreferences.2⟩

theorem isConfig_of_mem_headerConstraints {members : List (String × Json)} :
    ∀ c ∈ headerConstraints members, ∃ fault, c.fault = .grammar (.config fault) := by
  simp [headerConstraints, Field.isString, Field.isInteger, Fault.config]

theorem isUnresolved_of_mem_referenceConstraints {root : String}
    {leaves nodes : List (String × Json)} :
    ∀ c ∈ referenceConstraints root leaves nodes,
      ∃ r site, c.fault = .grammar (.unresolved r site) := by
  rw [referenceConstraints, List.forall_mem_append, List.forall_mem_singleton,
    List.forall_mem_flatMap]
  refine ⟨⟨_, _, rfl⟩, ?_⟩
  intro e _ c hc
  obtain ⟨r, -, rfl⟩ := List.mem_map.1 hc
  exact ⟨r, _, rfl⟩

/-- What is wrong with a document is something about it as a configuration, a name that it does
not define, or a whole number that is too large for a double. In particular it is never something
about the registration of its entries. -/
theorem fault_of_mem_constraints {document : Json} :
    ∀ c ∈ constraints document,
      (∃ fault, c.fault = .grammar (.config fault)) ∨
        (∃ r site, c.fault = .grammar (.unresolved r site)) ∨ c.fault = .numberTooLarge := by
  simp only [constraints, List.forall_mem_append, List.forall_mem_singleton, and_assoc]
  refine ⟨.inl ⟨_, rfl⟩, ?_, .inl ⟨_, rfl⟩, ?_, .inl ⟨_, rfl⟩, ?_, ?_⟩
  · intro c hc
    exact .inl (isConfig_of_mem_headerConstraints c hc)
  · intro c hc
    rcases fault_of_mem_leafConstraints c hc with hconfig | hlarge
    · exact .inl hconfig
    · exact .inr (.inr hlarge)
  · intro c hc
    exact .inl (isConfig_of_mem_nodeConstraints c hc)
  · split
    · intro c hc
      exact .inr (.inl (isUnresolved_of_mem_referenceConstraints c hc))
    · simp

/-! ## Parsing is exact -/

/-- A document is parsed exactly if it follows the schema, and the result is the configuration
that it describes. Any other document is refused with the fault of the first constraint that does
not hold. -/
theorem parse_exact {document : Json} (hdocument : document.hasDistinctNames = true) (log : Log) :
    ((∃ c log', parse document log = .ok c log') ↔
      ∃ members leaves nodes start, document = .obj members ∧
        Schema members leaves nodes start) ∧
    (∀ c log', parse document log = .ok c log' →
      ∃ members, document = .obj members ∧ Describes members c) ∧
    (∀ f, (∃ log', parse document log = .error f log') ↔ FirstBroken (constraints document) f) ∧
    ∀ f, FirstBroken (constraints document) f →
      (∃ fault, f = .grammar (.config fault)) ∨
        (∃ r site, f = .grammar (.unresolved r site)) ∨ f = .numberTooLarge := by
  have henforces := enforces_parse hdocument log
  have hok : (∃ c log', parse document log = .ok c log') ↔
      ∃ members leaves nodes start, document = .obj members ∧
        Schema members leaves nodes start := by
    rw [schema_iff, ← henforces.exists_ok_iff]
    simp only [Recorded.outcome_eq_ok]
  refine ⟨hok, ?_, ?_, ?_⟩
  · intro c log' hparse
    obtain ⟨members, _, _, _, rfl, -⟩ := hok.1 ⟨c, log', hparse⟩
    exact ⟨members, rfl, henforces.post_of_ok (Recorded.outcome_eq_ok.2 ⟨log', hparse⟩)⟩
  · intro f
    rw [← Recorded.outcome_eq_error, henforces.eq_error_iff]
  · intro f hf
    obtain ⟨c, hc, -, rfl⟩ := hf.exists_mem
    exact fault_of_mem_constraints c hc

/-- A document of one node with one leaf. -/
def minimalDocument : Json :=
  .obj [
    ("root", .str "branch"),
    ("leaves", .obj [("color", .obj [("type", .str "const"), ("value", .str "green")])]),
    ("nodes", .obj [("branch", .arr [.obj [("leaf", .str "color")]])])]

theorem parse_exact_minimalDocument :
    minimalDocument.hasDistinctNames = true ∧
      ∃ members leaves nodes start, minimalDocument = .obj members ∧
        Schema members leaves nodes start :=
  ⟨by decide, (parse_exact (by decide) []).1.1 ⟨_, _, rfl⟩⟩

end RandomDerivation.Config
