import RandomDerivation.Generator
import RandomDerivation.Proofs.Derivation.Legal
import RandomDerivation.Proofs.Tree.Family

/-!
# The order of leaf values

The leaf values of a tree are made family by family: all slots of a node are filled, from left to
right, before any of its children is derived further. So the values, read family by family, are
the values that were made, in the order in which they were made. None of them is lost, used twice
or moved.

A leaf that counts its calls makes this visible: its positions are numbered family by family.
-/

namespace RandomDerivation
variable {ρ μ : Type} [Produces ρ μ]

namespace Grammar
variable {g : Grammar ρ}

/-- A slot that is filled at once is filled by a position without children. -/
theorem childless_of_resolveAll {slots : List Slot} {w w' : World μ} {fillings : List Filling}
    (h : g.resolveAll slots w = .ok fillings w') {t : Tree} (ht : .tree t ∈ fillings) :
    t.children = [] := by
  obtain ⟨-, hfills⟩ := fills_of_resolveAll h
  obtain ⟨s, -, hfill⟩ := exists_of_forall₂_of_mem_right hfills ht
  cases hfill
  rfl

/-- The leaf positions among the given ones, with their values, as far as their kinds tell them
from nodes. -/
def leafMarks (g : Grammar ρ) (ts : List Tree) : List (String × Json) :=
  (ts.filter fun t => !g.nodes.contains t.kind).map fun t => (t.kind, t.value)

/-- The calls of leaves whose names tell them from nodes. -/
def leafCalls (g : Grammar ρ) (calls : List (String × Json)) : List (String × Json) :=
  calls.filter fun call => !g.nodes.contains call.1

theorem leafMarks_append (ts us : List Tree) :
    g.leafMarks (ts ++ us) = g.leafMarks ts ++ g.leafMarks us := by
  rw [leafMarks, List.filter_append, List.map_append]
  rfl

theorem leafCalls_append (calls later : List (String × Json)) :
    g.leafCalls (calls ++ later) = g.leafCalls calls ++ g.leafCalls later :=
  List.filter_append _ _

/-- A position counts as a leaf when its kind is no node. -/
theorem leafMarks_singleton (t : Tree) :
    g.leafMarks [t] = g.leafCalls [(t.kind, t.value)] := by
  cases h : g.nodes.contains t.kind <;> simp [leafMarks, leafCalls, h]

theorem leafMarks_of_mem {t : Tree} (h : t.kind ∈ g.nodes) : g.leafMarks [t] = [] := by
  simp [leafMarks, Table.contains_iff.2 h]

/-- When the pending fillings of a node are derived, what was filled stays where it is, and the
calls that are made meanwhile are those for the positions further below. -/
theorem leafMarks_of_mapM {child : Reference → Action μ Tree}
    (hchild : ∀ {name w w' t}, name ∈ g.nodes → child ⟨.node, name⟩ w = .ok t w' →
      t.kind = name ∧ ∃ calls, g.History w calls w' ∧
        g.leafMarks t.descendants = g.leafCalls calls)
    {fillings : List Filling}
    (hpending : ∀ r, .pending r ∈ fillings → r.kind = .node ∧ r.name ∈ g.nodes)
    (htrees : ∀ t, .tree t ∈ fillings → t.children = [])
    {w w' : World μ} {children : List Tree}
    (h : fillings.mapM (Filling.complete child) w = .ok children w') :
    g.leafMarks children = g.leafCalls (fillings.flatMap Filling.made) ∧
      ∃ calls, g.History w calls w' ∧
        g.leafMarks (children.flatMap Tree.descendants) = g.leafCalls calls := by
  induction fillings generalizing w children with
  | nil =>
    rw [List.mapM_nil, pure_eq_ok] at h
    obtain ⟨rfl, rfl⟩ := h
    exact ⟨rfl, [], .rest, rfl⟩
  | cons filling fillings ih =>
    simp only [List.mapM_cons, bind_eq_ok, pure_eq_ok] at h
    obtain ⟨t, w₁, ht, rest, w₂, hrest, rfl, rfl⟩ := h
    obtain ⟨hfilled, later, hlater, hmarks⟩ := ih (fun r hr => hpending r (by simp [hr]))
      (fun u hu => htrees u (by simp [hu])) hrest
    rw [← List.singleton_append, leafMarks_append, hfilled, List.flatMap_cons, leafCalls_append,
      List.singleton_append, List.flatMap_cons, leafMarks_append, hmarks]
    cases filling with
    | tree u =>
      -- The value was made when the slot was filled: nothing happens now.
      obtain ⟨rfl, rfl⟩ := pure_eq_ok.1 ht
      obtain ⟨kind, value, children⟩ := t
      obtain rfl : children = [] := htrees (.node kind value children) (by simp)
      exact ⟨by rw [leafMarks_singleton]; rfl, later, hlater, by simp [leafMarks]⟩
    | pending r =>
      obtain ⟨kind, name⟩ := r
      obtain ⟨rfl, hname⟩ := hpending _ (List.mem_cons_self)
      obtain ⟨hkind, now, hnow, hbelow⟩ := hchild hname ht
      refine ⟨?_, now ++ later, hnow.append hlater, ?_⟩
      · rw [leafMarks_of_mem (hkind ▸ hname)]
        rfl
      · rw [hbelow, leafCalls_append]

/-- What lies below a node has the values of the calls that the derivation of the node made. -/
theorem leafMarks_of_grow_node {levels : Nat} {name : String} (hname : name ∈ g.nodes)
    {w w' : World μ} {t : Tree} (h : g.grow levels ⟨.node, name⟩ w = .ok t w') :
    t.kind = name ∧ ∃ calls, g.History w calls w' ∧
      g.leafMarks t.descendants = g.leafCalls calls := by
  induction levels generalizing name w w' t with
  | zero =>
    obtain ⟨rfl, rfl⟩ := pure_eq_ok.1 h
    exact ⟨rfl, [], .rest, by simp [leafMarks, leafCalls]⟩
  | succ levels ih =>
    obtain ⟨d, hd⟩ := Table.exists_find?_of_mem hname
    simp only [grow_succ_node hd, bind_eq_ok, pure_eq_ok] at h
    obtain ⟨fillings, w₁, hfillings, children, w₂, hchildren, rfl, rfl⟩ := h
    obtain ⟨hfilled, later, hlater, hmarks⟩ := leafMarks_of_mapM (fun hname ht => ih hname ht)
      (fun r hr => pending_of_resolveAll hd hfillings hr)
      (fun t ht => childless_of_resolveAll hfillings ht) hchildren
    obtain ⟨hslots, -⟩ := fills_of_resolveAll hfillings
    refine ⟨rfl, _, hslots.append hlater, ?_⟩
    rw [Tree.descendants_node, leafMarks_append, hfilled, hmarks, leafCalls_append]

/-- The leaf values of a tree, family by family, are those of the calls in their order. -/
theorem leafMarks_of_grow {levels : Nat} {r : Reference}
    (hr : isDefined g.nodes g.leaves r = true) {w w' : World μ} {t : Tree}
    (h : g.grow levels r w = .ok t w') :
    ∃ calls, g.History w calls w' ∧ g.leafMarks t.families = g.leafCalls calls := by
  have hfamilies : g.leafMarks t.families = g.leafMarks [t] ++ g.leafMarks t.descendants :=
    leafMarks_append [t] t.descendants
  match r, hr with
  | ⟨.leaf, name⟩, _ =>
    rw [grow_leaf] at h
    obtain ⟨leaf, value, hleaf, hvalue, rfl⟩ := produceLeaf_eq_ok.1 h
    refine ⟨[(name, value)], .call hleaf hvalue .rest, ?_⟩
    rw [hfamilies, leafMarks_singleton, Tree.descendants_childless, leafMarks]
    exact List.append_nil _
  | ⟨.node, name⟩, hr =>
    have hname := Table.contains_iff.1 hr
    obtain ⟨hkind, calls, hcalls, hmarks⟩ := leafMarks_of_grow_node hname h
    refine ⟨calls, hcalls, ?_⟩
    rw [hfamilies, leafMarks_of_mem (hkind ▸ hname), hmarks, List.nil_append]

/-! ## Leaves that count -/

/-- The leaf counts its calls. As long as its counter stands at a number, this number is the next
value, and the counter stands at the one behind it afterwards. No other leaf moves the counter. -/
structure Counts (g : Grammar ρ) (name : String) (stands : Int → μ → Prop) : Prop where
  self : ∀ {leaf : LeafGenerator ρ} {i : Int} {w w' : World μ} {value : Json},
    g.leaves.find? name = some leaf → stands i w.memory →
      Produces.produce leaf.generator w = .ok value w' →
        value = .int i ∧ stands (i + 1) w'.memory
  others : ∀ {other : String} {leaf : LeafGenerator ρ} {i : Int} {w w' : World μ} {value : Json},
    other ≠ name → g.leaves.find? other = some leaf → stands i w.memory →
      Produces.produce leaf.generator w = .ok value w' → stands i w'.memory

/-- So many whole numbers, counted from the given one on. -/
def countFrom (i : Int) (n : Nat) : List Json := (List.range n).map fun k : Nat => .int (i + k)

theorem countFrom_succ (i : Int) (n : Nat) :
    countFrom i (n + 1) = .int i :: countFrom (i + 1) n := by
  simp only [countFrom, List.range_succ_eq_map, List.map_cons, List.map_map, Function.comp_def]
  congr 1
  · simp
  · apply List.map_congr_left
    intro k _
    congr 1
    omega

/-- Along a history the calls of a leaf that counts are numbered, and the counter stands behind
the last of them. -/
theorem History.counted {name : String} {stands : Int → μ → Prop} (hcounts : g.Counts name stands)
    {w w' : World μ} {calls : List (String × Json)} (h : g.History w calls w') {i : Int}
    (hi : stands i w.memory) :
    (calls.filter fun call => call.1 == name).map Prod.snd =
        countFrom i (calls.countP fun call => call.1 == name) ∧
      stands (i + calls.countP fun call => call.1 == name) w'.memory := by
  induction h generalizing i with
  | rest =>
    refine ⟨rfl, ?_⟩
    simpa using hi
  | draw hdraw _ ih =>
    rw [← memory_of_draw hdraw] at hi
    exact ih hi
  | @call w w₁ w' calls other leaf value hleaf hvalue _ ih =>
    by_cases hname : other = name
    · subst hname
      obtain ⟨rfl, hnext⟩ := hcounts.self hleaf hi hvalue
      obtain ⟨hvalues, hstands⟩ := ih hnext
      rw [List.filter_cons_of_pos (by simp), List.countP_cons_of_pos (by simp), List.map_cons,
        hvalues, countFrom_succ]
      refine ⟨rfl, ?_⟩
      have hnumber : i + ↑(calls.countP (fun call => call.1 == other) + 1) =
          i + 1 + calls.countP fun call => call.1 == other := by
        omega
      rwa [hnumber]
    · obtain ⟨hvalues, hstands⟩ := ih (hcounts.others hname hleaf hi hvalue)
      rw [List.filter_cons_of_neg (by simpa using hname),
        List.countP_cons_of_neg (by simpa using hname)]
      exact ⟨hvalues, hstands⟩

/-- A counter that a leaf does not share with any other leaf counts. -/
theorem counts_counter {g : Grammar Generator} {name : String} {leaf : LeafGenerator Generator}
    {index : Nat} (hleaf : g.leaves.find? name = some leaf)
    (hcounter : leaf.generator = .counter index)
    (hothers : ∀ other leaf, other ≠ name → g.leaves.find? other = some leaf →
      leaf.generator ≠ .counter index) :
    g.Counts name fun i (counters : Counters) => counters[index]? = some i where
  self := by
    intro leaf' i w w' value hleaf' hi hvalue
    cases hleaf.symm.trans hleaf'
    rw [hcounter] at hvalue
    obtain ⟨hindex, hnumber⟩ := List.getElem?_eq_some_iff.1 hi
    cases hvalue
    simp [List.getD_eq_getElem?_getD, hindex, hnumber]
  others := by
    intro other leaf' i w w' value hother hleaf' hi hvalue
    have hne := hothers other leaf' hother hleaf'
    cases hgenerator : leaf'.generator with
    | producer p =>
      rw [hgenerator] at hvalue
      rwa [memory_of_draw hvalue]
    | counter j =>
      rw [hgenerator] at hvalue hne
      have hj : j ≠ index := fun h => hne (h ▸ rfl)
      cases hvalue
      simpa [List.getElem?_set_ne hj] using hi
    | unit =>
      rw [hgenerator] at hvalue
      obtain ⟨x, w₁, hx, hpure⟩ := bind_eq_ok.1 hvalue
      obtain ⟨-, rfl⟩ := pure_eq_ok.1 hpure
      rwa [memory_of_draw hx]
    | bits k =>
      rw [hgenerator] at hvalue
      simp only [Produces.produce, Generator.produce] at hvalue
      split at hvalue
      · cases hvalue
      · simp only [bind_eq_ok, pure_eq_ok] at hvalue
        obtain ⟨n, w₁, hn, -, rfl⟩ := hvalue
        rwa [memory_of_draw hn]
    | failing message =>
      rw [hgenerator] at hvalue
      cases hvalue

/-- Of the leaves that share no name with a node, one is picked out by its name. -/
theorem filter_leafCalls {name : String} (hname : name ∉ g.nodes) (calls : List (String × Json)) :
    (g.leafCalls calls).filter (fun call => call.1 == name) =
      calls.filter fun call => call.1 == name := by
  rw [leafCalls, List.filter_filter]
  apply List.filter_congr
  intro call _
  by_cases h : call.1 = name
  · have hcontains : g.nodes.contains name = false := by
      rwa [← Bool.not_eq_true, Table.contains_iff]
    simp [h, hcontains]
  · simp [h]

theorem leafMarks_eq_leafCalls (ts : List Tree) :
    g.leafMarks ts = g.leafCalls (ts.map fun t => (t.kind, t.value)) := by
  rw [leafMarks, leafCalls, List.filter_map]
  rfl

/-- The positions of a leaf that counts have consecutive numbers when the tree is read family by
family: the root, and then the children of each position in the order of a walk. They start with
the number at which the counter stood, and the counter stands behind the last of them. If the root
is this leaf, then it has the first of the numbers and is all there is. More generally the values
of all leaves that share no name with a node are, read in this order, those of the calls. -/
theorem values_of_counts {name : String} {stands : Int → μ → Prop} (hcounts : g.Counts name stands)
    (hname : name ∉ g.nodes) {bound : Nat} {i : Int} {w w' : World μ} {t : Tree}
    (hi : stands i w.memory) (h : g.generate bound w = .ok t w') :
    (t.families.filter fun u => u.kind == name).map Tree.value =
        countFrom i (t.occurrences name) ∧
      stands (i + t.occurrences name) w'.memory ∧
      (t.kind = name → t = .node name (.int i) []) ∧
      ∃ calls, g.History w calls w' ∧ g.leafMarks t.families = g.leafCalls calls := by
  rw [generate_eq_grow] at h
  obtain ⟨calls, hcalls, hmarks⟩ := leafMarks_of_grow g.isDefined_start h
  -- The calls of this leaf are those of its positions.
  have hself : (t.families.map fun u => (u.kind, u.value)).filter (fun call => call.1 == name) =
      calls.filter fun call => call.1 == name := by
    rw [leafMarks_eq_leafCalls] at hmarks
    rw [← filter_leafCalls hname, hmarks, filter_leafCalls hname]
  have hnumber : calls.countP (fun call => call.1 == name) = t.occurrences name := by
    rw [← Tree.countP_families, List.countP_eq_length_filter, ← hself,
      ← List.countP_eq_length_filter, List.countP_map]
    rfl
  obtain ⟨hvalues, hstands⟩ := hcalls.counted hcounts hi
  rw [← hself, hnumber, List.filter_map, List.map_map] at hvalues
  rw [hnumber] at hstands
  refine ⟨hvalues, hstands, ?_, calls, hcalls, hmarks⟩
  intro hkind
  obtain ⟨made, -, hlegal⟩ := legal_of_grow (Nat.zero_add _) g.isDefined_start h
  generalize g.start = r at hlegal
  cases hlegal with
  | leaf _ _ =>
    subst hkind
    simpa [Tree.families, Tree.occurrences, Tree.walk_node, countFrom] using hvalues
  | expanded _ hd => exact absurd (hkind ▸ Table.mem_of_find? hd) hname

/-- A grammar whose nodes have a counted leaf on both sides of a choice, and in which another leaf
counts as well. -/
def countedLeaves : Grammar Generator where
  root := "branch"
  nodes := ⟨[
    ("branch", ⟨"branch", [.leaf "count", .choice (.node "branch") [.node "empty"], .leaf "other",
      .leaf "count"]⟩),
    ("empty", ⟨"empty", []⟩)], by decide⟩
  leaves := ⟨[("count", ⟨"count", .counter 0⟩), ("other", ⟨"other", .counter 1⟩)], by decide⟩
  checked := rfl

/-- A tree of `countedLeaves`: the second value of the root is made before the first one of the node
below. -/
def countedTree : Tree :=
  .node "branch" .null [.node "count" (.int 5) [],
    .node "branch" .null [.node "count" (.int 7) [], .node "empty" .null [],
      .node "other" (.int 1) [], .node "count" (.int 8) []],
    .node "other" (.int 0) [], .node "count" (.int 6) []]

theorem values_of_counts_countedLeaves :
    countedLeaves.Counts "count" (fun i (counters : Counters) => counters[0]? = some i) ∧
      "count" ∉ countedLeaves.nodes ∧
      countedLeaves.generate 1 ⟨.ofList [0, 0x40000000], [5, 0]⟩ =
        .ok countedTree ⟨.ofList [], [9, 2]⟩ ∧
      countedTree.occurrences "count" = 4 ∧
      (countedTree.families.filter fun u => u.kind == "count").map Tree.value = countFrom 5 4 := by
  have hbranch : countedLeaves.nodes.find? "branch" = some ⟨"branch", [.leaf "count",
      .choice (.node "branch") [.node "empty"], .leaf "other", .leaf "count"]⟩ := rfl
  have hcount : countedLeaves.leaves.find? "count" = some ⟨"count", .counter 0⟩ := rfl
  have hother : countedLeaves.leaves.find? "other" = some ⟨"other", .counter 1⟩ := rfl
  have hcounts :
      countedLeaves.Counts "count" (fun i (counters : Counters) => counters[0]? = some i) := by
    refine counts_counter hcount rfl ?_
    intro other leaf hother hleaf
    have hmem := Table.find?_eq_some_iff.1 hleaf
    simp only [countedLeaves, List.mem_cons, Prod.mk.injEq, List.not_mem_nil, or_false] at hmem
    rcases hmem with ⟨rfl, rfl⟩ | ⟨rfl, rfl⟩
    · exact absurd rfl hother
    · simp
  have hbelow : countedLeaves.grow 1 ⟨.node, "branch"⟩ ⟨.ofList [0x40000000], [7, 1]⟩ =
      .ok (.node "branch" .null [.node "count" (.int 7) [], .node "empty" .null [],
        .node "other" (.int 1) [], .node "count" (.int 8) []]) ⟨.ofList [], [9, 2]⟩ := by
    rw [grow_succ_node hbranch]
    simp only [resolveAll, resolve, produceLeaf, hcount, hother]
    cbv
  have h : countedLeaves.generate 1 ⟨.ofList [0, 0x40000000], [5, 0]⟩ =
      .ok countedTree ⟨.ofList [], [9, 2]⟩ := by
    have hslots : countedLeaves.resolveAll [.leaf "count", .choice (.node "branch") [.node "empty"],
        .leaf "other", .leaf "count"] ⟨.ofList [0, 0x40000000], [5, 0]⟩ =
        .ok [.tree (.node "count" (.int 5) []), .pending ⟨.node, "branch"⟩,
          .tree (.node "other" (.int 0) []), .tree (.node "count" (.int 6) [])]
          ⟨.ofList [0x40000000], [7, 1]⟩ := by
      simp only [resolveAll, resolve, produceLeaf, hcount, hother]
      cbv
    have hstart : countedLeaves.start = ⟨.node, "branch"⟩ := rfl
    rw [generate_eq_grow, hstart, grow_succ_node hbranch, bind_run_of_ok hslots]
    simp only [List.mapM_cons, List.mapM_nil, Filling.complete, pure_bind, bind_assoc,
      bind_run_of_ok hbelow]
    rfl
  obtain ⟨hvalues, -⟩ := values_of_counts hcounts (by decide) rfl h
  have hoccurrences : countedTree.occurrences "count" = 4 := by
    simp [countedTree, Tree.occurrences, Tree.walk_node]
  rw [hoccurrences] at hvalues
  exact ⟨hcounts, by decide, h, hoccurrences, hvalues⟩

end Grammar

end RandomDerivation
