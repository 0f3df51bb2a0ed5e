import Mathlib.Algebra.Ring.Nat
import Mathlib.Data.List.Chain
import Mathlib.Data.List.TakeWhile
import Mathlib.Order.Basic
import RandomDerivation.Proofs.Tree.Walk

/-!
# Trees from the rows of their walks

A row is what a walk shows of a position: its depth, its kind and its value. The rows determine
the tree. Read from the last to the first, they build up the trees that start behind a position,
each with its depth; the children of a position are the trees right behind it that start deeper
than it does. On the stack of a walk the depths never increase towards the bottom, and they
never increase from one tree to the next in what the rows build either.
-/

namespace RandomDerivation.Tree

/-- What a walk shows of a position. -/
@[ext] structure Row where
  depth : Nat
  kind : String
  value : Json

/-- The row of a position at the given depth. -/
def rowOf (p : Nat × Tree) : Row := ⟨p.1, p.2.kind, p.2.value⟩

/-- The rows of the trees on a stack. -/
def rowsOf (stack : List (Nat × Tree)) : List Row := (walkFrom stack).map rowOf

/-- The rows of a tree, in the order of a walk. -/
def rows (t : Tree) : List Row := t.walk.map rowOf

@[simp] theorem rowsOf_nil : rowsOf [] = [] := by simp [rowsOf, walkFrom]

theorem rowsOf_cons (depth : Nat) (t : Tree) (stack : List (Nat × Tree)) :
    rowsOf ((depth, t) :: stack) =
      ⟨depth, t.kind, t.value⟩ :: rowsOf (t.children.map (fun c => (depth + 1, c)) ++ stack) := by
  rw [rowsOf, walkFrom, List.map_cons]
  rfl

theorem rowsOf_root (t : Tree) : rowsOf [(0, t)] = t.rows := rfl

/-- No tree on the stack starts deeper than one above it. -/
def Descends (stack : List (Nat × Tree)) : Prop := stack.Pairwise fun p q => q.1 ≤ p.1

theorem descends_root (t : Tree) : Descends [(0, t)] := List.pairwise_singleton _ _

/-- One step of a walk: the children take the place of their parent. -/
theorem Descends.push {depth : Nat} {t : Tree} {stack : List (Nat × Tree)}
    (h : Descends ((depth, t) :: stack)) :
    Descends (t.children.map (fun c => (depth + 1, c)) ++ stack) := by
  obtain ⟨hhead, htail⟩ := List.pairwise_cons.1 h
  refine List.pairwise_append.2 ⟨?_, htail, ?_⟩
  · exact List.pairwise_map.2 (List.pairwise_of_forall fun _ _ => Nat.le_refl _)
  · intro p hp q hq
    obtain ⟨c, -, rfl⟩ := List.mem_map.1 hp
    exact Nat.le_succ_of_le (hhead q hq)

/-- In the rows of a stack no depth exceeds the one in front of it by more than one. -/
theorem isChain_rowsOf {stack : List (Nat × Tree)} (h : Descends stack) :
    (rowsOf stack).IsChain fun r s => s.depth ≤ r.depth + 1 := by
  induction stack using walkFrom.induct with
  | case1 => simp
  | case2 depth t stack ih =>
    rw [rowsOf_cons]
    refine List.isChain_cons.2 ⟨?_, ih h.push⟩
    obtain ⟨kind, value, _ | ⟨c, cs⟩⟩ := t
    · obtain _ | ⟨⟨below, u⟩, stack⟩ := stack
      · simp
      · have hbelow : below ≤ depth := (List.pairwise_cons.1 h).1 _ List.mem_cons_self
        simpa [rowsOf_cons] using Nat.le_succ_of_le hbelow
    · simp [rowsOf_cons]

theorem mem_walkFrom_of_mem {stack : List (Nat × Tree)} {p : Nat × Tree} (h : p ∈ stack) :
    p ∈ walkFrom stack := by
  obtain ⟨upper, lower, rfl⟩ := List.append_of_mem h
  rw [walkFrom_append, walkFrom]
  simp

/-! ## Building up -/

/-- A row in front of trees that are built up: those right behind it that start deeper become
its children. -/
def attach (row : Row) (behind : List (Nat × Tree)) : List (Nat × Tree) :=
  (row.depth, .node row.kind row.value
      ((behind.takeWhile fun p => row.depth < p.1).map Prod.snd)) ::
    behind.dropWhile fun p => row.depth < p.1

/-- The trees that rows build up, each with the depth at which it starts. -/
def regrow (rows : List Row) : List (Nat × Tree) := rows.foldr attach []

@[simp] theorem regrow_nil : regrow [] = [] := rfl

@[simp] theorem regrow_cons (row : Row) (rows : List Row) :
    regrow (row :: rows) = attach row (regrow rows) := rfl

/-- A position finds its own children again. -/
theorem attach_children {depth : Nat} {t : Tree} {stack : List (Nat × Tree)}
    (h : Descends ((depth, t) :: stack)) :
    attach ⟨depth, t.kind, t.value⟩ (t.children.map (fun c => (depth + 1, c)) ++ stack) =
      (depth, t) :: stack := by
  have hall : ∀ p ∈ t.children.map fun c => (depth + 1, c), decide (depth < p.1) = true := by
    intro p hp
    obtain ⟨c, -, rfl⟩ := List.mem_map.1 hp
    simp
  have htake : stack.takeWhile (fun p => depth < p.1) = [] := by
    rw [List.takeWhile_eq_nil_iff]
    intro hlt
    simpa using (List.pairwise_cons.1 h).1 _ (List.getElem_mem hlt)
  have hdrop : stack.dropWhile (fun p => depth < p.1) = stack := by
    have hsplit := List.takeWhile_append_dropWhile (p := fun p => decide (depth < p.1)) (l := stack)
    rwa [htake, List.nil_append] at hsplit
  obtain ⟨kind, value, children⟩ := t
  simp only [children_node] at hall
  simp only [attach, children_node, kind_node, value_node, List.takeWhile_append_of_pos hall,
    List.dropWhile_append_of_pos hall, htake, hdrop, List.append_nil, List.map_map,
    Function.comp_def, List.map_id']

/-- The rows of a stack build it up again. -/
theorem regrow_rowsOf {stack : List (Nat × Tree)} (h : Descends stack) :
    regrow (rowsOf stack) = stack := by
  induction stack using walkFrom.induct with
  | case1 => simp
  | case2 depth t stack ih => rw [rowsOf_cons, regrow_cons, ih h.push, attach_children h]

/-- What starts no deeper than a row stays behind it. -/
theorem Descends.le_of_mem_dropWhile {depth : Nat} {stack : List (Nat × Tree)}
    (h : Descends stack) : ∀ p ∈ stack.dropWhile (fun p => depth < p.1), p.1 ≤ depth := by
  induction stack with
  | nil => simp
  | cons q stack ih =>
    obtain ⟨hhead, htail⟩ := List.pairwise_cons.1 h
    by_cases hq : depth < q.1
    · rw [List.dropWhile_cons_of_pos (by simpa using hq)]
      exact ih htail
    · rw [List.dropWhile_cons_of_neg (by simpa using hq)]
      have hle : q.1 ≤ depth := Nat.le_of_not_lt hq
      exact List.forall_mem_cons.2 ⟨hle, fun p hp => (hhead p hp).trans hle⟩

/-- The depths at which the trees that rows build up start never increase. -/
theorem descends_regrow (rows : List Row) : Descends (regrow rows) := by
  induction rows with
  | nil => exact List.Pairwise.nil
  | cons row rows ih =>
    exact List.pairwise_cons.2
      ⟨ih.le_of_mem_dropWhile, ih.sublist (List.dropWhile_sublist _)⟩

/-- The trees that become children of a row start one level below it, if the next row does not
exceed it by more than one. -/
theorem takeWhile_regrow {row : Row} {rows : List Row}
    (hnext : ∀ s ∈ rows.head?, s.depth ≤ row.depth + 1) :
    (((regrow rows).takeWhile fun p => row.depth < p.1).map Prod.snd).map
        (fun c => (row.depth + 1, c)) = (regrow rows).takeWhile fun p => row.depth < p.1 := by
  have hstart : ∀ p ∈ (regrow rows).takeWhile (fun p => row.depth < p.1),
      row.depth + 1 = p.1 := by
    intro p hp
    have hdeeper : row.depth < p.1 := by simpa using List.mem_takeWhile_imp hp
    have hmem : p ∈ regrow rows := (List.takeWhile_sublist _).subset hp
    obtain _ | ⟨s, rows⟩ := rows
    · simp at hmem
    · have hfirst : p.1 ≤ s.depth := by
        obtain rfl | hlater := List.mem_cons.1 hmem
        · exact Nat.le_refl _
        · exact (List.pairwise_cons.1 (descends_regrow (s :: rows))).1 p hlater
      have hs : s.depth ≤ row.depth + 1 := hnext s rfl
      omega
  have hsame : ∀ p ∈ (regrow rows).takeWhile (fun p => row.depth < p.1),
      (row.depth + 1, p.2) = p := fun p hp => Prod.ext (hstart p hp) rfl
  rw [List.map_map]
  exact (List.map_congr_left hsame).trans (List.map_id _)

/-- What rows build up has these rows, if no depth exceeds the one in front of it by more than
one. -/
theorem rowsOf_regrow {rows : List Row} (h : rows.IsChain fun r s => s.depth ≤ r.depth + 1) :
    rowsOf (regrow rows) = rows := by
  induction rows with
  | nil => simp
  | cons row rows ih =>
    obtain ⟨hnext, hrest⟩ := List.isChain_cons.1 h
    rw [regrow_cons, attach, rowsOf_cons, children_node, takeWhile_regrow hnext,
      List.takeWhile_append_dropWhile, ih hrest]
    rfl

/-- The depths that the rows of a tree have: the first is zero, all others are positive, and none
exceeds the one in front of it by more than one. -/
structure IsPreorder (rows : List Row) : Prop where
  root : rows.head?.map Row.depth = some 0
  below : ∀ row ∈ rows.tail, 1 ≤ row.depth
  steps : rows.IsChain fun r s => s.depth ≤ r.depth + 1

theorem rows_injective {t u : Tree} (h : t.rows = u.rows) : t = u := by
  have hregrow : [(0, t)] = [(0, u)] := by
    rw [← regrow_rowsOf (descends_root t), ← regrow_rowsOf (descends_root u), rowsOf_root,
      rowsOf_root, h]
  simpa using hregrow

theorem isPreorder_rows (t : Tree) : IsPreorder t.rows where
  root := by
    obtain ⟨kind, value, children⟩ := t
    simp [rows, walk_node, rowOf]
  below := by
    obtain ⟨kind, value, children⟩ := t
    intro row hrow
    rw [rows, walk_node, List.map_cons, List.tail_cons] at hrow
    obtain ⟨p, hp, rfl⟩ := List.mem_map.1 hrow
    obtain ⟨c, -, hc⟩ := List.mem_flatMap.1 hp
    obtain ⟨q, -, rfl⟩ := List.mem_map.1 hc
    exact Nat.succ_pos q.1
  steps := isChain_rowsOf (descends_root t)

/-- All rows behind the first are below it: they build up one tree. -/
theorem IsPreorder.exists_tree {rows : List Row} (h : IsPreorder rows) :
    ∃ t : Tree, t.rows = rows := by
  obtain _ | ⟨row, rest⟩ := rows
  · simpa using h.root
  · have hroot : row.depth = 0 := by simpa using h.root
    have hrest : rowsOf (regrow rest) = rest := rowsOf_regrow (List.isChain_cons.1 h.steps).2
    have hbelow : ∀ p ∈ regrow rest, decide (row.depth < p.1) = true := by
      intro p hp
      have hrow : rowOf p ∈ rest := by
        rw [← hrest]
        exact List.mem_map_of_mem (mem_walkFrom_of_mem hp)
      have hdepth : 0 < p.1 := h.below _ hrow
      simpa [hroot] using hdepth
    have hone : regrow (row :: rest) =
        [(0, node row.kind row.value ((regrow rest).map Prod.snd))] := by
      rw [regrow_cons, attach, List.takeWhile_eq_self_iff.2 hbelow,
        List.dropWhile_eq_nil_iff.2 hbelow, hroot]
    exact ⟨_, by rw [← rowsOf_root, ← hone, rowsOf_regrow h.steps]⟩

theorem size_node (kind : String) (value : Json) (children : List Tree) :
    (node kind value children).size = 1 + (children.map size).sum := by
  rw [size, walk_node, List.length_cons, List.length_flatMap, Nat.add_comm]
  simp only [List.length_map]
  rfl

theorem height_node_le_iff {kind : String} {value : Json} {children : List Tree} {n : Nat} :
    (node kind value children).height ≤ n ↔ ∀ c ∈ children, 1 + c.height ≤ n := by
  rw [height_le_iff, walk_node, List.forall_mem_cons]
  constructor
  · rintro ⟨-, hbelow⟩ c hc
    have hle : ∀ q ∈ c.walk, q.1 + 1 ≤ n := fun q hq =>
      hbelow _ (List.mem_flatMap.2 ⟨c, hc, List.mem_map_of_mem hq⟩)
    have hpos : 1 ≤ n := hle _ (root_mem_walk c)
    have hheight : c.height ≤ n - 1 := height_le_iff.2 fun q hq => Nat.le_sub_one_of_lt (hle q hq)
    omega
  · intro hle
    refine ⟨Nat.zero_le n, fun p hp => ?_⟩
    obtain ⟨c, hc, hpc⟩ := List.mem_flatMap.1 hp
    obtain ⟨q, hq, rfl⟩ := List.mem_map.1 hpc
    have hdepth : q.1 ≤ c.height := height_le_iff.1 (Nat.le_refl _) q hq
    have hchild : 1 + c.height ≤ n := hle c hc
    show q.1 + 1 ≤ n
    omega

theorem height_node (kind : String) (value : Json) (children : List Tree) :
    (node kind value children).height = (children.map height).max?.elim 0 (1 + ·) := by
  refine eq_of_forall_ge_iff fun n => ?_
  rw [height_node_le_iff]
  cases hmax : (children.map height).max? with
  | none =>
    have hnone : children = [] := by simpa [List.max?_eq_none_iff] using hmax
    simp [hnone]
  | some deepest =>
    obtain ⟨hmem, hle⟩ := List.max?_eq_some_iff.1 hmax
    obtain ⟨c, hc, rfl⟩ := List.mem_map.1 hmem
    refine ⟨fun h => h c hc, fun h d hd => ?_⟩
    exact (Nat.add_le_add_left (hle _ (List.mem_map_of_mem hd)) 1).trans h

/-- A walk goes over the root and then, one level deeper, over the children from left to right;
sizes and heights come from those of the children. Trees with the same rows are equal, and rows
are those of a tree exactly when their depths are as in a walk. -/
theorem walk_lossless :
    (∀ t : Tree, t.walk =
        (0, t) :: t.children.flatMap fun c => c.walk.map fun p => (p.1 + 1, p.2)) ∧
      (∀ t : Tree, t.size = 1 + (t.children.map size).sum) ∧
      (∀ t : Tree, t.height = (t.children.map height).max?.elim 0 (1 + ·)) ∧
      (∀ t u : Tree, t.rows = u.rows → t = u) ∧
      ∀ rows : List Row, (∃ t : Tree, t.rows = rows) ↔ IsPreorder rows := by
  refine ⟨?_, ?_, ?_, fun t u => rows_injective, fun rows => ⟨?_, IsPreorder.exists_tree⟩⟩
  · rintro ⟨kind, value, children⟩
    exact walk_node kind value children
  · rintro ⟨kind, value, children⟩
    exact size_node kind value children
  · rintro ⟨kind, value, children⟩
    exact height_node kind value children
  · rintro ⟨t, rfl⟩
    exact isPreorder_rows t

end RandomDerivation.Tree
