import RandomDerivation.Grammar.Basic
import RandomDerivation.Producer
import RandomDerivation.Proofs.Slot

/-!
# What the check of a grammar guarantees

A grammar can only be built when its root and everything found in the slots of its nodes is
defined. So a derivation, which looks names up without checking them again, always finds them.
-/

namespace RandomDerivation
variable {ρ : Type}

/-- A check of all elements of a list passes exactly when each of them passes. -/
theorem forM_eq_ok {α ε : Type} {f : α → Except ε Unit} {xs : List α} :
    xs.forM f = .ok () ↔ ∀ x ∈ xs, f x = .ok () := by
  induction xs with
  | nil => simp [pure, Except.pure]
  | cons x xs ih =>
    simp only [List.forM_eq_forM, List.forM_cons] at ih ⊢
    cases hx : f x with
    | ok u => simpa [bind, Except.bind, hx] using ih
    | error e => simp [bind, Except.bind, hx]

/-- A check of all elements of a list fails with the fault of the first that does not pass. -/
theorem forM_eq_error {α ε : Type} {f : α → Except ε Unit} {xs : List α} {e : ε} :
    xs.forM f = .error e ↔
      ∃ before x after, xs = before ++ x :: after ∧ (∀ y ∈ before, f y = .ok ()) ∧
        f x = .error e := by
  induction xs with
  | nil => simp [pure, Except.pure]
  | cons x xs ih =>
    simp only [List.forM_eq_forM, List.forM_cons] at ih ⊢
    cases hx : f x with
    | error e' =>
      constructor
      · rintro ⟨⟩
        exact ⟨[], x, xs, rfl, by simp, hx⟩
      · rintro ⟨before, y, after, hsplit, hbefore, hy⟩
        cases before with
        | nil =>
          cases hsplit
          rwa [hx] at hy
        | cons z before =>
          cases hsplit
          have hz := hbefore x (by simp)
          rw [hx] at hz
          cases hz
    | ok u =>
      simp only [bind, Except.bind, ih]
      constructor
      · rintro ⟨before, y, after, rfl, hbefore, hy⟩
        refine ⟨x :: before, y, after, rfl, ?_, hy⟩
        intro z hz
        rcases List.mem_cons.1 hz with rfl | hz
        · exact hx
        · exact hbefore z hz
      · rintro ⟨before, y, after, hsplit, hbefore, hy⟩
        cases before with
        | nil =>
          cases hsplit
          rw [hx] at hy
          cases hy
        | cons z before =>
          cases hsplit
          exact ⟨before, y, after, rfl, fun z hz => hbefore z (by simp [hz]), hy⟩

theorem checkItem_eq_ok {nodes : Table NodeDefinition} {leaves : Table (LeafGenerator ρ)}
    {site : String} {item : Slot.Item} :
    checkItem nodes leaves site item = .ok () ↔
      ∃ r, item = .reference r ∧ isDefined nodes leaves r = true := by
  cases item with
  | reference r =>
    by_cases h : isDefined nodes leaves r = true <;> simp [checkItem, h]
  | foreign value => simp [checkItem]

theorem undefined_iff {root : String} {nodes : Table NodeDefinition}
    {leaves : Table (LeafGenerator ρ)} :
    (!nodes.contains root && !leaves.contains root) = true ↔
      ¬ (root ∈ nodes ∨ root ∈ leaves) := by
  rw [← Table.contains_iff, ← Table.contains_iff]
  cases nodes.contains root <;> cases leaves.contains root <;> simp

/-- The check of a root that is not defined fails at once. -/
theorem checkReferences_of_undefined {root : String} {nodes : Table NodeDefinition}
    {leaves : Table (LeafGenerator ρ)} (h : ¬ (root ∈ nodes ∨ root ∈ leaves)) :
    checkReferences root nodes leaves = .error (.grammar (.unresolved ⟨.node, root⟩ .root)) := by
  rw [checkReferences, if_pos (undefined_iff.2 h)]
  rfl

/-- The check of a root that is defined goes on to the nodes. -/
theorem checkReferences_of_defined {root : String} {nodes : Table NodeDefinition}
    {leaves : Table (LeafGenerator ρ)} (h : root ∈ nodes ∨ root ∈ leaves) :
    checkReferences root nodes leaves =
      nodes.values.forM fun d => d.items.forM (checkItem nodes leaves d.name) := by
  rw [checkReferences, if_neg fun hroot => undefined_iff.1 hroot h]

/-- Two tables pass the check of a root when the root is defined and all that is found in the
slots of the nodes is a defined reference. -/
theorem checkReferences_eq_ok {root : String} {nodes : Table NodeDefinition}
    {leaves : Table (LeafGenerator ρ)} :
    checkReferences root nodes leaves = .ok () ↔
      (root ∈ nodes ∨ root ∈ leaves) ∧
        ∀ d ∈ nodes.values, ∀ item ∈ d.items,
          ∃ r, item = .reference r ∧ isDefined nodes leaves r = true := by
  by_cases h : root ∈ nodes ∨ root ∈ leaves
  · simp only [checkReferences_of_defined h, forM_eq_ok, checkItem_eq_ok, h, true_and]
  · simp [checkReferences_of_undefined h, h]

namespace Grammar

theorem check_eq_ok {root : Option String} {nodes : Table NodeDefinition}
    {leaves : Table (LeafGenerator ρ)} {g : Grammar ρ} :
    check root nodes leaves = .ok g ↔ root = some g.root ∧ nodes = g.nodes ∧ leaves = g.leaves := by
  constructor
  · intro h
    cases root with
    | none => cases h
    | some name =>
      rw [check] at h
      split at h
      · cases h
        exact ⟨rfl, rfl, rfl⟩
      · cases h
  · rintro ⟨rfl, rfl, rfl⟩
    exact g.recheck_eq

theorem check_some_eq_error {root : String} {nodes : Table NodeDefinition}
    {leaves : Table (LeafGenerator ρ)} {f : Fault} :
    check (some root) nodes leaves = .error f ↔ checkReferences root nodes leaves = .error f := by
  rw [check]
  split
  · rename_i h
    simp [h]
  · rename_i f' h
    simp [h]

/-- The root of a grammar is defined as what the grammar takes it for. -/
theorem isDefined_start (g : Grammar ρ) : isDefined g.nodes g.leaves g.start = true := by
  obtain ⟨hroot, -⟩ := checkReferences_eq_ok.1 g.checked
  rw [← Table.contains_iff, ← Table.contains_iff] at hroot
  by_cases h : g.nodes.contains g.root = true
  · simp [start, rootKind, isDefined, h]
  · simpa [start, rootKind, isDefined, h] using hroot

/-- Whatever is found in a slot of a node is a defined reference. -/
theorem exists_reference_of_mem_items {g : Grammar ρ} {name : String} {d : NodeDefinition}
    (hd : g.nodes.find? name = some d) {s : Slot} (hs : s ∈ d.slots) {item : Slot.Item}
    (hitem : item ∈ s.items) : ∃ r, item = .reference r ∧ isDefined g.nodes g.leaves r = true :=
  (checkReferences_eq_ok.1 g.checked).2 d (Table.mem_values_of_find? hd) item
    (Slot.mem_itemsOfAll.2 ⟨s, hs, hitem⟩)

/-- The slots of the nodes of a grammar hold no foreign values, so none is met where the grounded
nodes of a grammar are looked for, and what `Slot.isGrounded` says of one does not matter. -/
theorem isNative_of_mem_values {g : Grammar ρ} {d : NodeDefinition} (hd : d ∈ g.nodes.values)
    {s : Slot} (hs : s ∈ d.slots) : s.IsNative := by
  intro item hitem
  obtain ⟨r, hr, -⟩ := (checkReferences_eq_ok.1 g.checked).2 d hd item
    (Slot.mem_itemsOfAll.2 ⟨s, hs, hitem⟩)
  exact ⟨r, hr⟩

theorem isDefined_of_mem_items {g : Grammar ρ} {name : String} {d : NodeDefinition}
    (hd : g.nodes.find? name = some d) {s : Slot} (hs : s ∈ d.slots) {r : Reference}
    (hr : .reference r ∈ s.items) : isDefined g.nodes g.leaves r = true := by
  obtain ⟨r', heq, hdefined⟩ := exists_reference_of_mem_items hd hs hr
  cases heq
  exact hdefined

/-- A grammar with a choice inside a choice, a node without slots, and a node that only leads to
itself. -/
def nested : Grammar Producer where
  root := "branch"
  nodes := ⟨[
    ("branch", ⟨"branch", [.leaf "color",
      .choice (.node "branch") [.choice (.node "empty") [.leaf "color"]]]⟩),
    ("empty", ⟨"empty", []⟩),
    ("loop", ⟨"loop", [.node "loop"]⟩)], by decide⟩
  leaves := ⟨[("color", ⟨"color", .choice (.str "green") [.str "brown"]⟩)], by decide⟩
  checked := rfl

theorem nodes_nested : nested.nodes.find? "branch" = some ⟨"branch", [.leaf "color",
    .choice (.node "branch") [.choice (.node "empty") [.leaf "color"]]]⟩ := rfl

theorem leaves_nested :
    nested.leaves.find? "color" = some ⟨"color", .choice (.str "green") [.str "brown"]⟩ := rfl

end Grammar

end RandomDerivation
