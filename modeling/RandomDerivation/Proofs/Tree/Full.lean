import Mathlib.Algebra.Order.BigOperators.Group.List
import Mathlib.Algebra.Ring.GeomSum
import RandomDerivation.Proofs.Tree.Rows

/-!
# Sizes of trees with few children

A tree in which no position has more than `b` children has at most `b ^ i` positions at depth `i`,
so that its size is bounded by a geometric sum. A full tree reaches this bound: every position has
`b` children down to some depth, and all positions at that depth are childless.
-/

namespace RandomDerivation.Tree

/-- Up to `b` trees, each of which is no larger than `bound`. -/
theorem sum_size_le {b bound : Nat} {ts : List Tree} (hlength : ts.length ≤ b)
    (h : ∀ t ∈ ts, t.size ≤ bound) : (ts.map size).sum ≤ b * bound := by
  have hsum : (ts.map size).sum ≤ (ts.map size).length * bound := by
    apply List.sum_le_card_nsmul
    simpa using h
  rw [List.length_map] at hsum
  exact hsum.trans (Nat.mul_le_mul_right bound hlength)

/-- A tree of height `n` whose positions have at most `b` children each. -/
theorem size_le_of_height_le {b n : Nat} {t : Tree}
    (hwidth : ∀ p ∈ t.walk, p.2.children.length ≤ b) (hheight : t.height ≤ n) :
    t.size ≤ ∑ i ∈ Finset.range (n + 1), b ^ i := by
  induction n generalizing t with
  | zero =>
    obtain ⟨kind, value, children⟩ := t
    have hchildren : children = [] := by
      apply List.eq_nil_iff_forall_not_mem.2
      intro c hc
      have := height_node_le_iff.1 hheight c hc
      omega
    simp [hchildren, size_node]
  | succ n ih =>
    obtain ⟨kind, value, children⟩ := t
    have hroot : children.length ≤ b := hwidth _ (root_mem_walk _)
    have hchildren : ∀ c ∈ children, c.size ≤ ∑ i ∈ Finset.range (n + 1), b ^ i := by
      intro c hc
      apply ih
      · intro p hp
        exact hwidth (p.1 + 1, p.2) (mem_walk_node.2 (.inr ⟨c, hc, p, hp, rfl⟩))
      · have := height_node_le_iff.1 hheight c hc
        omega
    rw [size_node, geom_sum_succ, Nat.add_comm]
    exact Nat.add_le_add_right (sum_size_le hroot hchildren) 1

/-- Every position above the given depth has `b` children, and every position at this depth has
none. -/
def IsFull (b : Nat) : (depth : Nat) → Tree → Prop
  | 0, t => t.children = []
  | depth + 1, t => t.children.length = b ∧ ∀ c ∈ t.children, IsFull b depth c

namespace IsFull
variable {b n : Nat} {t : Tree}

/-- What is counted in each of the children is counted `b` times. -/
theorem sum_children {b m : Nat} {ts : List Tree} {count : Tree → Nat} (hlength : ts.length = b)
    (h : ∀ t ∈ ts, count t = m) : (ts.map count).sum = b * m := by
  rw [List.map_congr_left h, List.map_const', List.sum_replicate_nat, hlength]

theorem size_eq (h : t.IsFull b n) : t.size = ∑ i ∈ Finset.range (n + 1), b ^ i := by
  induction n generalizing t with
  | zero =>
    obtain ⟨kind, value, children⟩ := t
    obtain rfl : children = [] := h
    simp [size_node]
  | succ n ih =>
    obtain ⟨kind, value, children⟩ := t
    obtain ⟨hlength, hchildren⟩ := h
    have hsum := sum_children hlength fun c hc => ih (hchildren c hc)
    rw [size_node, geom_sum_succ, Nat.add_comm, ← hsum]
    rfl

theorem countP_isLeaf (hb : 0 < b) (h : t.IsFull b n) :
    t.walk.countP (fun p => p.2.isLeaf) = b ^ n := by
  induction n generalizing t with
  | zero =>
    obtain ⟨kind, value, children⟩ := t
    obtain rfl : children = [] := h
    simp [walk_node, isLeaf]
  | succ n ih =>
    obtain ⟨kind, value, children⟩ := t
    obtain ⟨hlength, hchildren⟩ := h
    have hroot : (node kind value children).isLeaf = false := by
      rw [isLeaf, List.isEmpty_eq_false_iff]
      rintro rfl
      simp at hlength
      omega
    have hsum := sum_children hlength fun c hc => ih (hchildren c hc)
    rw [walk_node, List.countP_cons_of_neg (by simp [hroot]), List.countP_flatMap, Nat.pow_succ,
      Nat.mul_comm, ← hsum]
    simp only [Function.comp_def, List.countP_map]
    rfl

theorem height_eq (hb : 0 < b) (h : t.IsFull b n) : t.height = n := by
  induction n generalizing t with
  | zero =>
    obtain ⟨kind, value, children⟩ := t
    obtain rfl : children = [] := h
    simp [height_node]
  | succ n ih =>
    obtain ⟨kind, value, children⟩ := t
    obtain ⟨hlength, hchildren⟩ := h
    have hheight : ∀ c ∈ children, c.height = n := fun c hc => ih (hchildren c hc)
    have hmap : children.map height = List.replicate b n := by
      rw [List.map_congr_left hheight, List.map_const', ← hlength, children_node]
    rw [height_node, hmap, List.max?_replicate_of_pos hb, Option.elim_some, Nat.add_comm]

end IsFull

end RandomDerivation.Tree
