import RandomDerivation.Tree.Outline
import RandomDerivation.Proofs.Json.Literal
import RandomDerivation.Proofs.Tree.Rows

/-!
# What an outline tells

An outline has a line for each position, and a line tells the row of its position: the blanks in
front of the kind tell the depth, the next blank ends the kind, and what stands behind the equals
sign tells the value, which is null when there is none. So the outline tells all rows of the tree
and with them the tree. Kinds have no blanks of their own, and values stay on their line whatever
is in their strings.
-/

namespace RandomDerivation.Tree

/-- What a line shows of a value. -/
def valueText : Json → List Char
  | .null => []
  | v => [' ', '=', ' '] ++ v.literalChars

/-- The line of a row: two blanks for each level, the kind, and the value unless it is null. -/
def lineOf (row : Row) : List Char :=
  List.replicate (2 * row.depth) ' ' ++ (row.kind.toList ++ valueText row.value)

theorem toList_label (t : Tree) : t.label.toList = t.kind.toList ++ valueText t.value := by
  obtain ⟨kind, value, children⟩ := t
  cases value <;> simp [label, valueText, Json.literal]

/-- The lines of a tree are those of its rows. -/
theorem map_toList_lines (t : Tree) : (t.lines "  ").map String.toList = t.rows.map lineOf := by
  have hindent (depth : Nat) : (String.join (List.replicate depth "  ")).toList =
      List.replicate (2 * depth) ' ' := by
    induction depth with
    | zero => rfl
    | succ depth ih =>
      have hlevel : "  ".toList = List.replicate 2 ' ' := rfl
      rw [List.replicate_succ, String.join_cons, String.toList_append, ih, hlevel,
        List.replicate_append_replicate, Nat.mul_succ, Nat.add_comm]
  rw [lines, rows, List.map_map, List.map_map]
  refine List.map_congr_left fun p _ => ?_
  simp only [Function.comp_def, String.toList_append, hindent, toList_label]
  rfl

/-- The kind of a row is a word, without blanks and line ends, and its value has no doubles and no
numbers that are too long. -/
structure Row.IsPlain (row : Row) : Prop where
  nonempty : row.kind ≠ ""
  blank : ' ' ∉ row.kind.toList
  newline : '\n' ∉ row.kind.toList
  isFloatFree : row.value.isFloatFree = true
  isWritable : row.value.isWritable = true

/-- Blanks end where something else stands. -/
theorem replicate_append_inj {n m : Nat} {s t : List Char} (hs : s.head? ≠ some ' ')
    (ht : t.head? ≠ some ' ')
    (h : List.replicate n ' ' ++ s = List.replicate m ' ' ++ t) : n = m ∧ s = t := by
  induction n generalizing m with
  | zero =>
    cases m with
    | zero => exact ⟨rfl, h⟩
    | succ m => exact absurd (congrArg List.head? h) hs
  | succ n ih =>
    cases m with
    | zero => exact absurd (congrArg List.head? h).symm ht
    | succ m =>
      obtain ⟨rfl, rfl⟩ := ih (List.cons.inj h).2
      exact ⟨rfl, rfl⟩

theorem valueText_eq (v : Json) : v = .null ∧ valueText v = [] ∨
    v ≠ .null ∧ valueText v = ' ' :: '=' :: ' ' :: v.literalChars := by
  cases v <;> simp [valueText]

theorem takeWhile_append_valueText {kind : List Char} (h : ' ' ∉ kind) (v : Json) :
    (kind ++ valueText v).takeWhile (· ≠ ' ') = kind := by
  have hkind : ∀ c ∈ kind, decide (c ≠ ' ') = true := by
    intro c hc
    simpa using ne_of_mem_of_not_mem hc h
  rw [List.takeWhile_append_of_pos hkind]
  obtain ⟨-, hv⟩ | ⟨-, hv⟩ := valueText_eq v <;> simp [hv]

/-- What a line shows of a value tells the value. -/
theorem valueText_inj {v w : Json} (hv : v.isFloatFree = true) (hw : w.isFloatFree = true)
    (h : valueText v = valueText w) : v = w := by
  obtain ⟨hvnull, hvtext⟩ | ⟨hvnull, hvtext⟩ := valueText_eq v <;>
    obtain ⟨hwnull, hwtext⟩ | ⟨hwnull, hwtext⟩ := valueText_eq w <;> rw [hvtext, hwtext] at h
  · rw [hvnull, hwnull]
  · cases h
  · cases h
  · have hends : Json.EndsNumber [] := fun c hc => nomatch hc
    have hliteral : v.literalChars ++ [] = w.literalChars ++ [] := by
      simpa only [List.append_nil, List.cons.injEq, true_and] using h
    exact (Json.tells v w [] [] hv hw hends hends hliteral).1

theorem Row.IsPlain.head?_ne {row : Row} (h : row.IsPlain) :
    (row.kind.toList ++ valueText row.value).head? ≠ some ' ' := by
  cases hkind : row.kind.toList with
  | nil => exact absurd (String.toList_eq_nil_iff.1 hkind) h.nonempty
  | cons c kind =>
    intro hc
    obtain rfl : c = ' ' := Option.some.inj hc
    exact h.blank (by simp [hkind])

/-- A line tells its row. -/
theorem lineOf_inj {r s : Row} (hr : r.IsPlain) (hs : s.IsPlain) (h : lineOf r = lineOf s) :
    r = s := by
  obtain ⟨hdepth, hlabel⟩ := replicate_append_inj hr.head?_ne hs.head?_ne h
  have hkind : r.kind.toList = s.kind.toList := by
    rw [← takeWhile_append_valueText hr.blank r.value, hlabel,
      takeWhile_append_valueText hs.blank]
  have hvalue : r.value = s.value := by
    rw [hkind, List.append_cancel_left_eq] at hlabel
    exact valueText_inj hr.isFloatFree hs.isFloatFree hlabel
  exact Row.ext (by omega) (String.toList_inj.1 hkind) hvalue

/-- Lines tell their rows. -/
theorem map_lineOf_inj {rs ss : List Row} (hr : ∀ r ∈ rs, r.IsPlain) (hs : ∀ s ∈ ss, s.IsPlain)
    (h : rs.map lineOf = ss.map lineOf) : rs = ss := by
  induction rs generalizing ss with
  | nil => exact (List.map_eq_nil_iff.1 h.symm).symm
  | cons r rs ih =>
    cases ss with
    | nil => cases h
    | cons s ss =>
      obtain ⟨hline, hlines⟩ := List.cons.inj h
      rw [lineOf_inj (hr r (by simp)) (hs s (by simp)) hline,
        ih (fun r hr' => hr r (by simp [hr'])) (fun s hs' => hs s (by simp [hs'])) hlines]

/-- No line goes on to the next one. -/
theorem newline_not_mem_lineOf {row : Row} (h : row.IsPlain) : '\n' ∉ lineOf row := by
  have hvalue : '\n' ∉ valueText row.value := by
    obtain ⟨-, htext⟩ | ⟨-, htext⟩ := valueText_eq row.value
    · simp [htext]
    · simpa [htext] using (Json.isLine_literalChars h.isFloatFree).newline_not_mem
  simp only [lineOf, List.mem_append, List.mem_replicate]
  rintro (⟨-, hblank⟩ | hkind | htext)
  · cases hblank
  · exact h.newline hkind
  · exact hvalue htext

/-- All rows of the tree are plain. -/
def IsPlain (t : Tree) : Prop := ∀ row ∈ t.rows, row.IsPlain

variable {t u : Tree}

theorem IsPlain.outlineChecked_eq (h : t.IsPlain) : t.outlineChecked = .ok t.outline := by
  have hwritable : t.isWritable = true :=
    List.all_eq_true.2 fun p hp => (h _ (List.mem_map_of_mem hp)).isWritable
  rw [outlineChecked, if_pos hwritable]

/-- The lines of an outline are the lines of the tree. -/
theorem IsPlain.split_outline (h : t.IsPlain) :
    (t.outline.split '\n').toList.map (fun line => line.copy.toList) = t.rows.map lineOf := by
  have hnewline : ∀ line ∈ t.lines "  ", '\n' ∉ line.toList := by
    intro line hline
    have hmem : line.toList ∈ t.rows.map lineOf := by
      rw [← map_toList_lines]
      exact List.mem_map_of_mem hline
    obtain ⟨row, hrow, heq⟩ := List.mem_map.1 hmem
    rw [← heq]
    exact newline_not_mem_lineOf (h row hrow)
  have hne : t.lines "  " ≠ [] := by
    obtain ⟨kind, value, children⟩ := t
    simp [lines, walk_node]
  have hsplit := String.toList_split_intercalate hnewline
  rw [if_neg hne] at hsplit
  rw [← map_toList_lines, ← hsplit, List.map_map]
  rfl

/-- The outline of a tree has a line for each position. Trees with the same outline are equal:
indentation, kinds and values tell their shape. -/
theorem outline_tells (ht : t.IsPlain) (hu : u.IsPlain) :
    (∃ text, t.outlineChecked = .ok text ∧ (text.split '\n').toList.length = t.size) ∧
      (t.outlineChecked = u.outlineChecked → t = u) := by
  constructor
  · refine ⟨t.outline, ht.outlineChecked_eq, ?_⟩
    have hlength := congrArg List.length ht.split_outline
    simpa [rows, size] using hlength
  · intro h
    rw [ht.outlineChecked_eq, hu.outlineChecked_eq] at h
    have hlines : t.rows.map lineOf = u.rows.map lineOf := by
      rw [← ht.split_outline, ← hu.split_outline, Except.ok.inj h]
    exact rows_injective (map_lineOf_inj ht hu hlines)

/-- A position whose value holds a line end and what looks like the line of another position. -/
def lineBreakTree : Tree := .node "note" (.str "x\n  word = 'y'") []

/-- Two positions with the values that the other tree only spells. -/
def twoLineTree : Tree := .node "note" (.str "x") [.node "word" (.str "y") []]

theorem outline_tells_lineBreak :
    lineBreakTree.IsPlain ∧ twoLineTree.IsPlain ∧
      (∃ text, lineBreakTree.outlineChecked = .ok text ∧
        (text.split '\n').toList.length = lineBreakTree.size) ∧
      (lineBreakTree.outlineChecked = twoLineTree.outlineChecked →
        lineBreakTree = twoLineTree) := by
  have hlineBreak : lineBreakTree.IsPlain := by
    intro row hrow
    obtain rfl : row = ⟨0, "note", .str "x\n  word = 'y'"⟩ := by
      simpa [lineBreakTree, rows, walk_node, rowOf] using hrow
    exact ⟨by decide, by decide, by decide, rfl, rfl⟩
  have htwoLine : twoLineTree.IsPlain := by
    intro row hrow
    obtain rfl | rfl : row = ⟨0, "note", .str "x"⟩ ∨ row = ⟨1, "word", .str "y"⟩ := by
      simpa [twoLineTree, rows, walk_node, rowOf] using hrow
    · exact ⟨by decide, by decide, by decide, rfl, rfl⟩
    · exact ⟨by decide, by decide, by decide, rfl, rfl⟩
  exact ⟨hlineBreak, htwoLine, outline_tells hlineBreak htwoLine⟩

end RandomDerivation.Tree
