import Mathlib.Data.List.Nodup
import Mathlib.Data.List.Zip
import RandomDerivation.Tree.Document

/-!
# Documents and their trees

While the objects of a tree are made, every object stands for a tree: one that waits on the stack
for the tree that waits with it, and any other one for the tree of its own kind and value over
what the objects of its children stand for. Making the objects of the children of the topmost
tree changes nothing about it. In the end nothing waits, and what an object stands for is what
is read off the store.
-/

namespace RandomDerivation.Tree

/-- What holds of a tree when it holds of its children holds of every tree. -/
theorem induction {P : Tree → Prop}
    (node : ∀ kind value children, (∀ t ∈ children, P t) → P (.node kind value children)) :
    ∀ t, P t
  | .node kind value children => node kind value children fun t _ => induction node t

/-- The document of a tree, from those of its children. -/
def describe : Tree → Json
  | .node kind value children => document kind value (children.map describe)

theorem Store.getElem?_adopt (s : Store) (parent : Nat) (child : Tree) (i : Nat) :
    (s.adopt parent child).entries[i]? =
      if i = s.entries.size then some (Entry.blank child)
      else if parent = i then s.entries[i]?.map (·.append s.entries.size) else s.entries[i]? := by
  simp only [adopt, Array.getElem?_push, Array.size_modify, Array.getElem?_modify]

namespace Draft

section
variable {d : Draft} {place : Nat} (ts : List Tree)

/-- All other objects are as before. -/
theorem getElem?_foldl_attach_of_ne {i : Nat} (h : i < d.store.entries.size) (hne : place ≠ i) :
    (ts.foldl (attach place) d).store.entries[i]? = d.store.entries[i]? := by
  induction ts generalizing d with
  | nil => rfl
  | cons t ts ih =>
    have hlt : i < (d.attach place t).store.entries.size := by
      rw [size_attach]
      omega
    rw [List.foldl_cons, ih hlt, attach, Store.getElem?_adopt, if_neg (Nat.ne_of_lt h),
      if_neg hne]

/-- The object of the parent gets all children in order. -/
theorem getElem?_foldl_attach {e : Entry} (h : d.store.entries[place]? = some e) :
    (ts.foldl (attach place) d).store.entries[place]? =
      some { e with children := e.children ++ List.range' d.store.entries.size ts.length } := by
  induction ts generalizing d e with
  | nil => simp [h]
  | cons t ts ih =>
    have hlt : place < d.store.entries.size := (Array.getElem?_eq_some_iff.1 h).1
    have hattach : (d.attach place t).store.entries[place]? =
        some (e.append d.store.entries.size) := by
      rw [attach, Store.getElem?_adopt, if_neg (Nat.ne_of_lt hlt), if_pos rfl, h]
      rfl
    rw [List.foldl_cons, ih hattach, size_attach]
    simp [Entry.append, List.range'_succ]

/-- The object of every child is blank. -/
theorem getElem?_foldl_attach_child (h : place < d.store.entries.size) :
    ∀ p ∈ ts.zipIdx d.store.entries.size,
      (ts.foldl (attach place) d).store.entries[p.2]? = some (Entry.blank p.1) := by
  induction ts generalizing d with
  | nil => simp
  | cons t ts ih =>
    have hsize := size_attach d place t
    have hplace : place < (d.attach place t).store.entries.size := by omega
    intro p hp
    rw [List.foldl_cons]
    rw [List.zipIdx_cons, List.mem_cons, ← hsize] at hp
    obtain rfl | hp := hp
    · have hnew : d.store.entries.size < (d.attach place t).store.entries.size := by omega
      rw [getElem?_foldl_attach_of_ne ts hnew (Nat.ne_of_lt h), attach, Store.getElem?_adopt,
        if_pos rfl]
    · exact ih hplace p hp

end

/-- What holds of the stack all along: every object waits once at most, and it is blank while it
waits. -/
structure Sound (d : Draft) : Prop where
  distinct : (d.pending.map Prod.snd).Nodup
  blank : ∀ p ∈ d.pending, d.store.entries[p.2]? = some (Entry.blank p.1)

/-- The object at a place stands for a tree. -/
inductive Depicts (d : Draft) : Nat → Tree → Prop where
  /-- The object waits with the tree. -/
  | pending {t : Tree} {place : Nat} : (t, place) ∈ d.pending → Depicts d place t
  /-- The objects of all children have been made. -/
  | filled {place : Nat} {e : Entry} {children : List Tree} :
    d.store.entries[place]? = some e → (∀ p ∈ d.pending, p.2 ≠ place) →
      e.children.length = children.length →
      (∀ p ∈ e.children.zip children, Depicts d p.1 p.2) →
      Depicts d place (.node e.kind e.value children)

variable {s : Store} {t : Tree} {place : Nat} {pending : List (Tree × Nat)}

theorem Sound.lt_size {d : Draft} (h : d.Sound) {p : Tree × Nat} (hp : p ∈ d.pending) :
    p.2 < d.store.entries.size :=
  (Array.getElem?_eq_some_iff.1 (h.blank p hp)).1

theorem sound_start (t : Tree) : Sound ⟨.start t, [(t, 0)]⟩ where
  distinct := List.nodup_singleton 0
  blank := by simp [Store.start]

/-- What waits behind a step: the children of the topmost tree, and what was below it. -/
theorem mem_pending_fill {p : Tree × Nat} :
    p ∈ ((⟨s, pending⟩ : Draft).fill t place).pending ↔
      p ∈ t.children.zipIdx s.entries.size ∨ p ∈ pending := by
  rw [fill, pending_foldl_attach, List.mem_append, List.mem_reverse]

theorem Sound.fill (h : Sound ⟨s, (t, place) :: pending⟩) :
    Sound ((⟨s, pending⟩ : Draft).fill t place) := by
  have hplace : place < s.entries.size := h.lt_size List.mem_cons_self
  have hwaits : place ∉ pending.map Prod.snd := (List.nodup_cons.1 h.distinct).1
  have hdistinct : (pending.map Prod.snd).Nodup := (List.nodup_cons.1 h.distinct).2
  constructor
  · rw [Draft.fill, pending_foldl_attach, List.map_append, List.map_reverse, List.zipIdx_map_snd]
    refine List.nodup_append.2 ⟨?_, hdistinct, ?_⟩
    · exact List.nodup_reverse.2 List.nodup_range'
    · intro i hi j hj
      obtain ⟨p, hp, rfl⟩ := List.mem_map.1 hj
      have hbefore : p.2 < s.entries.size := h.lt_size (List.mem_cons_of_mem _ hp)
      have hbehind : s.entries.size ≤ i := (List.mem_range'_1.1 (List.mem_reverse.1 hi)).1
      omega
  · intro p hp
    obtain hp | hp := mem_pending_fill.1 hp
    · exact getElem?_foldl_attach_child t.children hplace p hp
    · have hne : place ≠ p.2 := fun heq => hwaits (heq ▸ List.mem_map_of_mem (f := Prod.snd) hp)
      have hlt : p.2 < s.entries.size := h.lt_size (List.mem_cons_of_mem _ hp)
      exact (getElem?_foldl_attach_of_ne (d := ⟨s, pending⟩) _ hlt hne).trans
        (h.blank p (List.mem_cons_of_mem _ hp))

/-- A step changes nothing about what the objects stand for. -/
theorem Depicts.fill (hs : Sound ⟨s, (t, place) :: pending⟩) {i : Nat} {u : Tree}
    (h : Depicts ⟨s, (t, place) :: pending⟩ i u) :
    Depicts ((⟨s, pending⟩ : Draft).fill t place) i u := by
  have hplace : place < s.entries.size := hs.lt_size List.mem_cons_self
  have hfirst : place ∉ pending.map Prod.snd := (List.nodup_cons.1 hs.distinct).1
  -- no object that was there before waits newly
  have hwaits {j : Nat} (hj : j < s.entries.size) (hold : ∀ p ∈ pending, p.2 ≠ j) :
      ∀ p ∈ ((⟨s, pending⟩ : Draft).fill t place).pending, p.2 ≠ j := by
    intro p hp
    obtain hp | hp := mem_pending_fill.1 hp
    · have hbehind : s.entries.size ≤ p.2 := (List.mem_zipIdx hp).1
      omega
    · exact hold p hp
  induction h with
  | @pending u i hmem =>
    obtain heq | hmem := List.mem_cons.1 hmem
    · obtain ⟨rfl, rfl⟩ := Prod.mk.inj heq
      obtain ⟨kind, value, children⟩ := u
      have hentry : ((⟨s, pending⟩ : Draft).fill (.node kind value children) i).store.entries[i]? =
          some ⟨kind, value, List.range' s.entries.size children.length⟩ :=
        getElem?_foldl_attach (d := ⟨s, pending⟩) children (hs.blank _ List.mem_cons_self)
      refine .filled hentry (hwaits hplace ?_) (by simp) fun p hp => ?_
      · rintro p hp rfl
        exact hfirst (List.mem_map_of_mem hp)
      · have hchild : p.swap ∈ children.zipIdx s.entries.size := by
          rw [List.zipIdx_eq_zip_range', ← List.zip_swap]
          exact List.mem_map_of_mem hp
        exact .pending (mem_pending_fill.2 (.inl hchild))
    · exact .pending (mem_pending_fill.2 (.inr hmem))
  | @filled i e children hentry hsettled hlength hchildren ih =>
    have hi : i < s.entries.size := (Array.getElem?_eq_some_iff.1 hentry).1
    have hne : place ≠ i := hsettled _ List.mem_cons_self
    refine .filled ?_ (hwaits hi fun p hp => hsettled p (List.mem_cons_of_mem _ hp)) hlength ih
    rwa [Draft.fill, getElem?_foldl_attach_of_ne _ hi hne]

/-- Once nothing waits, an object is read as the document of the tree that it stands for. -/
theorem Depicts.read_eq {i : Nat} {u : Tree} (h : Depicts ⟨s, []⟩ i u)
    (hi : i < s.entries.size) : s.read i hi = describe u := by
  induction h with
  | pending hmem => simp at hmem
  | @filled i e children hentry hsettled hlength hchildren ih =>
    obtain ⟨hi', rfl⟩ := Array.getElem?_eq_some_iff.1 hentry
    rw [Store.read, describe]
    congr 1
    refine List.ext_getElem (by simpa using hlength) fun j hj hj' => ?_
    have hzip : j < (s.entries[i].children.zip children).length := by
      rw [List.length_zip]
      exact Nat.lt_min.2 ⟨by simpa using hj, by simpa using hj'⟩
    have hmem := List.getElem_mem hzip
    rw [List.getElem_zip] at hmem
    rw [List.getElem_map, List.getElem_map, List.getElem_attach]
    exact ih _ hmem _

/-- Whatever an object stands for is read in the end. -/
theorem read_run {d : Draft} (hs : d.Sound) {i : Nat} {u : Tree} (h : Depicts d i u) :
    ∀ hi : i < d.run.entries.size, d.run.read i hi = describe u := by
  induction d using run.induct with
  | case1 s =>
    rw [run]
    exact h.read_eq
  | case2 s t place pending ih =>
    rw [run]
    exact ih hs.fill (h.fill hs)

end Draft

theorem toJson_eq_describe (t : Tree) : t.toJson = describe t :=
  Draft.read_run (Draft.sound_start t) (.pending List.mem_cons_self) _

theorem toJson_node (kind : String) (value : Json) (children : List Tree) :
    (node kind value children).toJson = document kind value (children.map toJson) := by
  rw [toJson_eq_describe, describe, List.map_congr_left fun t _ => (toJson_eq_describe t).symm]

mutual

/-- The tree of a document. -/
def ofJson? : Json → Option Tree
  | .obj [(first, .str kind), (second, value), (third, .arr children)] =>
    if first = "kind" ∧ second = "value" ∧ third = "children" then
      (ofJsonAll? children).map (node kind value)
    else none
  | _ => none

/-- The trees of several documents. -/
def ofJsonAll? : List Json → Option (List Tree)
  | [] => some []
  | v :: rest =>
    match ofJson? v, ofJsonAll? rest with
    | some t, some ts => some (t :: ts)
    | _, _ => none

end

theorem ofJsonAll?_map_toJson {ts : List Tree} (h : ∀ t ∈ ts, ofJson? t.toJson = some t) :
    ofJsonAll? (ts.map toJson) = some ts := by
  induction ts with
  | nil => rfl
  | cons t ts ih =>
    rw [List.map_cons, ofJsonAll?, h t List.mem_cons_self,
      ih fun u hu => h u (List.mem_cons_of_mem _ hu)]

theorem ofJson?_toJson (t : Tree) : ofJson? t.toJson = some t := by
  induction t using Tree.induction with
  | node kind value children ih =>
    rw [toJson_node, document, ofJson?, ofJsonAll?_map_toJson ih]
    simp

/-- The document of a tree has its kind, its value and, in order, the documents of its children.
The tree is got back from it, and no other tree has this document. -/
theorem toJson_invertible :
    (∀ t : Tree, t.toJson = .obj [("kind", .str t.kind), ("value", t.value),
        ("children", .arr (t.children.map toJson))]) ∧
      (∀ t : Tree, ofJson? t.toJson = some t) ∧
      ∀ t u : Tree, t.toJson = u.toJson → t = u := by
  refine ⟨?_, ofJson?_toJson, ?_⟩
  · rintro ⟨kind, value, children⟩
    exact toJson_node kind value children
  · intro t u h
    have hsome : some t = some u := by rw [← ofJson?_toJson t, ← ofJson?_toJson u, h]
    exact Option.some.inj hsome

end RandomDerivation.Tree
