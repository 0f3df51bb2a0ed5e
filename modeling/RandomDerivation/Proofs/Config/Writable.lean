import RandomDerivation.Proofs.Config.Parse
import RandomDerivation.Proofs.Derivation.Seeded
import RandomDerivation.Proofs.Random.Attains

/-!
# What a configuration can write

The document of a configuration can be written, since it has been read. This passes on to the
configuration: to its depth bound, and to all values that its leaves make. A number between two
bounds has no more digits than these.
-/

namespace RandomDerivation

theorem Json.isWritable_of_lookup {members : List (String × Json)} {name : String} {v : Json}
    (h : (obj members).isWritable = true) (hv : members.lookup name = some v) :
    v.isWritable = true := by
  obtain ⟨before, after, hsplit, -⟩ := List.lookup_eq_some_iff.1 hv
  have hmem : (name, v) ∈ members := by simp [hsplit]
  exact isWritable_obj.1 h _ hmem

theorem Json.isWritable_get {members : List (String × Json)} {name : String} {absent : Json}
    (h : (obj members).isWritable = true) (habsent : absent.isWritable = true) :
    (Field.get members name absent).isWritable = true := by
  unfold Field.get
  cases hv : members.lookup name with
  | none => exact habsent
  | some v => exact isWritable_of_lookup h hv

namespace Producer

/-- What a producer makes can be written, since what describes the producer can. -/
theorem writes_of_describes {value : Json} {p : Producer} (h : Describes value p)
    (hvalue : value.isWritable = true) : p.Writes := by
  intro s v s' hdraw
  cases h with
  | const _ hconst =>
    obtain ⟨rfl, -⟩ := pure_eq_ok.1 hdraw
    exact Json.isWritable_of_lookup hvalue hconst
  | uniform =>
    simp only [draw, bind_eq_ok, pure_eq_ok] at hdraw
    obtain ⟨x, _, -, rfl, -⟩ := hdraw
    rfl
  | randint hbounds _ hlow hhigh =>
    simp only [draw, bind_eq_ok, pure_eq_ok] at hdraw
    obtain ⟨n, _, hn, rfl, -⟩ := hdraw
    obtain ⟨h, h'⟩ := range_eq_ok hbounds hn
    exact Integer.isWritable_of_between (Json.isWritable_of_lookup hvalue hlow)
      (Json.isWritable_of_lookup hvalue hhigh) h h'
  | choice _ hvalues =>
    exact Json.isWritable_arr.1 (Json.isWritable_of_lookup hvalue hvalues) v (member_eq_ok hdraw)
  | gauss =>
    simp only [draw, bind_eq_ok, pure_eq_ok] at hdraw
    obtain ⟨x, _, -, rfl, -⟩ := hdraw
    rfl

end Producer

namespace Config

/-- The depth bound of a configuration and the values that its leaves make can be written. -/
structure IsWritable (c : Config) : Prop where
  depth : Integer.isWritable c.depth = true
  leaves : ∀ name leaf, c.grammar.leaves.find? name = some leaf → leaf.generator.Writes

/-- Everything of a configuration can be written, since its document can. -/
theorem isWritable_of_describes {members : List (String × Json)} {c : Config}
    (h : Describes members c) (hmembers : (Json.obj members).isWritable = true) :
    c.IsWritable where
  depth := by
    have hdepth : (Field.get members "depth" (.int 3)).isWritable = true :=
      Json.isWritable_get hmembers (by decide)
    rw [h.depth] at hdepth
    exact hdepth
  leaves name leaf hleaf := by
    obtain ⟨leaves, hleaves, hrepresents⟩ := h.leaves
    have hentries : (Json.obj leaves).isWritable = true := by
      rw [← hleaves]
      exact Json.isWritable_get hmembers rfl
    obtain ⟨e, he, -, -, hdescribes⟩ :=
      exists_of_forall₂_of_mem_right hrepresents (Table.find?_eq_some_iff.1 hleaf)
    exact Producer.writes_of_describes hdescribes (Json.isWritable_obj.1 hentries e he)

end Config

end RandomDerivation
