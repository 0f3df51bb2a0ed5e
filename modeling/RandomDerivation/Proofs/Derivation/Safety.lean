import Mathlib
import RandomDerivation.Generator
import RandomDerivation.Proofs.Derivation.Filling
import RandomDerivation.Proofs.Derivation.Stack
import RandomDerivation.Proofs.Random.Exhausted

/-!
# What can go wrong in a derivation

A derivation looks names up without checking them. Every reference that it comes upon was found in
a slot of a node of the grammar, or is the root, and all of these have been checked. So if a
derivation fails, then because a draw has failed or a leaf generator has given up.
-/

namespace RandomDerivation.Grammar
variable {ρ μ : Type} [Produces ρ μ] {g : Grammar ρ} {bound : Nat}

/-- A fault of what a derivation relies on: of a draw between alternatives, at least one of which
there is, or of a leaf generator of the grammar. -/
inductive OutsideFault (g : Grammar ρ) (w : World μ) (f : Fault) (w' : World μ) : Prop where
  | draw {n : Nat} :
    0 < n → RandomDerivation.draw (Draw.below n) w = .error f w' → OutsideFault g w f w'
  | call {name : String} {leaf : LeafGenerator ρ} :
    g.leaves.find? name = some leaf → Produces.produce leaf.generator w = .error f w' →
      OutsideFault g w f w'

/-- Draws and leaf values lead from one world to another, where an outside fault arises. -/
def FailsOutside (g : Grammar ρ) (w : World μ) (f : Fault) (w' : World μ) : Prop :=
  ∃ calls w₁, g.History w calls w₁ ∧ g.OutsideFault w₁ f w'

theorem OutsideFault.failsOutside {w w' : World μ} {f : Fault} (h : g.OutsideFault w f w') :
    g.FailsOutside w f w' := ⟨[], w, .rest, h⟩

/-- What happens before something fails belongs to the history of the fault. -/
theorem FailsOutside.after {w w₁ w' : World μ} {f : Fault} {calls : List (String × Json)}
    (hcalls : g.History w calls w₁) (h : g.FailsOutside w₁ f w') : g.FailsOutside w f w' := by
  obtain ⟨later, w₂, hlater, hfault⟩ := h
  exact ⟨calls ++ later, w₂, hcalls.append hlater, hfault⟩

theorem outsideFault_of_produceLeaf {name : String} (hname : name ∈ g.leaves) {w w' : World μ}
    {f : Fault} (h : g.produceLeaf name w = .error f w') : g.OutsideFault w f w' := by
  obtain ⟨leaf, hleaf⟩ := Table.exists_find?_of_mem hname
  simp only [produceLeaf, hleaf, bind_eq_error] at h
  rcases h with hcall | ⟨value, w₁, -, hpure⟩
  · exact .call hleaf hcall
  · cases hpure

/-- A slot whose references are all defined can only not be filled for a reason from outside. -/
theorem failsOutside_of_resolve {s : Slot}
    (hs : ∀ item ∈ s.items, ∃ r, item = .reference r ∧ isDefined g.nodes g.leaves r = true)
    {w w' : World μ} {f : Fault} (h : g.resolve s w = .error f w') : g.FailsOutside w f w' := by
  induction s using resolve.induct generalizing w with
  | case1 name =>
    obtain ⟨r, heq, hr⟩ := hs (.reference ⟨.leaf, name⟩) (by simp [Slot.items])
    cases heq
    rw [resolve, bind_eq_error] at h
    rcases h with hleaf | ⟨t, w₁, -, hpure⟩
    · exact (outsideFault_of_produceLeaf (Table.contains_iff.1 hr) hleaf).failsOutside
    · cases hpure
  | case2 name =>
    rw [resolve] at h
    cases h
  | case3 first others ih =>
    rw [resolve, bind_eq_error] at h
    rcases h with hdraw | ⟨i, w₁, hdraw, hlater⟩
    · exact (OutsideFault.draw (Nat.succ_pos _) hdraw).failsOutside
    · have hitems : ∀ item ∈ ((first :: others).get i).items,
          ∃ r, item = .reference r ∧ isDefined g.nodes g.leaves r = true := by
        intro item hitem
        exact hs item (Slot.mem_items_choice.2 ⟨i, hitem⟩)
      exact (ih i hitems hlater).after (.draw hdraw .rest)
  | case4 value =>
    -- The check has found no foreign value.
    obtain ⟨r, heq, -⟩ := hs (.foreign value) (by simp [Slot.items])
    cases heq

theorem failsOutside_of_resolveAll {slots : List Slot}
    (hslots : ∀ s ∈ slots, ∀ item ∈ s.items,
      ∃ r, item = .reference r ∧ isDefined g.nodes g.leaves r = true)
    {w w' : World μ} {f : Fault} (h : g.resolveAll slots w = .error f w') :
    g.FailsOutside w f w' := by
  induction slots generalizing w with
  | nil => cases h
  | cons s rest ih =>
    simp only [resolveAll, bind_eq_error] at h
    rcases h with hhead | ⟨filling, w₁, hfilling, htail | ⟨fillings, w₂, -, hpure⟩⟩
    · exact failsOutside_of_resolve (hslots s (by simp)) hhead
    · obtain ⟨hcalls, -⟩ := fills_of_resolve hfilling
      exact (ih (fun s hs => hslots s (by simp [hs])) htail).after hcalls
    · cases hpure

/-- A filling that is complete, or whose reference is defined. -/
def IsSound (g : Grammar ρ) (filling : Filling) : Prop :=
  ∀ r, filling = .pending r → isDefined g.nodes g.leaves r = true

theorem failsOutside_of_openFilling {depth : Int} {mode : Mode} {filling : Filling}
    (hfilling : g.IsSound filling) {w w' : World μ} {f : Fault}
    (h : g.openFilling bound depth mode filling w = .error f w') : g.FailsOutside w f w' := by
  match filling, mode with
  | .tree t, _ => cases h
  | .pending ⟨.leaf, name⟩, _ =>
    have hname := Table.contains_iff.1 (hfilling _ rfl)
    simp only [openFilling, bind_eq_error] at h
    rcases h with hleaf | ⟨t, w₁, -, hpure⟩
    · exact (outsideFault_of_produceLeaf hname hleaf).failsOutside
    · cases hpure
  | .pending ⟨.node, name⟩, .terminate => cases h
  | .pending ⟨.node, name⟩, .expand =>
    obtain ⟨d, hd⟩ := Table.exists_find?_of_mem (Table.contains_iff.1 (hfilling _ rfl))
    simp only [openFilling, hd, bind_eq_error] at h
    rcases h with hslots | ⟨fillings, w₁, -, hpure⟩
    · apply failsOutside_of_resolveAll _ hslots
      intro s hs item hitem
      exact exists_reference_of_mem_items hd hs hitem
    · cases hpure

theorem history_of_openFilling {depth : Int} {mode : Mode} {filling : Filling} {o : Opened}
    {w w' : World μ} (h : g.openFilling bound depth mode filling w = .ok o w') :
    ∃ calls, g.History w calls w' := by
  match filling, mode with
  | .tree t, _ =>
    obtain ⟨-, rfl⟩ := pure_eq_ok.1 h
    exact ⟨[], .rest⟩
  | .pending ⟨.leaf, name⟩, _ =>
    simp only [openFilling, bind_eq_ok, pure_eq_ok] at h
    obtain ⟨t, _, ht, -, rfl⟩ := h
    obtain ⟨leaf, value, hleaf, hvalue, -⟩ := produceLeaf_eq_ok.1 ht
    exact ⟨[(name, value)], .call hleaf hvalue .rest⟩
  | .pending ⟨.node, name⟩, .terminate =>
    obtain ⟨-, rfl⟩ := pure_eq_ok.1 h
    exact ⟨[], .rest⟩
  | .pending ⟨.node, name⟩, .expand =>
    cases hd : g.nodes.find? name with
    | none => simp [openFilling, hd] at h
    | some d =>
      simp only [openFilling, hd, bind_eq_ok, pure_eq_ok] at h
      obtain ⟨fillings, _, hfillings, -, rfl⟩ := h
      obtain ⟨hcalls, -⟩ := fills_of_resolveAll hfillings
      exact ⟨_, hcalls⟩

/-- A stack on which nothing is pending that is not defined. -/
def Sound (g : Grammar ρ) (s : Stack) : Prop :=
  ∀ f ∈ s.top :: s.below, ∀ filling ∈ f.pending, g.IsSound filling

/-- A frame that gets a child keeps the fillings behind it. -/
theorem mem_pending_of_mem_attach {f : Frame} {t : Tree} {filling : Filling}
    (h : filling ∈ (f.attach t).pending) : filling ∈ f.pending := List.mem_of_mem_tail h

theorem isSound_of_openFilling {depth : Int} {mode : Mode} {filling : Filling} {f : Frame}
    {w w' : World μ} (h : g.openFilling bound depth mode filling w = .ok (.frame f) w') :
    ∀ filling ∈ f.pending, g.IsSound filling := by
  obtain ⟨name, d, fillings, rfl, rfl, hd, hfillings, rfl⟩ := openFilling_eq_frame h
  rintro _ hfilling ⟨kind, name⟩ rfl
  obtain ⟨rfl, hname⟩ := pending_of_resolveAll hd hfillings hfilling
  exact Table.contains_iff.2 hname

/-- Steps keep stacks sound. -/
theorem sound_of_moves {s s' : Stack} {w w' : World μ} (hs : g.Sound s)
    (h : g.Moves bound s w s' w') : g.Sound s' := by
  cases h with
  | close hp =>
    rintro f hf filling hfilling
    rcases List.mem_cons.1 hf with rfl | hf
    · exact hs _ (by simp) filling (mem_pending_of_mem_attach hfilling)
    · exact hs f (by simp [hf]) filling hfilling
  | attach hp ho =>
    rintro f hf filling hfilling
    rcases List.mem_cons.1 hf with rfl | hf
    · exact hs _ (by simp) filling (mem_pending_of_mem_attach hfilling)
    · exact hs f (by simp [hf]) filling hfilling
  | push hp ho =>
    rintro f hf filling hfilling
    rcases List.mem_cons.1 hf with rfl | hf
    · exact isSound_of_openFilling ho filling hfilling
    · exact hs f hf filling hfilling

theorem history_of_moves {s s' : Stack} {w w' : World μ} (h : g.Moves bound s w s' w') :
    ∃ calls, g.History w calls w' := by
  cases h with
  | close => exact ⟨[], .rest⟩
  | attach _ ho => exact history_of_openFilling ho
  | push _ ho => exact history_of_openFilling ho

/-- A step from a sound stack fails only for a reason from outside. -/
theorem failsOutside_of_step {s : Stack} (hs : g.Sound s) {w w' : World μ} {f : Fault}
    (h : g.step bound s w = .error f w') : g.FailsOutside w f w' := by
  obtain ⟨top, below⟩ := s
  cases hp : top.pending with
  | nil => cases below <;> simp [step, hp] at h
  | cons filling rest =>
    simp only [step, hp, bind_eq_error] at h
    rcases h with hopen | ⟨o, w₁, -, hpure⟩
    · exact failsOutside_of_openFilling (hs top (by simp) filling (by simp [hp])) hopen
    · cases o <;> cases hpure

/-- All steps from a sound stack fail only for a reason from outside. -/
theorem failsOutside_of_run {s : Stack} (hs : g.Sound s) {w w' : World μ} {f : Fault}
    (h : g.run bound s w = .error f w') : g.FailsOutside w f w' := by
  induction s, w using run.induct g bound with
  | case1 s w t w₁ hstep =>
    rw [← step_bind_run, bind_run_of_ok hstep] at h
    cases h
  | case2 s w s₁ w₁ hstep ih =>
    rw [← step_bind_run, bind_run_of_ok hstep] at h
    have hmoves := moves_of_step hstep
    obtain ⟨calls, hcalls⟩ := history_of_moves hmoves
    exact (ih (sound_of_moves hs hmoves) h).after hcalls
  | case3 s w f₁ w₁ hstep =>
    rw [← step_bind_run, bind_run_of_error hstep] at h
    cases h
    exact failsOutside_of_step hs hstep

/-- A derivation of a defined reference fails only for a reason from outside. -/
theorem failsOutside_of_derive {depth : Int} {mode : Mode} {r : Reference}
    (hr : isDefined g.nodes g.leaves r = true) {w w' : World μ} {f : Fault}
    (h : g.derive bound depth mode r w = .error f w') : g.FailsOutside w f w' := by
  rw [derive, bind_eq_error] at h
  rcases h with hopen | ⟨o, w₁, hopen, hlater⟩
  · have hsound : g.IsSound (.pending r) := by
      rintro _ ⟨⟩
      exact hr
    exact failsOutside_of_openFilling hsound hopen
  · obtain ⟨calls, hcalls⟩ := history_of_openFilling hopen
    cases o with
    | complete t => cases hlater
    | frame top =>
      have hsound : g.Sound ⟨top, []⟩ := by
        intro f hf
        rw [List.mem_singleton.1 hf]
        exact isSound_of_openFilling hopen
      exact (failsOutside_of_run hsound hlater).after hcalls

/-- If no tree of the grammar can be derived, then behind some draws and leaf values the source of
the draws has no words left, or a leaf generator of the grammar gives up. A draw is always between
at least one alternative. A fault with which no leaf generator of the grammar gives up, such as an
undefined name or a value that is no slot, is none of a derivation. -/
theorem generate_eq_error {w w' : World μ} {f : Fault} (h : g.generate bound w = .error f w') :
    (∃ calls w₁, g.History w calls w₁ ∧
      ((∃ n, 0 < n ∧ f = .exhausted ∧ draw (Draw.below n) w₁ = .error f w') ∨
        ∃ name leaf, g.leaves.find? name = some leaf ∧
          Produces.produce leaf.generator w₁ = .error f w')) ∧
    ((∀ name leaf (w₁ w₂ : World μ), g.leaves.find? name = some leaf →
        Produces.produce leaf.generator w₁ ≠ .error f w₂) →
      f = .exhausted) := by
  obtain ⟨calls, w₁, hcalls, hfault⟩ := failsOutside_of_derive g.isDefined_start h
  cases hfault with
  | draw hn hdraw =>
    have hf := (onlyExhausts_below _).draw hdraw
    exact ⟨⟨calls, w₁, hcalls, .inl ⟨_, hn, hf, hdraw⟩⟩, fun _ => hf⟩
  | call hleaf hcall =>
    refine ⟨⟨calls, w₁, hcalls, .inr ⟨_, _, hleaf, hcall⟩⟩, ?_⟩
    intro hnone
    exact absurd hcall (hnone _ _ _ _ hleaf)

/-- A grammar with a leaf that gives up. The node and another leaf have the same name, and the
definition of the node has a different one. -/
def failingLeaf : Grammar Generator where
  root := "shared"
  nodes := ⟨[("shared", ⟨"other", [.choice (.node "shared")
    [.choice (.leaf "shared") [.leaf "failing"]]]⟩)], by decide⟩
  leaves := ⟨[("shared", ⟨"shared", .counter 0⟩),
    ("failing", ⟨"failing", .failing "gives up"⟩)], by decide⟩
  checked := rfl

/-- The leaf that gives up stands in a choice inside a choice. -/
theorem generate_eq_error_failingLeaf :
    failingLeaf.generate 3 ⟨.ofList [0x40000000, 0x40000000], [7]⟩ =
        .error (.raised "gives up") ⟨.ofList [], [7]⟩ ∧
      ∃ calls w₁ name leaf, failingLeaf.History ⟨.ofList [0x40000000, 0x40000000], [7]⟩ calls w₁ ∧
        failingLeaf.leaves.find? name = some leaf ∧
        Produces.produce leaf.generator w₁ = .error (.raised "gives up") ⟨.ofList [], [7]⟩ := by
  have hshared : failingLeaf.nodes.find? "shared" = some ⟨"other", [.choice (.node "shared")
      [.choice (.leaf "shared") [.leaf "failing"]]]⟩ := rfl
  have hstart : failingLeaf.start = ⟨.node, "shared"⟩ := rfl
  have h : failingLeaf.generate 3 ⟨.ofList [0x40000000, 0x40000000], [7]⟩ =
      .error (.raised "gives up") ⟨.ofList [], [7]⟩ := by
    rw [generate_eq_grow, hstart, grow_succ_node hshared]
    simp only [resolveAll, resolve]
    cbv
  obtain ⟨⟨calls, w₁, hcalls, hfault⟩, -⟩ := generate_eq_error h
  rcases hfault with ⟨_, _, hf, _⟩ | ⟨name, leaf, hleaf, hcall⟩
  · cases hf
  · exact ⟨h, calls, w₁, name, leaf, hcalls, hleaf, hcall⟩

end RandomDerivation.Grammar
