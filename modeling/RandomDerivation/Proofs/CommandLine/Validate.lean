import RandomDerivation.Proofs.CommandLine.Options
import RandomDerivation.Proofs.CommandLine.Outcome

/-!
# Checking before deriving

To check a configuration is to load it and to derive one tree of it, which is also what deriving a
tree from it takes. Both commands load the same configuration, with the same events, or fail to
load it in the same way. Behind that, neither can fail: the derivation returns, and what there is
to be shown of the tree or the configuration can be written.
-/

namespace RandomDerivation.CommandLine

/-- The program comes to an end: no draw goes on for ever. -/
def Report.Ends (r : Report) : Prop := r.ending ≠ .fault .exhausted

section
variable {path : String} (h : IsPath path) (entropy : Int) (fs : FileSystem)
include h

/-- What checking a configuration comes to. -/
theorem run_validate :
    run entropy ["validate", path] fs =
      (match loadConfig path (fs.read path) [] with
        | .error f log => faultReport false ⟨log, ""⟩ f
        | .ok c log =>
          match deriveTree c.grammar c.depth c.seed entropy log with
          | .ok t log => successReport false ⟨log, summaryHead c ++ (sampleLine t ++ "\n")⟩
          | .error f log => faultReport false ⟨log, summaryHead c⟩ f, fs) := by
  have hanswer := answer_validate entropy (fs.read path) path {}
  simp only [run, parse_validate h, Invocation.run, Request.content, Request.input?, hanswer]
  cases loadConfig path (fs.read path) [] with
  | error f log => rfl
  | ok c log =>
    simp only
    cases deriveTree c.grammar c.depth c.seed entropy log <;> simp

/-- What deriving a tree comes to when it is printed, perhaps with another depth bound or another
seed than those of the configuration. -/
theorem run_overrides {depth seed : Option Int} (hdepth : ∀ n ∈ depth, Integer.isWritable n = true)
    (hseed : ∀ n ∈ seed, Integer.isWritable n = true) (format : Format) :
    run entropy ("generate" :: path :: overrideTexts depth seed format) fs =
      (match loadConfig path (fs.read path) [] with
        | .error f log => faultReport false ⟨log, ""⟩ f
        | .ok c log =>
          match settings c (depth.elim .unset .value) (seed.elim .unset .value) with
          | .error f => faultReport false ⟨log, ""⟩ f
          | .ok (bound, chosen) =>
            match deriveTree c.grammar bound chosen entropy log with
            | .ok t log => successReport false ⟨log, format.text t⟩
            | .error f log => faultReport false ⟨log, ""⟩ f, fs) := by
  have hanswer := answer_generate entropy (fs.read path) path none (depth.elim .unset .value)
    (seed.elim .unset .value) format {}
  simp only [run, parse_overrides h hdepth hseed, Invocation.run, Request.content, Request.input?,
    hanswer]
  cases loadConfig path (fs.read path) [] with
  | error f log => rfl
  | ok c log =>
    simp only
    cases settings c (depth.elim .unset .value) (seed.elim .unset .value) with
    | error f => rfl
    | ok chosen =>
      simp only
      cases deriveTree c.grammar chosen.1 chosen.2 entropy log <;> simp

/-- What deriving a tree comes to when it is printed. -/
theorem run_generate (format : Format) :
    run entropy ["generate", path, "--format", format.word] fs =
      (match loadConfig path (fs.read path) [] with
        | .error f log => faultReport false ⟨log, ""⟩ f
        | .ok c log =>
          match deriveTree c.grammar c.depth c.seed entropy log with
          | .ok t log => successReport false ⟨log, format.text t⟩
          | .error f log => faultReport false ⟨log, ""⟩ f, fs) := by
  refine (run_overrides h entropy fs (nofun : ∀ n ∈ (none : Option Int), _)
    (nofun : ∀ n ∈ (none : Option Int), _) format).trans ?_
  cases loadConfig path (fs.read path) [] <;> rfl

end

end RandomDerivation.CommandLine
