import RandomDerivation.Derivation.Engine
import RandomDerivation.Log

/-!
# Generating trees

The ways to start a derivation: from a name at some depth, from a name that is cut off at once,
and from the root of a grammar.
-/

namespace RandomDerivation

/-- The depth bound that a value stands for: a whole number that is not negative. -/
def boundOf : Json → Except Fault Nat
  | .int n => if n < 0 then .error (.boundNegative n) else .ok n.toNat
  | value => .error (.boundNotInteger value)

namespace Grammar
variable {ρ μ : Type}

/-- What a name refers to: what the caller says, otherwise a node if there is one of that name,
otherwise a leaf. -/
def reference (g : Grammar ρ) (name : String) (kind : Option Kind) : Except Fault Reference :=
  match kind with
  | some kind => .ok ⟨kind, name⟩
  | none =>
    if g.nodes.contains name then .ok ⟨.node, name⟩
    else if g.leaves.contains name then .ok ⟨.leaf, name⟩
    else .error (.grammar (.unresolved ⟨.node, name⟩ .caller))

variable [Produces ρ μ]

/-- Derive a name as if it stood at the given depth below the root. -/
def expand (g : Grammar ρ) (name : String) (depth : Int) (bound : Nat)
    (kind : Option Kind := none) : Action μ Tree :=
  match g.reference name kind with
  | .error f => throw f
  | .ok r => g.derive bound depth .expand r

/-- A tree without children for a name: a leaf gets a new value, a node keeps its kind. -/
def terminate (g : Grammar ρ) (name : String) (kind : Option Kind := none) : Action μ Tree :=
  match g.reference name kind with
  | .error f => throw f
  | .ok r => g.derive 0 0 .terminate r

/-- Derive a tree from the root, which stands at depth zero. -/
def generate (g : Grammar ρ) (bound : Nat) : Action μ Tree := g.derive bound 0 .expand g.start

/-- Derive a tree from the root and record its measures. -/
def generateRecorded (g : Grammar ρ) (bound : Nat) : EStateM Fault (World μ × Log) Tree :=
  fun (w, log) =>
    match g.generate bound w with
    | .ok t w => .ok t (w, log ++ [.derived g.root bound t.size t.height])
    | .error f w => .error f (w, log)

end Grammar

end RandomDerivation
