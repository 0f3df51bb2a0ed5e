import RandomDerivation.Fault

/-!
# Events

What is worth recording while a grammar is built and a tree derived, with the wording of each
event in one place. A computation that records events keeps those from before a fault.
-/

namespace RandomDerivation

/-- How much an event matters. -/
inductive Level where
  | debug
  | warning
  deriving DecidableEq, Repr

/-- The word for a level. -/
def Level.word : Level → String
  | .debug => "DEBUG"
  | .warning => "WARNING"

/-- Something worth recording. -/
inductive Event where
  | registeredLeaf (name : String)
  | registeredNode (name : String) (slots : Nat)
  /-- No derivation of this node reaches a leaf or a node without slots. -/
  | ungrounded (name : String)
  | derived (root : String) (bound : Int) (size height : Nat)
  deriving DecidableEq, Repr

/-- How much an event matters. -/
def Event.level : Event → Level
  | .ungrounded _ => .warning
  | _ => .debug

/-- The wording of an event. -/
def Event.message : Event → String
  | .registeredLeaf name => "registered leaf " ++ Quoted.quote name
  | .registeredNode name slots =>
    "registered node " ++ Quoted.quote name ++ " with " ++ toString slots ++ " slots"
  | .ungrounded name =>
    "node " ++ Quoted.quote name ++ " can never reach a leaf; it only ends by forced termination"
  | .derived root bound size height =>
    "derived " ++ Quoted.quote root ++ " at max_depth=" ++ Integer.write bound ++ ": size=" ++
      toString size ++ " height=" ++ toString height

/-- Events in the order in which they were recorded. -/
abbrev Log := List Event

/-- The events of a log that matter at least as much as the given level. -/
def Log.above (level : Level) (log : Log) : Log :=
  match level with
  | .debug => log
  | .warning => log.filter (·.level == .warning)

/-- A computation that records events and may fail. -/
abbrev Recorded (α : Type) := EStateM Fault Log α

/-- Record an event. -/
def note (event : Event) : Recorded Unit := modify (· ++ [event])

/-- Fail or go on, recording nothing. -/
def Recorded.ofExcept {α : Type} : Except Fault α → Recorded α
  | .ok a => pure a
  | .error f => throw f

end RandomDerivation
