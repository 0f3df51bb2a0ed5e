import RandomDerivation.CommandLine.Request
import RandomDerivation.Config.Example
import RandomDerivation.Derivation.Generate
import RandomDerivation.Document
import RandomDerivation.Tree.Document
import RandomDerivation.Tree.Outline

/-!
# Running a request

A request reads at most one file and writes at most one. What it comes to is settled as a value
between the two: what has been printed, and the file that is left to be written. A tree is only
printed when all of its text is there, and a file is only written when nothing but the writing can
fail. A summary is printed line by line; the tree whose measures stand in the last line is derived
when the other lines have been printed.

## Main definitions

* `Showing`: computations that record events and print.
* `Request.answer`: what a request comes to, given the content of the file that it reads.
* `Report`: what a caller of the program sees.
* `run`: the program on a file system.
-/

namespace RandomDerivation.CommandLine

/-- What has been shown so far: the events that were recorded, and the text that was printed. -/
structure Shown where
  log : Log := []
  stdout : String := ""

/-- A computation that records events, prints and may fail. What it has shown before a fault stays
shown. -/
abbrev Showing (α : Type) := EStateM Fault Shown α

/-- Record events and print nothing. -/
def Showing.ofRecorded {α : Type} (x : Recorded α) : Showing α := fun s =>
  match x s.log with
  | .ok a log => .ok a { s with log }
  | .error f log => .error f { s with log }

/-- Print a text. -/
def print (text : String) : Showing Unit := modify fun s => { s with stdout := s.stdout ++ text }

/-- Print a line. -/
def printLine (line : String) : Showing Unit := print (line ++ "\n")

/-- A file that is left to be written. -/
structure Output where
  path : String
  text : String
  deriving DecidableEq, Repr

/-- The file that a request reads. -/
def Request.input? : Request → Option String
  | .generate config _ _ _ _ => some config
  | .validate config => some config
  | .writeExample _ => none

/-- The configuration that the file at `path` holds. -/
def loadConfig (path : String) (content : Except Fault Utf8.Bytes) : Recorded Config := do
  let bytes ← Recorded.ofExcept content
  let document ← Recorded.ofExcept (Document.ofBytes path bytes)
  Config.parse document

/-- Derive a tree of a grammar from a seed; `entropy` stands in for one that is not given. -/
def deriveTree (g : Grammar Producer) (bound : Nat) (seed : Option Int) (entropy : Int) :
    Recorded Tree := fun log =>
  match g.generateRecorded bound (⟨.ofSeed (seed.getD entropy), ()⟩, log) with
  | .ok t (_, log) => .ok t log
  | .error f (_, log) => .error f log

/-- The text of a tree in a format, if all its values can be written. -/
def Format.render : Format → Tree → Except Fault String
  | .json, t => if t.isWritable then .ok (Document.text t.toJson) else .error .integerUnwritable
  | .outline, t => return (← t.outlineChecked) ++ "\n"

/-- A depth bound from the command line, which takes the place of the one in a configuration. -/
def overrideDepth (config : Nat) : Setting Int → Except Fault Nat
  | .unset => .ok config
  | .blank => .error .boundBlank
  | .value n => do
    Field.ensure (0 ≤ n) "--depth" .negative
    return n.toNat

/-- A seed from the command line, which takes the place of the one in a configuration. -/
def overrideSeed (config : Option Int) : Setting Int → Except Fault (Option Int)
  | .unset => .ok config
  | .blank => .error .seedBlank
  | .value n => .ok (some n)

/-- Derive a tree as a configuration and the command line say. -/
def generateText (c : Config) (depth seed : Setting Int) (format : Format) (entropy : Int) :
    Recorded String := do
  let bound ← Recorded.ofExcept (overrideDepth c.depth depth)
  let seed ← Recorded.ofExcept (overrideSeed c.seed seed)
  Recorded.ofExcept (format.render (← deriveTree c.grammar bound seed entropy))

/-- The line of a depth bound, if it can be written. -/
def depthLine (depth : Nat) : Except Fault String :=
  if Integer.isWritable depth then .ok ("depth: " ++ Integer.write depth)
  else .error .integerUnwritable

/-- The line of the measures of a tree. -/
def sampleLine (sample : Tree) : String :=
  "sample tree: size=" ++ toString sample.size ++ " height=" ++ toString sample.height

/-- Print a summary of a configuration, with the measures of one tree. -/
def printSummary (c : Config) (entropy : Int) : Showing Unit := do
  let g ← Showing.ofRecorded (Recorded.ofExcept c.grammar.recheck)
  printLine ("name: " ++ c.name)
  printLine ("root: " ++ g.root ++ " (" ++ g.rootKind.word ++ ")")
  printLine ("nodes: " ++ toString g.nodes.size)
  printLine ("leaves: " ++ toString g.leaves.size)
  printLine (← Showing.ofRecorded (Recorded.ofExcept (depthLine c.depth)))
  unless g.ungrounded.isEmpty do
    printLine ("warning: nodes that never reach a leaf: " ++
      String.intercalate ", " g.ungrounded)
  let sample ← Showing.ofRecorded (deriveTree g c.depth c.seed entropy)
  printLine (sampleLine sample)

/-- What a request comes to, given the content of the file that it reads: the file that is left to
be written, if there is one. -/
def Request.answer (entropy : Int) (content : Except Fault Utf8.Bytes) :
    Request → Showing (Option Output)
  | .generate config output depth seed format => do
    let c ← Showing.ofRecorded (loadConfig config content)
    let text ← Showing.ofRecorded (generateText c depth seed format entropy)
    match output with
    | none =>
      print text
      return none
    | some path => return some ⟨path, text⟩
  | .validate config => do
    printSummary (← Showing.ofRecorded (loadConfig config content)) entropy
    return none
  | .writeExample output => do
    let document ← Showing.ofRecorded Config.exampleChecked
    return some ⟨output, Document.text document⟩

/-- How the program ends: with a code, or with a fault that it does not report itself. -/
inductive Ending where
  | code (n : Nat)
  | fault (fault : Fault)

/-- What a caller of the program sees. -/
structure Report where
  ending : Ending
  stdout : String := ""
  stderr : String := ""

/-- The line of an event in the log. -/
def logLine (e : Event) : String := e.level.word ++ " treegen: " ++ e.message ++ "\n"

/-- The log as it is shown. -/
def logText (verbose : Bool) (log : Log) : String :=
  String.join ((log.above (if verbose then .debug else .warning)).map logLine)

/-- How the program ends when its arguments end the run. -/
def Stop.report : Stop → Report
  | .help m => { ending := .code 0, stdout := m.help }
  | .refused m complaint =>
    { ending := .code 2
      stderr := m.usage ++ m.program ++ ": error: " ++ complaint.message ++ "\n" }

/-- How the program ends with a fault: faults of grammars and of files are reported in one line,
any other is left to the caller. -/
def faultReport (verbose : Bool) (shown : Shown) (f : Fault) : Report :=
  let log := logText verbose shown.log
  match f with
  | .grammar g =>
    { ending := .code 2
      stdout := shown.stdout
      stderr := log ++ "Grammar error: " ++ g.message ++ "\n" }
  | .file g =>
    { ending := .code 2
      stdout := shown.stdout
      stderr := log ++ "File error: " ++ g.message ++ "\n" }
  | f => { ending := .fault f, stdout := shown.stdout, stderr := log }

/-- How the program ends when all is done. -/
def successReport (verbose : Bool) (shown : Shown) : Report :=
  { ending := .code 0, stdout := shown.stdout, stderr := logText verbose shown.log }

/-- Write the file that is left to be written. -/
def Output.write (o : Output) : FileAction Unit :=
  FileSystem.write o.path (Utf8.encode o.text.toList)

/-- The content of the file that a request reads. -/
def Request.content (r : Request) (fs : FileSystem) : Except Fault Utf8.Bytes :=
  match r.input? with
  | none => .ok []
  | some path => fs.read path

/-- Answer a request and write the file that is left to be written. -/
def Invocation.run (entropy : Int) (i : Invocation) (fs : FileSystem) : Report × FileSystem :=
  match i.request.answer entropy (i.request.content fs) {} with
  | .error f shown => (faultReport i.verbose shown f, fs)
  | .ok none shown => (successReport i.verbose shown, fs)
  | .ok (some output) shown =>
    match output.write fs with
    | .ok () fs => (successReport i.verbose shown, fs)
    | .error f fs => (faultReport i.verbose shown f, fs)

/-- Run the program on a file system. -/
def run (entropy : Int) (args : List String) (fs : FileSystem) : Report × FileSystem :=
  match Invocation.parse args with
  | .error stop => (stop.report, fs)
  | .ok i => i.run entropy fs

end RandomDerivation.CommandLine
