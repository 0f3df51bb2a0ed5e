import RandomDerivation.CommandLine.Arguments
import RandomDerivation.CommandLine.Manual

/-!
# Requests

What the arguments of the program ask for. The program has a flag for a fuller log and three
commands, each with arguments of its own.
-/

namespace RandomDerivation.CommandLine

/-- How a tree is written. -/
inductive Format where
  | json
  | outline
  deriving DecidableEq, Repr

/-- The word for a format. -/
def Format.word : Format → String
  | .json => "json"
  | .outline => "outline"

/-- What an option is set to. -/
inductive Setting (α : Type) where
  | unset
  /-- The option is given, but without a value. -/
  | blank
  | value (a : α)
  deriving DecidableEq, Repr

/-- What a command is to do. -/
inductive Request where
  /-- Derive a tree, and write it to a file if one is given. -/
  | generate (config : String) (output : Option String) (depth seed : Setting Int)
      (format : Format)
  /-- Check a configuration. -/
  | validate (config : String)
  /-- Write the example configuration. -/
  | writeExample (output : String)
  deriving DecidableEq, Repr

/-- A request, and whether minor events are shown. -/
structure Invocation where
  verbose : Bool
  request : Request
  deriving DecidableEq, Repr

/-- The run ends with the arguments. -/
inductive Stop where
  | help (manual : Manual)
  | refused (manual : Manual) (complaint : Complaint)

/-- Asks for the texts about a command. -/
def helpOption : Opt := ⟨["-h", "--help"], false⟩

/-- Asks for minor events. -/
def verboseOption : Opt := ⟨["-v", "--verbose"], false⟩

/-- Gives the depth bound. -/
def depthOption : Opt := ⟨["--depth"], true⟩

/-- Gives the seed. -/
def seedOption : Opt := ⟨["--seed"], true⟩

/-- Gives the format of the tree. -/
def formatOption : Opt := ⟨["--format"], true⟩

/-- What an option is set to by the texts that are given for it. -/
def Setting.ofTexts {α : Type} (read : String → Except Stop α) :
    List String → Except Stop (Setting α)
  | [] => return .blank
  | text :: _ => return .value (← read text)

/-- The value of a setting, if it has one. -/
def Setting.get? {α : Type} : Setting α → Option α
  | .value a => some a
  | _ => none

/-- The whole number that is given for an option. -/
def integerValue (m : Manual) (o : Opt) (text : String) : Except Stop Int :=
  match Integer.read? text with
  | some n => .ok n
  | none => .error (.refused m (.notInteger o.title text))

/-- The format that is given for an option. -/
def formatValue (m : Manual) (o : Opt) (text : String) : Except Stop Format :=
  match [Format.json, Format.outline].find? (fun f => f.word = text) with
  | some f => .ok f
  | none => .error (.refused m (.notChoice o.title text [Format.json.word, Format.outline.word]))

/-- An argument that has to be given. -/
def demand {α : Type} (m : Manual) (name : String) : Option α → Except Stop α
  | some a => .ok a
  | none => .error (.refused m (.required name))

/-- What has been given to the command that derives a tree. -/
structure GenerateArguments where
  config : Option String := none
  output : Option String := none
  depth : Setting Int := .unset
  seed : Setting Int := .unset
  format : Format := .json

/-- The arguments of the command that derives a tree. -/
def generateLayout : Layout where
  options := [helpOption, depthOption, seedOption, formatOption]
  positionals := [⟨"config", .one⟩, ⟨"output", .atMostOne⟩]

/-- Take one use of an argument; a later value replaces an earlier one. A format that is given
without a value is the usual one. -/
def GenerateArguments.take (s : GenerateArguments) : Use → Except Stop GenerateArguments
  | .option o texts => do
    let m := generateManual
    let integer := Setting.ofTexts (integerValue m o) texts
    if o = depthOption then return { s with depth := ← integer }
    else if o = seedOption then return { s with seed := ← integer }
    else if o = formatOption then
      let format ← Setting.ofTexts (formatValue m o) texts
      return { s with format := format.get?.getD .json }
    else throw (.help m)
  | .positional p values =>
    if p.name = "config" then return { s with config := values.head? }
    else return { s with output := values.head? }

/-- The request that arguments stand for, and the texts that nothing takes. -/
def parseGenerate (args : List String) : Except Stop (Request × List String) := do
  let (s, extras) ← generateLayout.run GenerateArguments.take (.refused generateManual) {} args
  let config ← demand generateManual "config" s.config
  return (.generate config s.output s.depth s.seed s.format, extras)

/-- The arguments of a command that takes one. -/
def singleLayout (name : String) : Layout where
  options := [helpOption]
  positionals := [⟨name, .one⟩]

/-- Take one use of an argument of a command that takes one. -/
def takeSingle (m : Manual) (s : Option String) : Use → Except Stop (Option String)
  | .option _ _ => throw (.help m)
  | .positional _ values => return values.head?.or s

/-- The only argument of a command that takes one, and the texts that nothing takes. -/
def parseSingle (m : Manual) (name : String) (args : List String) :
    Except Stop (String × List String) := do
  let (s, extras) ← (singleLayout name).run (takeSingle m) (.refused m) none args
  return (← demand m name s, extras)

/-- What has been given to the program: its flag, and the command with the texts that nothing
takes there. -/
structure MainArguments where
  verbose : Bool := false
  command : Option (Request × List String) := none

/-- The names of the commands. -/
def commandNames : List String := ["generate", "validate", "example"]

/-- The arguments of the program. -/
def mainLayout : Layout where
  options := [helpOption, verboseOption]
  positionals := [⟨"cmd", .command⟩]

/-- The request of a command with its arguments. -/
def parseCommand (name : String) (args : List String) : Except Stop (Request × List String) := do
  if name = "generate" then parseGenerate args
  else if name = "validate" then
    let (config, extras) ← parseSingle validateManual "config" args
    return (.validate config, extras)
  else if name = "example" then
    let (output, extras) ← parseSingle exampleManual "output" args
    return (.writeExample output, extras)
  else throw (.refused mainManual (.notChoice "cmd" name commandNames))

/-- Take one use of an argument. -/
def MainArguments.take (s : MainArguments) : Use → Except Stop MainArguments
  | .option o _ =>
    if o = verboseOption then return { s with verbose := true } else throw (.help mainManual)
  | .positional _ values =>
    match values with
    | [] => return s
    | name :: args => return { s with command := some (← parseCommand name args) }

/-- The invocation that arguments stand for. Texts that nothing takes are only refused when
nothing else is wrong. -/
def Invocation.parse (args : List String) : Except Stop Invocation := do
  let (s, extras) ← mainLayout.run MainArguments.take (.refused mainManual) {} args
  let (request, others) ← demand mainManual "cmd" s.command
  if (extras ++ others).isEmpty then return { verbose := s.verbose, request }
  else throw (.refused mainManual (.unrecognized (extras ++ others)))

end RandomDerivation.CommandLine
