import RandomDerivation.Text.Integer
import RandomDerivation.Text.Quoted

/-!
# Arguments

The arguments of a command are options, which start with a dash and may take a value, and
positional arguments. A layout says which ones a command knows. Its arguments are first sorted,
each by itself, and then used up from left to right; each use is reported at once, so that the
first thing that ends the run counts.

Long options may be shortened as long as only one fits, a value may be attached with `=`, and
flags of one letter may be written together. Behind `--` nothing is an option, and the first `--`
among the texts for an argument never counts as a value, not even when it is attached to an
option. Positional arguments are matched as many at a time as fit what stands before the next
option.
-/

namespace RandomDerivation.CommandLine

/-- An option, by its names. -/
structure Opt where
  names : List String
  takesValue : Bool
  deriving DecidableEq, Repr

/-- How an option is called in messages. -/
def Opt.title (o : Opt) : String := String.intercalate "/" o.names

/-- How many arguments a positional argument takes. -/
inductive Arity where
  | one
  | atMostOne
  /-- One, and all that follow it, whatever they look like. -/
  | command
  deriving DecidableEq, Repr

/-- A positional argument. -/
structure Positional where
  name : String
  arity : Arity
  deriving DecidableEq, Repr

/-- What a command knows. -/
structure Layout where
  options : List Opt
  positionals : List Positional

/-- What is wrong with arguments. -/
inductive Complaint where
  | ambiguous (text : String) (candidates : List String)
  /-- An option that takes no value has one attached. -/
  | ignoredValue (argument text : String)
  | valueExpected (argument : String)
  | notInteger (argument text : String)
  | notChoice (argument text : String) (choices : List String)
  | required (argument : String)
  | unrecognized (texts : List String)
  deriving DecidableEq, Repr

/-- The wording of a complaint. -/
def Complaint.message : Complaint → String
  | .ambiguous text candidates =>
    "ambiguous option: " ++ text ++ " could match " ++ String.intercalate ", " candidates
  | .ignoredValue argument text =>
    "argument " ++ argument ++ ": ignored explicit argument " ++ Quoted.quote text
  | .valueExpected argument => "argument " ++ argument ++ ": expected one argument"
  | .notInteger argument text =>
    "argument " ++ argument ++ ": invalid int value: " ++ Quoted.quote text
  | .notChoice argument text choices =>
    "argument " ++ argument ++ ": invalid choice: " ++ Quoted.quote text ++ " (choose from " ++
      String.intercalate ", " (choices.map Quoted.quote) ++ ")"
  | .required argument => "the following arguments are required: " ++ argument
  | .unrecognized texts => "unrecognized arguments: " ++ String.intercalate " " texts

/-! ## Sorting -/

/-- An argument by what it looks like. -/
inductive Token where
  /-- The first `--`. -/
  | separator
  | plain (text : String)
  /-- An option under one of its names, perhaps with an attached value. -/
  | known (text : String) (option : Opt) (name : String) (attached : Option String)
  /-- It looks like an option but is none. -/
  | unknown (text : String)

/-- The argument itself. -/
def Token.text : Token → String
  | .separator => "--"
  | .plain text => text
  | .known text _ _ _ => text
  | .unknown text => text

/-- Whether an argument is taken for an option. -/
def Token.isOption : Token → Bool
  | .separator => false
  | .plain _ => false
  | .known _ _ _ _ => true
  | .unknown _ => true

/-- Whether a text starts with another one. -/
def startsWith (front text : String) : Bool := front.toList.isPrefixOf text.toList

/-- The text in front of the first `=`, and the text behind it. -/
def splitAtEquals (text : String) : String × Option String :=
  let front := text.toList.takeWhile (· ≠ '=')
  match text.toList.drop front.length with
  | [] => (text, none)
  | _ :: behind => (String.ofList front, some (String.ofList behind))

/-- The option with a given name. -/
def findOption? (options : List Opt) (name : String) : Option Opt :=
  options.find? fun o => o.names.contains name

/-- The readings of an argument as an option that is shortened or has a value attached. -/
def readings (options : List Opt) (text : String) : List (Opt × String × Option String) :=
  let names := options.flatMap fun o => o.names.map fun name => (o, name)
  if startsWith "--" text then
    let (front, attached) := splitAtEquals text
    (names.filter fun (_, name) => startsWith front name).map fun (o, name) => (o, name, attached)
  else
    let letter := String.ofList (text.toList.take 2)
    names.filterMap fun (o, name) =>
      if name = letter then some (o, name, some (String.ofList (text.toList.drop 2)))
      else if startsWith text name then some (o, name, none)
      else none

/-- Whether a text is a row of decimal digits of any scripts. -/
def isDigits (cs : List Char) : Bool :=
  !cs.isEmpty && cs.all fun c => (Integer.digitValue? c).isSome

/-- Whether an argument is a negative number, whole or with a point before its last digits; a
line feed may follow it. -/
def isNegativeNumber (text : String) : Bool :=
  match text.toList with
  | '-' :: body =>
    let body := if body.getLast? = some '\n' then body.dropLast else body
    let whole := body.takeWhile (· ≠ '.')
    match body.drop whole.length with
    | [] => isDigits whole
    | _ :: fraction => (whole.isEmpty || isDigits whole) && isDigits fraction
  | _ => false

/-- Sort one argument that stands in front of any `--`. An argument that reads as an option in
more than one way is refused; one that is no option is still taken for one unless it is a
negative number or holds a space. -/
def classifyOne (options : List Opt) (text : String) : Except Complaint Token :=
  if !startsWith "-" text then .ok (.plain text)
  else
    match findOption? options text with
    | some o => .ok (.known text o text none)
    | none =>
      if text = "-" then .ok (.plain text)
      else
        match splitAtEquals text with
        | (front, some attached) =>
          match findOption? options front with
          | some o => .ok (.known text o front (some attached))
          | none => byReadings
        | (_, none) => byReadings
where
  /-- Sort an argument that is not written out as an option. -/
  byReadings : Except Complaint Token :=
    match readings options text with
    | [] =>
      if isNegativeNumber text || text.toList.contains ' ' then .ok (.plain text)
      else .ok (.unknown text)
    | [(o, name, attached)] => .ok (.known text o name attached)
    | several => .error (.ambiguous text (several.map fun (_, name, _) => name))

/-- Sort all arguments. -/
def classify (options : List Opt) : List String → Except Complaint (List Token)
  | [] => return []
  | "--" :: rest => return .separator :: rest.map .plain
  | text :: rest => do
    let token ← classifyOne options text
    return token :: (← classify options rest)

/-! ## Using -/

/-- One use of an argument. -/
inductive Use where
  /-- An option that takes a value has none when `--` is attached to it. -/
  | option (option : Opt) (values : List String)
  | positional (positional : Positional) (values : List String)

/-- Take apart an attached text: flags of one letter that are written together, and last an
option that may take what is left as its value. -/
def unpack (options : List Opt) (o : Opt) (short : Bool) :
    (attached : List Char) → Except Complaint (List Opt × Opt × Option String)
  | [] =>
    if o.takesValue then .ok ([], o, some "") else .error (.ignoredValue o.title "")
  | c :: rest =>
    let text := String.ofList (c :: rest)
    if o.takesValue then .ok ([], o, some text)
    else if !short then .error (.ignoredValue o.title text)
    else
      match findOption? options (String.ofList ['-', c]) with
      | none => .error (.ignoredValue o.title text)
      | some next =>
        if rest.isEmpty then .ok ([o], next, none)
        else do
          let (flags, last, value) ← unpack options next true rest
          return (o :: flags, last, value)

/-- Whether a name is that of an option of one letter. -/
def isShort (name : String) : Bool := !startsWith "--" name

/-- The arguments at the front that a positional argument takes, and the rest. -/
def take? (arity : Arity) (tokens : List Token) : Option (List Token × List Token) :=
  let isSeparator : Token → Bool := fun t => match t with | .separator => true | _ => false
  let before := tokens.takeWhile isSeparator
  match arity, tokens.dropWhile isSeparator with
  | .one, t :: rest =>
    if t.isOption then none
    else some (before ++ t :: rest.takeWhile isSeparator, rest.dropWhile isSeparator)
  | .one, [] => none
  | .atMostOne, t :: rest =>
    if t.isOption then some (before, t :: rest)
    else some (before ++ t :: rest.takeWhile isSeparator, rest.dropWhile isSeparator)
  | .atMostOne, [] => some (before, [])
  | .command, t :: rest => if t.isOption then none else some (before ++ t :: rest, [])
  | .command, [] => none

/-- The values among the texts for an argument: the first `--` is none. -/
def dropSeparator (texts : List String) : List String := texts.erase "--"

/-- The values of a positional argument: those among the texts it takes, except that a command
keeps them all. -/
def valuesOf (arity : Arity) (tokens : List Token) : List String :=
  let texts := tokens.map Token.text
  match arity with
  | .command => texts
  | _ => dropSeparator texts

/-- Match as many positional arguments as fit, and give their uses, those that are left, and the
rest of the arguments. -/
def matchPositionals :
    List Positional → List Token → List Use × List Positional × List Token
  | [], tokens => ([], [], tokens)
  | p :: ps, tokens =>
    match take? p.arity tokens with
    | none => ([], p :: ps, tokens)
    | some (taken, rest) =>
      let (uses, left, rest) := matchPositionals ps rest
      (.positional p (valuesOf p.arity taken) :: uses, left, rest)

/-- Use up arguments from left to right. `act` takes each use in turn, and `refuse` ends the run
with a complaint. The texts that nothing takes are collected. -/
def consume {ε σ : Type} (options : List Opt) (act : σ → Use → Except ε σ)
    (refuse : Complaint → ε) (positionals : List Positional) (tokens : List Token) (s : σ) :
    Except ε (σ × List String) :=
  match tokens with
  | [] => do
    let (uses, _, _) := matchPositionals positionals []
    return (← uses.foldlM act s, [])
  | .unknown text :: rest => do
    let (s, extras) ← consume options act refuse positionals rest s
    return (s, text :: extras)
  | .known _ o name attached :: rest => do
    let (flags, last, value) ←
      match attached with
      | none => .ok ([], o, none)
      | some text => (unpack options o (isShort name) text.toList).mapError refuse
    if value.isNone && last.takesValue then
      match rest with
      | .plain text :: rest => do
        let s ← flags.foldlM (fun s flag => act s (.option flag [])) s
        let s ← act s (.option last (dropSeparator [text]))
        consume options act refuse positionals rest s
      | _ => .error (refuse (.valueExpected last.title))
    else do
      let s ← flags.foldlM (fun s flag => act s (.option flag [])) s
      let s ← act s (.option last (dropSeparator value.toList))
      consume options act refuse positionals rest s
  | t :: rest => do
    let (uses, left, others) := matchPositionals positionals (t :: rest)
    let s ← uses.foldlM act s
    if others.length ≤ rest.length then
      consume options act refuse left others s
    else do
      let (s, extras) ← consume options act refuse left rest s
      return (s, t.text :: extras)
termination_by tokens.length

/-- Sort and use up the arguments of a command. -/
def Layout.run {ε σ : Type} (layout : Layout) (act : σ → Use → Except ε σ)
    (refuse : Complaint → ε) (start : σ) (args : List String) :
    Except ε (σ × List String) := do
  let tokens ← (classify layout.options args).mapError refuse
  consume layout.options act refuse layout.positionals tokens start

end RandomDerivation.CommandLine
