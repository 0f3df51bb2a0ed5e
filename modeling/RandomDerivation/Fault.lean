import RandomDerivation.Json.Reader
import RandomDerivation.Json.Literal
import RandomDerivation.Text.Utf8
import RandomDerivation.Slot

/-!
# Faults

Everything that can go wrong, as causes, with the wording of each in one place.
-/

namespace RandomDerivation

/-- What is wrong with a part of a configuration. -/
inductive ConfigCause where
  | notNumber
  | notInteger
  | notString
  | notArray
  | notObject
  | empty
  | negative
  | missing
  /-- A lower bound lies above the upper bound at `high`. -/
  | above (high : String)
  /-- A slot is not an object with one member. -/
  | notOneSlotKind
  | unknownSlotKind (word : String)
  /-- A producer's type is none of `known`. -/
  | unknownType (known : List String) (word : String)

/-- A part of a configuration is not as it should be. -/
structure ConfigFault where
  /-- Where in the document the part stands. -/
  path : String
  cause : ConfigCause

/-- The wording of a fault; it starts with the path. -/
def ConfigFault.message (f : ConfigFault) : String :=
  f.path ++
    match f.cause with
    | .notNumber => " must be a number"
    | .notInteger => " must be an integer"
    | .notString => " must be a string"
    | .notArray => " must be an array"
    | .notObject => " must be an object"
    | .empty => " must be non-empty"
    | .negative => " must be >= 0"
    | .missing => " is required"
    | .above high => " must be <= " ++ high
    | .notOneSlotKind => " must have exactly one of 'leaf', 'node' or 'choice'"
    | .unknownSlotKind word => " has unknown slot kind " ++ Quoted.quote word
    | .unknownType known word =>
      " must be one of " ++ (Json.arr (known.map Json.str)).literal ++ "; got " ++
        Quoted.quote word

/-- Where a reference stands. -/
inductive Site where
  | root
  | node (name : String)
  | caller
  deriving DecidableEq, Repr

/-- The words for a site. -/
def Site.words : Site → String
  | .root => "the root"
  | .node name => "node '" ++ name ++ "'"
  | .caller => "the caller"

/-- Why a grammar cannot be built, or a derivation not be started. -/
inductive GrammarFault where
  | duplicate (kind : Kind) (name : String)
  | rootAlreadySet (root : String)
  | rootNotSet
  | emptyChoice
  | unresolved (reference : Reference) (site : Site)
  | config (fault : ConfigFault)
  /-- The file at `path` does not hold JSON. -/
  | malformed (path : String) (fault : SyntaxFault)

/-- The wording of a fault. -/
def GrammarFault.message : GrammarFault → String
  | .duplicate kind name => "a " ++ kind.word ++ " named '" ++ name ++ "' already exists"
  | .rootAlreadySet root => "root already set: " ++ root
  | .rootNotSet => "no root has been set"
  | .emptyChoice => "a choice needs at least one alternative"
  | .unresolved r site =>
    r.kind.word ++ " '" ++ r.name ++ "' referenced by " ++ site.words ++ " is not defined"
  | .config fault => fault.message
  | .malformed path fault => "Invalid JSON in " ++ path ++ ": " ++ fault.message

/-- Why the file system refuses an operation. -/
inductive FileCause where
  | notFound
  | exists
  | notDirectory
  | isDirectory
  | nameTooLong
  /-- Any other reason, with the system's number and wording. -/
  | other (number : Nat) (words : String)
  deriving DecidableEq, Repr

/-- The system's number of a cause. -/
def FileCause.number : FileCause → Nat
  | .notFound => 2
  | .exists => 17
  | .notDirectory => 20
  | .isDirectory => 21
  | .nameTooLong => 36
  | .other n _ => n

/-- The system's wording of a cause. -/
def FileCause.words : FileCause → String
  | .notFound => "No such file or directory"
  | .exists => "File exists"
  | .notDirectory => "Not a directory"
  | .isDirectory => "Is a directory"
  | .nameTooLong => "File name too long"
  | .other _ words => words

/-- An operation on the file at `path` is refused. -/
structure FileFault where
  cause : FileCause
  path : String
  deriving DecidableEq, Repr

/-- The wording of a fault. -/
def FileFault.message (f : FileFault) : String :=
  "[Errno " ++ toString f.cause.number ++ "] " ++ f.cause.words ++ ": " ++ Quoted.quote f.path

/-- The word for what kind of value a foreign value is. -/
def Json.noun : Json → String
  | .null => "NoneType"
  | .bool _ => "bool"
  | .int _ => "int"
  | .float _ => "float"
  | .str _ => "str"
  | .arr _ => "list"
  | .obj _ => "dict"

/-- The word for what kind of slot a slot is. -/
def Slot.noun : Slot → String
  | .leaf _ => "LeafSlot"
  | .node _ => "NodeSlot"
  | .choice _ _ => "Choice"
  | .foreign value => value.noun

/-- Why an operation fails. -/
inductive Fault where
  | grammar (fault : GrammarFault)
  | file (fault : FileFault)
  /-- Two slots cannot be joined, since the first of them is a foreign value. -/
  | notJoined (left right : Slot)
  /-- A derivation came upon a value that is no slot. -/
  | notSlot (value : Json)
  /-- A derivation needs a checked grammar. -/
  | notGrammar
  /-- A derivation came upon a name that is not defined. -/
  | undefined (name : String)
  | boundNotInteger (value : Json)
  | boundNegative (n : Int)
  /-- The depth bound is given without a value. -/
  | boundBlank
  /-- The seed is given without a value. -/
  | seedBlank
  /-- The random source has no words left. -/
  | exhausted
  /-- A negative number of random bits was asked for. -/
  | negativeBits
  /-- A leaf generator gave up. -/
  | raised (message : String)
  | undecodable (fault : Utf8.Fault)
  | integerTooLong (digits : Nat)
  /-- A whole number has too many digits to be written. -/
  | integerUnwritable
  /-- A whole number is too large for a double. -/
  | numberTooLarge
  /-- A path to be opened holds a character that no path can hold. -/
  | pathWithNul

/-- The wording for a whole number with too many digits to be written. -/
def unwritableMessage : String :=
  "Exceeds the limit (" ++ toString Integer.maxDigits ++
    " digits) for integer string conversion; use sys.set_int_max_str_digits() to increase the limit"

/-- The wording of a fault. A foreign value that cannot be written is not named. -/
def Fault.message : Fault → String
  | .grammar fault => fault.message
  | .file fault => fault.message
  | .notJoined left right =>
    "unsupported operand type(s) for |: '" ++ left.noun ++ "' and '" ++ right.noun ++ "'"
  | .notSlot value =>
    if value.isWritable then "not a slot specification: " ++ value.literal
    else unwritableMessage
  | .notGrammar => "generate() needs a validated Grammar; call GrammarBuilder.validate()"
  | .undefined name => Quoted.quote name
  | .boundNotInteger value => "max_depth must be an integer, got " ++ value.literal
  | .boundNegative n => "max_depth must be >= 0, got " ++ Integer.write n
  | .boundBlank => "'>=' not supported between instances of 'list' and 'int'"
  | .seedBlank =>
    "The only supported seed types are: None,\nint, float, str, bytes, and bytearray."
  | .exhausted => "no words left"
  | .negativeBits => "number of bits must be non-negative"
  | .raised message => message
  | .undecodable fault => fault.message
  | .integerTooLong digits =>
    "Exceeds the limit (" ++ toString Integer.maxDigits ++
      " digits) for integer string conversion: value has " ++ toString digits ++
      " digits; use sys.set_int_max_str_digits() to increase the limit"
  | .integerUnwritable => unwritableMessage
  | .numberTooLarge => "int too large to convert to float"
  | .pathWithNul => "embedded null byte"

/-- Join a slot with one more alternative, if the two can be joined. -/
def Slot.join (left right : Slot) : Except Fault Slot :=
  match left.join? right with
  | some s => .ok s
  | none => .error (.notJoined left right)

/-- The fault of a part of a configuration. -/
def Fault.config (path : String) (cause : ConfigCause) : Fault :=
  .grammar (.config ⟨path, cause⟩)

end RandomDerivation
