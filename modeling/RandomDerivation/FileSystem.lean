import RandomDerivation.Fault

/-!
# A file system

Directories and files as a value: enough to say what reading a file gives, and what writing one
changes, for every path a caller may ask for. Paths are resolved from a working directory, which
exists with all the directories above it.

## Main definitions

* `FileSystem`: the files and directories that are known.
* `FileSystem.read`: the content of a file.
* `FileSystem.makeParents`, `FileSystem.create`, `FileSystem.write`: a new content for a file,
  after the directories on the way to it have been made.
* `FileSystem.changes`: the files that differ between two file systems.
-/

namespace RandomDerivation

/-- A place of the file system: the names on the way to it from the top. -/
abbrev Place := List String

/-- The text of a place. -/
def Place.text (place : Place) : String :=
  if place = [""] then "/" else String.intercalate "/" place

/-- What stands at a place. -/
inductive Entry where
  | file (content : Utf8.Bytes)
  | directory
  deriving DecidableEq

/-- The files and directories that are known. -/
structure FileSystem where
  /-- The working directory. -/
  home : Place
  entries : List (Place × Entry) := []

/-- A computation on the file system that may fail. What it changed before a fault stays
changed. -/
abbrev FileAction (α : Type) := EStateM Fault FileSystem α

namespace FileSystem

/-- What stands at a place. The working directory and those above it are directories. -/
def entryAt (fs : FileSystem) (place : Place) : Option Entry :=
  if place.isPrefixOf fs.home || place = [""] then some .directory else fs.entries.lookup place

/-- Put an entry at a place. -/
def put (fs : FileSystem) (place : Place) (entry : Entry) : FileSystem :=
  { fs with entries := (place, entry) :: fs.entries.filter (fun e => e.1 ≠ place) }

/-- The directory above a place; there is none above the top. -/
def above (place : Place) : Place := if place.length ≤ 1 then place else place.dropLast

/-- The most bytes that a name may have. -/
def maxNameBytes : Nat := 255

/-- The most bytes that a path may have. -/
def maxPathBytes : Nat := 4095

/-- The names of a path. A path that starts at the top has an empty one in front. -/
def names (path : String) : List String := (path.toList.splitOn '/').map String.ofList

/-- Where a path starts: at the top or in the working directory. -/
def startOf (fs : FileSystem) (path : String) : Place :=
  if path.toList.head? = some '/' then [""] else fs.home

/-- Whether a path holds the one character that no path can hold. -/
def hasNul (path : String) : Bool := path.toList.contains '\x00'

/-- One step of a path from a place, which has to be a directory, to a place that has to exist. -/
def enter (fs : FileSystem) (place : Place) (name : String) : Except FileCause Place :=
  match fs.entryAt place with
  | none => .error .notFound
  | some (.file _) => .error .notDirectory
  | some .directory =>
    if name = "" ∨ name = "." then .ok place
    else if name = ".." then .ok (above place)
    else if maxNameBytes < name.utf8ByteSize then .error .nameTooLong
    else if (fs.entryAt (place ++ [name])).isSome then .ok (place ++ [name])
    else .error .notFound

/-- The content of the file that a path leads to. -/
def content (fs : FileSystem) (path : String) : Except FileCause Utf8.Bytes := do
  if path = "" then throw .notFound
  if maxPathBytes < path.utf8ByteSize then throw .nameTooLong
  let place ← (names path).foldlM fs.enter (fs.startOf path)
  match fs.entryAt place with
  | some (.file bytes) => return bytes
  | some .directory => throw .isDirectory
  | none => throw .notFound

/-- Read the file that a path leads to. -/
def read (fs : FileSystem) (path : String) : Except Fault Utf8.Bytes :=
  if hasNul path then .error .pathWithNul
  else (fs.content path).mapError fun cause => .file ⟨cause, path⟩

/-- The place that a path means when `.` and `..` are taken out of it by their wording alone. -/
def normalized (fs : FileSystem) (path : String) : Place :=
  (names path).foldl (fun place name =>
    if name = "" ∨ name = "." then place
    else if name = ".." then above place
    else place ++ [name]) (fs.startOf path)

/-- What stands in front of a place when it is written out for a path: a path that starts with
two slashes, and no more, keeps both of them. -/
def lead (path : String) : String :=
  if (path.toList.takeWhile (· = '/')).length = 2 then "/" else ""

/-- Make a directory at a place, which the path names, unless there is one. -/
def makePlace (path : String) (place : Place) : FileAction Unit := do
  let fs ← get
  let refuse (cause : FileCause) : FileAction Unit := throw (.file ⟨cause, path⟩)
  if hasNul path then throw .pathWithNul
  else if maxPathBytes < path.utf8ByteSize then refuse .nameTooLong
  else
    match fs.entryAt place, fs.entryAt (above place) with
    | some .directory, _ => pure ()
    | some (.file _), _ => refuse .exists
    | none, none => refuse .notFound
    | none, some (.file _) => refuse .notDirectory
    | none, some .directory =>
      if maxNameBytes < (place.getLastD "").utf8ByteSize then refuse .nameTooLong
      else set (fs.put place .directory)

/-- Make the directories on the way from a place down through the given names. Whatever already
stands on the way is passed by; only the last one has to be a directory. -/
def makeDirectories (lead : String) (place : Place) : List String → FileAction Unit
  | [] => pure ()
  | name :: rest => do
    let here := place ++ [name]
    unless !rest.isEmpty && ((← get).entryAt here).isSome do
      makePlace (lead ++ Place.text here) here
    makeDirectories lead here rest

/-- Make the directory that a path means, with all above it. -/
def makeDirectory (path : String) : FileAction Unit := do
  makeDirectories (lead path) [] ((← get).normalized path)

/-- Make the directories above the place that a path means. -/
def makeParents (path : String) : FileAction Unit := do
  makeDirectories (lead path) [] (above ((← get).normalized path))

/-- The place where a path creates a file: in an existing directory, under a name that is not
that of a directory. -/
def target (fs : FileSystem) (path : String) : Except FileCause Place := do
  if path = "" then throw .notFound
  if maxPathBytes < path.utf8ByteSize then throw .nameTooLong
  let trimmed := (names path).reverse.dropWhile (· = "")
  match trimmed with
  | [] => throw .isDirectory
  | last :: before =>
    let place ← before.reverse.foldlM fs.enter (fs.startOf path)
    match fs.entryAt place with
    | none => throw .notFound
    | some (.file _) => throw .notDirectory
    | some .directory =>
      if path.toList.getLast? = some '/' ∨ last = "." ∨ last = ".." then throw .isDirectory
      if maxNameBytes < last.utf8ByteSize then throw .nameTooLong
      if fs.entryAt (place ++ [last]) = some .directory then throw .isDirectory
      return place ++ [last]

/-- Give the file that a path leads to a new content; the file may be new, its directory not. -/
def create (path : String) (bytes : Utf8.Bytes) : FileAction Unit := do
  if hasNul path then throw .pathWithNul
  match (← get).target path with
  | .ok place => modify (·.put place (.file bytes))
  | .error cause => throw (.file ⟨cause, path⟩)

/-- Give the file that a path leads to a new content, making the directories above it first. -/
def write (path : String) (bytes : Utf8.Bytes) : FileAction Unit := do
  makeParents path
  create path bytes

/-- The files below the working directory that are in `after` and not in `before` with the same
content, named from the working directory. -/
def changes (before after : FileSystem) : List (String × Utf8.Bytes) :=
  after.entries.filterMap fun (place, entry) =>
    match entry with
    | .directory => none
    | .file bytes =>
      if before.entryAt place = some entry || !after.home.isPrefixOf place then none
      else some (Place.text (place.drop after.home.length), bytes)

end FileSystem

end RandomDerivation
