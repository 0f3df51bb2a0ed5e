import RandomDerivation.CommandLine.Run

/-!
# The program

The outer layer: arguments, standard streams and files of the system around the library.
-/

namespace RandomDerivation.Program

open CommandLine

/-- The fault of a file operation that the system refuses. -/
def fileFault (path : String) : IO.Error → Fault
  | .noFileOrDirectory _ _ _ => .file ⟨.notFound, path⟩
  | .alreadyExists _ _ _ => .file ⟨.exists, path⟩
  | .inappropriateType _ 20 _ => .file ⟨.notDirectory, path⟩
  | .inappropriateType _ _ _ => .file ⟨.isDirectory, path⟩
  | .illegalOperation _ _ => .file ⟨.isDirectory, path⟩
  | .invalidArgument _ 36 _ => .file ⟨.nameTooLong, path⟩
  | .permissionDenied _ code details => .file ⟨.other code.toNat details, path⟩
  | .noSuchThing _ code details => .file ⟨.other code.toNat details, path⟩
  | e => .file ⟨.other 5 e.toString, path⟩

/-- Run a file operation, and name the path in its fault. -/
def attempt {α : Type} (path : String) (operation : IO α) : IO (Except Fault α) := do
  match ← operation.toBaseIO with
  | .ok a => return .ok a
  | .error e => return .error (fileFault path e)

/-- The content of a file. -/
def readFile (path : String) : IO (Except Fault Utf8.Bytes) := do
  return (← attempt path (IO.FS.readBinFile path)).map ByteArray.toList

/-- Write a file, making the directories above it first. -/
def writeFile (path : String) (text : String) : IO (Except Fault Unit) := do
  let parents := String.intercalate "/" (FileSystem.names path).dropLast
  let made ← if parents = "" then pure (.ok ()) else attempt parents (IO.FS.createDirAll parents)
  match made with
  | .error f => return .error f
  | .ok () => attempt path (IO.FS.writeFile path text)

/-- Run the program on the files of the system. -/
def runArguments (args : List String) : IO Report := do
  match Invocation.parse args with
  | .error stop => return stop.report
  | .ok i =>
    let content ←
      match i.request.input? with
      | none => pure (.ok [])
      | some path => readFile path
    let entropy ← IO.rand 0 0xFFFFFFFF
    match i.request.answer entropy content {} with
    | .error f shown => return faultReport i.verbose shown f
    | .ok none shown => return successReport i.verbose shown
    | .ok (some output) shown =>
      match ← writeFile output.path output.text with
      | .error f => return faultReport i.verbose shown f
      | .ok () => return successReport i.verbose shown

end RandomDerivation.Program

/-- Run the program with the given arguments. -/
def main (args : List String) : IO UInt32 := do
  let report ← RandomDerivation.Program.runArguments args
  IO.print report.stdout
  IO.eprint report.stderr
  match report.ending with
  | .code n => return n.toUInt32
  | .fault f =>
    IO.eprintln f.message
    return 1
