import RandomDerivation.FileSystem
import RandomDerivation.Json.Writer
import RandomDerivation.Text.LineEnd

/-!
# Documents in files

A file holds a JSON document as UTF-8 text. On reading, every way to end a line counts as a line
feed; on writing, the text is kept as it is and ends with a line feed.
-/

namespace RandomDerivation.Document

/-- The document that the bytes of the file at `path` hold. -/
def ofBytes (path : String) (bytes : Utf8.Bytes) : Except Fault Json := do
  let text ← (Utf8.decode bytes).mapError Fault.undecodable
  match Json.read (LineEnd.normalize text) with
  | .ok v => return v
  | .error (.malformed f) => throw (.grammar (.malformed path f))
  | .error (.tooLong digits) => throw (.integerTooLong digits)

/-- The text of a file for a document. -/
def text (v : Json) : String := v.write ++ "\n"

/-- The bytes of a file for a document. -/
def toBytes (v : Json) : Utf8.Bytes := Utf8.encode (text v).toList

/-- The document in the file at `path`. -/
def load (fs : FileSystem) (path : String) : Except Fault Json := do
  ofBytes path (← fs.read path)

/-- Write a document to the file at `path`. -/
def dump (v : Json) (path : String) : FileAction Unit := FileSystem.write path (toBytes v)

end RandomDerivation.Document
