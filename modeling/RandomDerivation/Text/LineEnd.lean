/-!
# Line ends

A text that is read may end its lines with a line feed, a carriage return or both in turn; what
follows sees line feeds only.
-/

namespace RandomDerivation.LineEnd

/-- Every carriage return becomes a line feed, taking a line feed behind it along. -/
def normalize : List Char → List Char
  | [] => []
  | '\r' :: '\n' :: rest => '\n' :: normalize rest
  | '\r' :: rest => '\n' :: normalize rest
  | c :: rest => c :: normalize rest

end RandomDerivation.LineEnd
