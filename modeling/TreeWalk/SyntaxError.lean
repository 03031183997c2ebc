import TreeWalk.Span

/-!
# Syntax errors

What can be wrong with a source text, found while it is cut into tokens (`ScanError`) or while the
tokens are read as a program (`ParseError`). Each error has a place, a stable code and a message.
-/

namespace TreeWalk

/-- An error in the words of a text. -/
inductive ScanError where
  | unexpectedChar (ch : Char) (span : Span)
  | unterminatedString (span : Span)
deriving DecidableEq, Repr, Inhabited

namespace ScanError

def span : ScanError → Span
  | unexpectedChar _ span | unterminatedString span => span

def code : ScanError → String
  | unexpectedChar .. => "E0101"
  | unterminatedString .. => "E0102"

def message : ScanError → String
  | unexpectedChar ch _ => s!"unexpected character '{ch}'"
  | unterminatedString _ => "unterminated string"

end ScanError

/-- The lists whose length is limited. -/
inductive ItemKind where
  | parameters
  | arguments
  | tupleElements
deriving DecidableEq, Repr, Inhabited

namespace ItemKind

def text : ItemKind → String
  | parameters => "parameters"
  | arguments => "arguments"
  | tupleElements => "tuple elements"

end ItemKind

/-- An error in the order of the words. `found` is the source text of the word that does not fit; it
is empty at the end of the input. -/
inductive ParseError where
  | unexpectedToken (expected found : String) (span : Span)
  | expectedExpression (found : String) (span : Span)
  | expectedIdentifier (context found : String) (span : Span)
  | invalidAssignmentTarget (span : Span)
  | tooManyItems (kind : ItemKind) (span : Span)
  | invalidPattern (message : String) (span : Span)
deriving DecidableEq, Repr, Inhabited

namespace ParseError

def span : ParseError → Span
  | unexpectedToken _ _ span | expectedExpression _ span | expectedIdentifier _ _ span
  | invalidAssignmentTarget span | tooManyItems _ span | invalidPattern _ span => span

def code : ParseError → String
  | unexpectedToken .. => "E0201"
  | expectedExpression .. => "E0202"
  | expectedIdentifier .. => "E0203"
  | invalidAssignmentTarget .. => "E0204"
  | tooManyItems .. => "E0205"
  | invalidPattern .. => "E0206"

/-- The word found, in quotes, or the end of the input. -/
def describeFound (found : String) : String :=
  if found.isEmpty then "end of input" else s!"'{found}'"

def message : ParseError → String
  | unexpectedToken expected found _ => s!"expected {expected}, found " ++ describeFound found
  | expectedExpression found _ => "expected expression, found " ++ describeFound found
  | expectedIdentifier context found _ => s!"expected {context}, found " ++ describeFound found
  | invalidAssignmentTarget _ => "invalid assignment target"
  | tooManyItems kind _ => "cannot have more than 255 " ++ kind.text
  | invalidPattern message _ => "invalid pattern: " ++ message

/-- Whether reading goes on inside the declaration the error stands in. -/
def isRecoverable : ParseError → Bool
  | invalidAssignmentTarget .. | tooManyItems .. => true
  | _ => false

/-- Advice to the reader. -/
def suggestion? : ParseError → Option String
  | invalidAssignmentTarget .. => some "only a variable or a property can be assigned to"
  | tooManyItems .. => some "group related values in a tuple or vector"
  | _ => none

end ParseError

end TreeWalk
