import TreeWalk.SyntaxError

/-!
# Diagnostics

What is told to the user about a source text. A `Sink` collects diagnostics and remembers whether a
syntax error and whether a runtime error was among them.
-/

namespace TreeWalk

inductive Severity where
  | error
  | warning
  | note
  | help
deriving DecidableEq, Repr, Inhabited

namespace Severity

def text : Severity → String
  | error => "error"
  | warning => "warning"
  | note => "note"
  | help => "help"

/-- The terminal's code for the colour of a severity. -/
def color : Severity → String
  | error => "\x1b[31m"
  | warning => "\x1b[33m"
  | note => "\x1b[36m"
  | help => "\x1b[32m"

end Severity

structure Diagnostic where
  severity : Severity
  code : Option String := none
  message : String
  span : Span
  /-- Advice, each on a line of its own. -/
  suggestions : List String := []
  /-- Remarks about other places. -/
  notes : List (String × Span) := []
deriving DecidableEq, Repr, Inhabited

def ScanError.diagnostic (e : ScanError) : Diagnostic :=
  { severity := .error, code := some e.code, message := e.message, span := e.span }

def ParseError.diagnostic (e : ParseError) : Diagnostic :=
  { severity := .error, code := some e.code, message := e.message, span := e.span,
    suggestions := e.suggestion?.toList }

/-- The diagnostics collected so far. -/
structure Sink where
  diagnostics : Array Diagnostic := #[]
  hadSyntaxError : Bool := false
  hadRuntimeError : Bool := false
deriving Inhabited

namespace Sink

/-- Whether an error of either sort was reported. -/
def hasErrors (s : Sink) : Bool :=
  s.hadSyntaxError || s.hadRuntimeError

/-- Records a diagnostic and leaves the flags alone. -/
def push (s : Sink) (d : Diagnostic) : Sink :=
  { s with diagnostics := s.diagnostics.push d }

/-- Records a syntax error. -/
def reportSyntax (s : Sink) (d : Diagnostic) : Sink :=
  { s.push d with hadSyntaxError := true }

/-- Records a runtime error. -/
def reportRuntime (s : Sink) (d : Diagnostic) : Sink :=
  { s.push d with hadRuntimeError := true }

/-- Takes the diagnostics out; the flags stay. -/
def take (s : Sink) : List Diagnostic × Sink :=
  (s.diagnostics.toList, { s with diagnostics := #[] })

/-- Forgets everything. -/
def reset (_ : Sink) : Sink := {}

end Sink

end TreeWalk
