import TreeWalk.Diagnostic.Basic

/-!
# Rendering diagnostics

A diagnostic is a header line, the source line it points into with carets underneath, and a line for
each suggestion and note. The carets cover the first line of the text the diagnostic is about,
within the source line, and there is always one.
-/

namespace TreeWalk

/-- The terminal's code for the end of a colour. -/
def Severity.resetColor : String := "\x1b[0m"

/-- A text in the colour of a severity, if colours are on. -/
def Severity.paint (colors : Bool) (s : Severity) (text : String) : String :=
  if colors then s.color ++ text ++ resetColor else text

/-- The name of a severity, as it is shown. -/
def Severity.label (colors : Bool) (s : Severity) : String :=
  s.paint colors s.text

namespace Diagnostic

/-- The line of `source` that a span starts in. -/
def sourceLine? (source : String) (span : Span) : Option (List Char) :=
  (Text.sourceLines source)[span.line - 1]?

/-- How many characters the first line of the span's text has. -/
def highlighted (source : String) (span : Span) : Nat :=
  match span.chars? source with
  | none => 0
  | some cs => ((Text.lines '\n' '\r' cs).headD []).length

/-- How many characters stand in front of the carets. -/
def caretIndent (span : Span) : Nat :=
  span.column - 1

/-- How many carets stand under `line`. -/
def caretCount (source : String) (line : List Char) (span : Span) : Nat :=
  max 1 (min (highlighted source span) (line.length - caretIndent span))

/-- The source line and the carets. -/
def snippet (colors : Bool) (severity : Severity) (span : Span) (source : String) : String :=
  match sourceLine? source span with
  | none => ""
  | some line =>
    Text.padLeft 4 (toString span.line) ++ " | " ++ String.ofList line ++ "\n"
      ++ "     | " ++ Text.times (caretIndent span) " "
      ++ severity.paint colors (Text.times (caretCount source line span) "^") ++ "\n"

def header (colors : Bool) (d : Diagnostic) : String :=
  let code := match d.code with
    | some code => "[" ++ code ++ "]"
    | none => ""
  "[" ++ d.span.display ++ "] " ++ d.severity.label colors ++ code ++ ": " ++ d.message ++ "\n"

def suggestionLine (colors : Bool) (suggestion : String) : String :=
  "     = " ++ Severity.help.label colors ++ ": " ++ suggestion ++ "\n"

def noteLine (colors : Bool) (note : String × Span) : String :=
  "     = " ++ Severity.note.label colors ++ " at " ++ note.2.display ++ ": " ++ note.1 ++ "\n"

/-- The text of a diagnostic about `source`. -/
def render (colors : Bool) (source : String) (d : Diagnostic) : String :=
  d.header colors ++ snippet colors d.severity d.span source
    ++ String.join (d.suggestions.map (suggestionLine colors))
    ++ String.join (d.notes.map (noteLine colors))

/-- The text of several diagnostics, in order. -/
def renderAll (colors : Bool) (source : String) (ds : List Diagnostic) : String :=
  String.join (ds.map (render colors source))

end Diagnostic

end TreeWalk
