import TreeWalk.Diagnostic.Basic
import TreeWalk.Log
import TreeWalk.Parser.Stmt
import TreeWalk.Scan

/-!
# Reading source texts

A source text is scanned and its tokens are read as a program. Both always come to an end, with a
list of what was wrong.
-/

namespace TreeWalk

/-- A source text that has been read. -/
structure SourceRead where
  scan : Scan
  parsed : Parsed
deriving Inhabited

/-- Reads a source text. New names are entered behind those of `names`. -/
def readSource (names : Interner) (source : String) : SourceRead :=
  let found := scan names source
  { scan := found, parsed := parse source found.tokens }

/-- The log record of a diagnostic. -/
def Diagnostic.record (d : Diagnostic) : Log.Record :=
  ⟨.debug, .diagnostics, "diagnostic: " ++ d.message⟩

/-- The log records of a scan. -/
def Scan.log (s : Scan) : List Log.Record :=
  s.errors.map (fun e => ⟨.trace, .scanner, e.message ++ " at " ++ e.span.display⟩)
    ++ [⟨.debug, .scanner, s!"scanned {s.tokens.length} tokens, {s.errors.length} errors"⟩]

/-- The log record of something a parser noted. -/
def Parser.Note.record : Parser.Note → Log.Record
  | .error e => ⟨.trace, .parser, "parse error: " ++ e.message⟩
  | .resumed span => ⟨.trace, .parser, "resynchronized at " ++ span.display⟩

/-- The log records of reading a program. -/
def Parsed.log (p : Parsed) : List Log.Record :=
  p.notes.map Parser.Note.record
    ++ [⟨.debug, .parser,
      s!"parsed {p.program.statements.length} statements, {p.errors.length} errors"⟩]

namespace SourceRead

def program (r : SourceRead) : Program :=
  r.parsed.program

/-- The table of names afterwards. -/
def names (r : SourceRead) : Interner :=
  r.scan.names

/-- What was wrong with the words, and then what was wrong with their order. -/
def diagnostics (r : SourceRead) : List Diagnostic :=
  r.scan.errors.map ScanError.diagnostic ++ r.parsed.errors.map ParseError.diagnostic

def hasErrors (r : SourceRead) : Bool :=
  !r.diagnostics.isEmpty

/-- The log records, in order. -/
def log (r : SourceRead) : List Log.Record :=
  r.scan.log ++ r.scan.errors.map (fun e => e.diagnostic.record)
    ++ r.parsed.log ++ r.parsed.errors.map (fun e => e.diagnostic.record)

end SourceRead

/-- A source text that has been read as a single expression. -/
structure ExprRead where
  scan : Scan
  reply : Parser.Reply Expr

/-- Reads a source text as a single expression. -/
def readExpression (names : Interner) (source : String) : ExprRead :=
  let found := scan names source
  { scan := found, reply := Parser.completeExpression.run source found.tokens }

namespace ExprRead

/-- The table of names afterwards. -/
def names (r : ExprRead) : Interner :=
  r.scan.names

/-- The errors the parser met: those it went on after, and then the one that stopped it. -/
def parseErrors (r : ExprRead) : List ParseError :=
  match r.reply with
  | .ok _ s => s.errors
  | .fail e s => s.errors ++ [e]

/-- What was wrong with the words, and then what was wrong with their order. -/
def diagnostics (r : ExprRead) : List Diagnostic :=
  r.scan.errors.map ScanError.diagnostic ++ r.parseErrors.map ParseError.diagnostic

/-- The expression, if nothing was wrong. -/
def expr? (r : ExprRead) : Option Expr :=
  match r.reply with
  | .ok e _ => if r.diagnostics.isEmpty then some e else none
  | .fail _ _ => none

/-- The log records, in order. -/
def log (r : ExprRead) : List Log.Record :=
  r.scan.log ++ r.scan.errors.map (fun e => e.diagnostic.record)
    ++ r.reply.state.notes.map Parser.Note.record ++
      r.parseErrors.map (fun e => e.diagnostic.record)

end ExprRead

end TreeWalk
