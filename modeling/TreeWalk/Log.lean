import TreeWalk.Text

/-!
# Log lines

The program tells what it is doing in records of five levels. A logger writes those that are at
least as severe as its own level.
-/

namespace TreeWalk.Log

inductive Level where
  | error
  | warn
  | info
  | debug
  | trace
deriving DecidableEq, Repr, Inhabited

namespace Level

/-- The most severe level is 0. -/
def rank : Level → Nat
  | error => 0
  | warn => 1
  | info => 2
  | debug => 3
  | trace => 4

def label : Level → String
  | error => "ERROR"
  | warn => "WARN"
  | info => "INFO"
  | debug => "DEBUG"
  | trace => "TRACE"

/-- The terminal's code for the colour of a level. -/
def color : Level → String
  | error => "\x1b[31m"
  | warn => "\x1b[33m"
  | info => "\x1b[32m"
  | debug => "\x1b[36m"
  | trace => "\x1b[35m"

/-- More severe than. -/
def less (a b : Level) : Bool :=
  a.rank < b.rank

/-- The level with this name. Case and white space around the name do not matter. -/
def ofText? (text : String) : Option Level :=
  match String.ofList (Text.lowerAscii (Text.trim text.toList)) with
  | "error" => some error
  | "warn" | "warning" => some warn
  | "info" => some info
  | "debug" => some debug
  | "trace" => some trace
  | _ => none

/-- What is said about a text that names no level. -/
def unknown (text : String) : String :=
  s!"invalid log level '{text}' (expected error, warn, info, debug or trace)"

end Level

/-- The part of the program that tells. -/
inductive Origin where
  | program
  | logger
  | scanner
  | parser
  | diagnostics
  | evaluator
deriving DecidableEq, Repr, Inhabited

/-- The name of a part in a log line. -/
def Origin.path : Origin → String
  | .program => "wox"
  | .logger => "wox_log"
  | .scanner => "wox_syntax::lexer"
  | .parser => "wox_syntax::parser"
  | .diagnostics => "wox_syntax::diagnostic"
  | .evaluator => "wox_interpreter::interpreter"

structure Record where
  level : Level
  origin : Origin
  text : String
deriving DecidableEq, Repr, Inhabited

/-- What is written, and whether in colour. -/
structure Logger where
  level : Level := .warn
  colors : Bool := true
deriving DecidableEq, Repr, Inhabited

namespace Logger

/-- Whether records of a level are written. -/
def enabled (l : Logger) (level : Level) : Bool :=
  level.rank ≤ l.level.rank

/-- The line for a record. -/
def line (l : Logger) (r : Record) : String :=
  let label := "[" ++ r.level.label ++ "]"
  let label := if l.colors then r.level.color ++ label ++ "\x1b[0m" else label
  label ++ " " ++ r.origin.path ++ ": " ++ r.text ++ "\n"

/-- The lines for those records that are written. -/
def lines (l : Logger) (records : List Record) : String :=
  String.join ((records.filter fun r => l.enabled r.level).map l.line)

end Logger

end TreeWalk.Log
