import TreeWalk.CommandLine
import TreeWalk.Diagnostic.Render
import TreeWalk.Printer.Layout
import TreeWalk.Printer.Sexp
import TreeWalk.Session

/-!
# The program as seen from a terminal

A console has a session and keeps what it would write to the two output streams. Scripts and prompts
run on it and end with an exit code.
-/

namespace TreeWalk

/-- The settings a program finds around it. -/
structure Surroundings where
  /-- The value of the variable for the log level. -/
  logLevel : Option String := none
  /-- Whether the variable that turns colours off is set. -/
  noColor : Bool := false
deriving DecidableEq, Repr, Inhabited

/-- The name of the variable for the log level. -/
def Surroundings.logVariable : String := "WOX_LOG"

/-- The name of the variable that turns colours off. -/
def Surroundings.colorVariable : String := "NO_COLOR"

/-- How the program ended. -/
inductive Exit where
  | success
  /-- The arguments made no sense. -/
  | badUsage
  /-- The script has a syntax error. -/
  | badSyntax
  /-- The script failed while it ran. -/
  | failure
  /-- The input could not be read. -/
  | unreadable
deriving DecidableEq, Repr, Inhabited

/-- The code the system is given. -/
def Exit.code : Exit → Nat
  | success => 0
  | badUsage => 64
  | badSyntax => 65
  | failure => 70
  | unreadable => 74

/-- Why bytes could not be read as a text. -/
inductive ReadError where
  | notFound
  | denied
  | notDirectory
  | isDirectory
  | nameTooLong
  | badEncoding
  | other (text : String)
deriving DecidableEq, Repr, Inhabited

def ReadError.message : ReadError → String
  | notFound => "No such file or directory (os error 2)"
  | denied => "Permission denied (os error 13)"
  | notDirectory => "Not a directory (os error 20)"
  | isDirectory => "Is a directory (os error 21)"
  | nameTooLong => "File name too long (os error 36)"
  | badEncoding => "stream did not contain valid UTF-8"
  | other text => text

/-- The text that bytes stand for. -/
def decode (bytes : List UInt8) : Except ReadError String :=
  match String.fromUTF8? ⟨bytes.toArray⟩ with
  | some text => .ok text
  | none => .error .badEncoding

structure Console where
  session : Session := {}
  logger : Log.Logger := {}
  /-- Whether diagnostics are written in colour. -/
  colors : Bool := true
  dump : Option DumpFormat := none
  stdout : String := ""
  stderr : String := ""
deriving Inhabited

namespace Console

def print (c : Console) (text : String) : Console :=
  { c with stdout := c.stdout ++ text }

def complain (c : Console) (text : String) : Console :=
  { c with stderr := c.stderr ++ text }

/-- Writes those log records that the logger lets through. -/
def writeLog (c : Console) (records : List Log.Record) : Console :=
  c.complain (c.logger.lines records)

/-- Sets the log level by name. A name that is none is reported, and the level stays. -/
def setLevel (c : Console) (text : String) : Console :=
  match Log.Level.ofText? text with
  | some level => { c with logger := { c.logger with level } }
  | none =>
    c.writeLog [⟨.warn, .logger, Surroundings.logVariable ++ ": " ++ Log.Level.unknown text⟩]

/-- A console for the given options. The surroundings come first, so that a report about them has
their colours. -/
def start (env : Surroundings) (o : Options) : Console :=
  let c : Console := { logger := { colors := !env.noColor }, dump := o.dump }
  let c := match env.logLevel with
    | some text => c.setLevel text
    | none => c
  let colors := !o.noColor && !env.noColor
  { c with colors, logger := { level := o.logLevel.getD c.logger.level, colors } }

/-! ## Running texts -/

/-- Writes what the session has printed, logged and found wrong with `source`. -/
def report (c : Console) (source : String) : Console :=
  let (text, session) := c.session.takeOutput
  let (records, session) := session.takeLog
  let (ds, session) := session.takeDiagnostics
  (({ c with session }.print text).writeLog records).complain
    (Diagnostic.renderAll c.colors source ds)

/-- A text with its last line ended. -/
def endLine (text : String) : String :=
  if text.isEmpty || text.endsWith "\n" then text else text ++ "\n"

/-- A program in a given format. -/
def dumpText (names : Interner) (p : Program) : DumpFormat → String
  | .pretty => endLine (p.text names Layout.defaultIndent)
  | .sexpr => endLine (p.dump names)

/-- Runs a source text, or writes it in the format asked for. -/
def run (fuel : Nat) (c : Console) (source : String) : Option Console :=
  match c.dump with
  | none => (c.session.run fuel source).map fun session => { c with session }.report source
  | some format =>
    let (r, session) := c.session.read source
    some (({ c with session }.print (dumpText session.names r.program format)).report source)

/-! ## Scripts -/

/-- How a script ended. -/
def exit (c : Console) : Exit :=
  if c.session.sink.hadSyntaxError then .badSyntax
  else if c.session.sink.hadRuntimeError then .failure
  else .success

/-- Runs a script from its contents. -/
def runScript (fuel : Nat) (c : Console) (path : String)
    (contents : Except ReadError (List UInt8)) :
    Option (Exit × Console) :=
  match contents.bind decode with
  | .error e => some (.unreadable, c.complain s!"error: cannot read '{path}': {e.message}\n")
  | .ok source =>
    ((c.writeLog [⟨.info, .program, "running " ++ path⟩]).run fuel source).map fun c => (c.exit, c)

/-! ## The prompt -/

/-- Whether a line asks to quit. -/
def isQuit (line : String) : Bool :=
  line.startsWith ":q" || line.startsWith ":Q"

def openPrompt (c : Console) : Console :=
  c.writeLog [⟨.info, .program, "starting interactive session"⟩]

/-- Asks for a line. -/
def ask (c : Console) : Console :=
  c.print "> "

/-- Ends the prompt at the end of the input. -/
def leave (c : Console) : Exit × Console :=
  (.success, c.print "\n")

/-- Deals with a line, given without its end. There is an exit if it was the last one. -/
def answer (fuel : Nat) (c : Console) (line : List UInt8) : Option (Option Exit × Console) :=
  match decode line with
  | .error e => some (some .unreadable, c.complain s!"error: {e.message}\n")
  | .ok text =>
    if isQuit text then
      some (some .success, c.print "Quitting...\n")
    else
      (c.run fuel text).map fun c => (none, { c with session := c.session.resetSink })

/-- Asks for one line after the other. -/
def prompt (fuel : Nat) (c : Console) : List (List UInt8) → Option (Exit × Console)
  | [] => some c.ask.leave
  | line :: lines =>
    match c.ask.answer fuel line with
    | none => none
    | some (some exit, c) => some (exit, c)
    | some (none, c) => c.prompt fuel lines

end Console

/-- The lines of an input, without their ends. -/
def inputLines (bytes : List UInt8) : List (List UInt8) :=
  Text.lines 10 13 bytes

end TreeWalk
