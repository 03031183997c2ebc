import TreeWalk.Eval.Run
import TreeWalk.Source

/-!
# Sessions

A session runs one source text after the other with the same names and the same globals. What goes
wrong is collected in its sink. Steps that run a program take fuel, and have no result if it is used
up.
-/

namespace TreeWalk

structure Session where
  names : Interner := .initial
  machine : Machine := {}
  sink : Sink := {}
  log : Array Log.Record := #[]
deriving Inhabited

/-- The log record of an event. -/
def Event.record : Event → Log.Record
  | .declared cls methods => ⟨.trace, .evaluator, s!"class {cls} with {methods} methods"⟩
  | .called function args => ⟨.trace, .evaluator, s!"call {function} with {args} args"⟩

namespace Session

def tell (s : Session) (records : List Log.Record) : Session :=
  { s with log := s.log ++ records }

/-! ## Reading -/

/-- Takes note of what was wrong with a text. -/
def absorb (s : Session) (records : List Log.Record) (ds : List Diagnostic) : Session :=
  { s.tell records with sink := ds.foldl Sink.reportSyntax s.sink }

/-- Reads a text with the session's names. -/
def read (s : Session) (source : String) : SourceRead × Session :=
  let r := readSource s.names source
  (r, { s.absorb r.log r.diagnostics with names := r.names })

/-! ## Running -/

/-- Goes on with the state in which a computation ended. -/
def resume (s : Session) (m : Machine) : Session :=
  { s.tell (m.events.toList.map Event.record) with machine := { m with events := #[] } }

/-- Performs a computation. -/
def perform {α : Type} (s : Session) (act : Eval α) : Option (Except RuntimeError α × Session) :=
  match act s.names s.machine with
  | .ok a m => some (.ok a, s.resume m)
  | .fault e m => some (.error e, s.resume m)
  | .exhausted => none

/-- Reports a runtime error. -/
def reportRuntime (s : Session) (e : RuntimeError) : Session :=
  { s.tell [e.diagnostic.record] with sink := s.sink.reportRuntime e.diagnostic }

/-- Runs a program up to its first error, which is reported. -/
def interpret (fuel : Nat) (s : Session) (p : Program) : Option Session := do
  match ← s.perform (Eval.executeProgram fuel p.statements) with
  | (.ok _, s) => some s
  | (.error e, s) =>
    some ((s.tell [⟨.debug, .evaluator, "runtime error: " ++ e.message⟩]).reportRuntime e)

/-- Reads and runs a text. Nothing runs if anything is wrong with it. -/
def run (fuel : Nat) (s : Session) (source : String) : Option Session :=
  let (r, s) := s.read source
  if r.hasErrors then
    some (s.tell [⟨.debug, .evaluator, "skipping execution: syntax errors"⟩])
  else
    s.interpret fuel r.program

/-- Reports a runtime error, or passes a value on. -/
def settle {α : Type} : Except RuntimeError α × Session → Option α × Session
  | (.ok a, s) => (some a, s)
  | (.error e, s) => (none, s.reportRuntime e)

/-- Evaluates a text that is a single expression. There is no value if anything is wrong with it or
goes wrong. -/
def evaluate (fuel : Nat) (s : Session) (source : String) : Option (Option Value × Session) :=
  let r := readExpression s.names source
  let s := { s.absorb r.log r.diagnostics with names := r.names }
  match r.expr? with
  | none => some (none, s)
  | some e => (s.perform (Eval.evaluate fuel e)).map settle

/-- Calls a function or class. There is no value if something goes wrong. -/
def call (fuel : Nat) (s : Session) (callee : Value) (args : List Value) (span : Span) :
    Option (Option Value × Session) :=
  (s.perform (Eval.call fuel callee args span)).map settle

/-- Executes statements one by one in the current frame, whatever becomes of each. Errors are not
reported. -/
def executeEach (fuel : Nat) (s : Session) :
    List Stmt → Option (List (Except RuntimeError Flow) × Session)
  | [] => some ([], s)
  | stmt :: stmts => do
    let (outcome, s) ← s.perform (Eval.execute fuel stmt)
    let (outcomes, s) ← s.executeEach fuel stmts
    return (outcome :: outcomes, s)

/-! ## Globals and output -/

/-- The value of a global name. -/
def global? (s : Session) (name : String) : Option Value :=
  (s.names.get? name).bind fun sym => s.machine.store.lookup? Machine.globals sym

/-- Binds a global name. -/
def define (s : Session) (name : String) (value : Value) : Session :=
  let (sym, names) := s.names.intern name
  { s with
    names
    machine := { s.machine with store := s.machine.store.define Machine.globals sym value } }

/-- Takes out what has been printed. -/
def takeOutput (s : Session) : String × Session :=
  (s.machine.output.text,
    { s with machine := { s.machine with output := s.machine.output.emptied } })

/-- Takes out the log records. -/
def takeLog (s : Session) : List Log.Record × Session :=
  (s.log.toList, { s with log := #[] })

/-- Takes out the diagnostics; the sink's flags stay. -/
def takeDiagnostics (s : Session) : List Diagnostic × Session :=
  let (ds, sink) := s.sink.take
  (ds, { s with sink })

def resetSink (s : Session) : Session :=
  { s with sink := s.sink.reset }

end Session

end TreeWalk
