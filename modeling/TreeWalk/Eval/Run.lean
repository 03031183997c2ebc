import TreeWalk.Eval.Classes
import TreeWalk.Eval.Operators
import TreeWalk.Match

/-!
# Running programs

Expressions are evaluated, statements executed and functions called with some fuel, which bounds how
deep they nest and how often a loop goes round. More fuel never changes an outcome that there was.
-/

namespace TreeWalk

/-- How a statement ended: by going on, or on the way out of a function. -/
inductive Flow where
  | normal
  | returned (value : Value) (span : Span)
deriving Repr, Inhabited

namespace Eval

/-! ## Parts in order -/

/-- Evaluates all, from left to right. -/
def evaluateAll (eval : Expr → Eval Value) : List Expr → Eval (List Value)
  | [] => return []
  | e :: es => do
    let v ← eval e
    let vs ← evaluateAll eval es
    return v :: vs

/-- Evaluates all for the value of the last; `last` is the value of none. -/
def evaluateLast (eval : Expr → Eval Value) (last : Value) : List Expr → Eval Value
  | [] => return last
  | e :: es => do
    let v ← eval e
    evaluateLast eval v es

/-- Executes statements up to the first that returns. -/
def executeAll (exec : Stmt → Eval Flow) : List Stmt → Eval Flow
  | [] => return .normal
  | s :: ss => do
    match ← exec s with
    | .normal => executeAll exec ss
    | .returned v span => return .returned v span

/-- Goes round while `test` holds: `body`, then `step`. A `body` that returns ends it. -/
def repeatWhile (test : Eval Bool) (body : Eval Flow) (step : Eval Unit) : Nat → Eval Flow
  | 0 => exhausted
  | n + 1 => do
    if ← test then
      match ← body with
      | .normal => do
        step
        repeatWhile test body step n
      | .returned v span => return .returned v span
    else
      return .normal

/-- The value of an optional expression; `nil` if there is none. -/
def optional (eval : Expr → Eval Value) : Option Expr → Eval Value
  | none => return .nil
  | some e => eval e

/-- Whether an expression is true. -/
def holds (eval : Expr → Eval Value) (e : Expr) : Eval Bool := do
  let v ← eval e
  return v.isTruthy

/-- Whether the condition of a loop is true, as it is if there is none. -/
def holdsIfGiven (eval : Expr → Eval Value) : Option Expr → Eval Bool
  | none => return true
  | some e => holds eval e

/-- Evaluates an optional expression for its effect. -/
def effect (eval : Expr → Eval Value) (e : Option Expr) : Eval Unit := do
  let _ ← optional eval e
  return ()

/-- Executes the first part of a loop's header, if there is one. -/
def prepare (exec : Stmt → Eval Flow) : Option Stmt → Eval Unit
  | none => return ()
  | some s => do
    let _ ← exec s
    return ()

/-! ## Cases -/

/-- The value of an arm whose pattern matched, unless its guard forbids it. -/
def armValue (eval : Expr → Eval Value) (arm : CaseArm) : Eval (Option Value) := do
  match arm.guard with
  | none => return some (← eval arm.body)
  | some guard => do
    let v ← eval guard
    if v.isTruthy then
      return some (← eval arm.body)
    else
      return none

/-- Tries a pattern. -/
def matching (pattern : Pattern) (v : Value) : Eval (Bool × List Binding) := fun names m =>
  .ok (pattern.tryMatch names v []) m

/-- The value of the first arm that takes `v`. -/
def firstArm (eval : Expr → Eval Value) (v : Value) (span : Span) : List CaseArm → Eval Value
  | [] => do
    raise (.nonExhaustiveMatch (← query (·.printed v)) span)
  | arm :: arms => do
    match ← matching arm.pattern v with
    | (false, _) => firstArm eval v span arms
    | (true, bound) => do
      match ← nested bound (armValue eval arm) with
      | some result => return result
      | none => firstArm eval v span arms

/-! ## Calls -/

/-- The receiver of a method; `nil` outside any. -/
def receiver (c : Closure) : Eval Value :=
  query fun s => (s.lookup? c.scope .this).getD .nil

/-- Runs a function's body in a new frame with its arguments. -/
def invoke (exec : Stmt → Eval Flow) (c : Closure) (args : List Value) : Eval Value := do
  record (.called c.name args.length)
  let flow ← within c.scope ((c.decl.params.map Ident.name).zip args) (executeAll exec c.decl.body)
  if c.isInitializer then
    receiver c
  else
    match flow with
    | .normal => return .nil
    | .returned v _ => return v

/-- Makes an object of a class and has it made ready. -/
def instantiate (exec : Stmt → Eval Flow) (c : ClassId) (args : List Value) (span : Span) :
    Eval Value := do
  let object : Value := .object (← update (·.addObject { cls := c }))
  let name ← query (·.className c)
  match ← query (·.findMethod? c .init) with
  | some init => do
    checkArity name init.arity args.length span
    let ready ← bindMethod init object
    let _ ← invoke exec ready args
    return object
  | none => do
    checkArity name 0 args.length span
    return object

/-- Calls a function or a class. -/
def callWith (exec : Stmt → Eval Flow) (callee : Value) (args : List Value) (span : Span) :
    Eval Value := do
  match callee with
  | .function f =>
    match ← query (·.functions[f]?) with
    | some c => do
      checkArity c.name c.arity args.length span
      invoke exec c args
    | none => raise (.notCallable callee.typeName span)
  | .class_ c => instantiate exec c args span
  | other => raise (.notCallable other.typeName span)

/-! ## Programs -/

mutual

/-- Evaluates an expression in the current frame. -/
def evaluate : Nat → Expr → Eval Value
  | 0, _ => exhausted
  | n + 1, e =>
    match e with
    | .literal value _ => fun names m => .ok (.ofLiteral names value) m
    | .grouping inner _ => evaluate n inner
    | .unary op operand span => do
      let v ← evaluate n operand
      ofExcept (op.apply v span)
    | .binary left op right span => do
      let l ← evaluate n left
      match op.decided? l with
      | some v => return v
      | none => do
        let r ← evaluate n right
        ofExcept (op.apply l r span)
    | .var name => lookup name
    | .assign name value => do
      let v ← evaluate n value
      assign name v
    | .call callee args span => do
      let f ← evaluate n callee
      let vs ← evaluateAll (evaluate n) args
      call n f vs span
    | .get object name => do
      let o ← evaluate n object
      property o name
    | .set object name value => do
      match ← evaluate n object with
      | .object o => do
        let v ← evaluate n value
        update fun s => (v, s.setField o name.name v)
      | other => raise (.notAnInstance other.typeName name.span)
    | .this span => lookup ⟨.this, span⟩
    | .super method span => superMethod method span
    | .letIn name definition body _ => do
      let v ← evaluate n definition
      nested [(name.name, v)] (evaluate n body)
    | .seq body _ => nested [] (evaluateLast (evaluate n) .nil body)
    | .cond condition yes no _ => do
      let v ← evaluate n condition
      if v.isTruthy then evaluate n yes else evaluate n no
    | .tuple elements _ => do
      return .tuple (← evaluateAll (evaluate n) elements)
    | .vector elements _ => do
      return .vector (← evaluateAll (evaluate n) elements)
    | .case scrutinee arms span => do
      let v ← evaluate n scrutinee
      firstArm (evaluate n) v span arms

/-- Executes a statement in the current frame. -/
def execute : Nat → Stmt → Eval Flow
  | 0, _ => exhausted
  | n + 1, s =>
    match s with
    | .expr e => do
      let _ ← evaluate n e
      return .normal
    | .print e span => do
      let v ← evaluate n e
      print v span
      return .normal
    | .varDecl name initializer => do
      let v ← optional (evaluate n) initializer
      define name.name v
      return .normal
    | .block statements _ => nested [] (executeAll (execute n) statements)
    | .fnDecl decl => do
      declareFunction decl
      return .normal
    | .classDecl name superclass methods => do
      declareClass name superclass methods
      return .normal
    | .ret value span => do
      let v ← optional (evaluate n) value
      return .returned v span
    | .whileLoop condition body _ =>
      repeatWhile (holds (evaluate n) condition) (execute n body) (return ()) n
    | .forever body _ =>
      repeatWhile (return true) (nested [] (executeAll (execute n) body)) (return ()) n
    | .forLoop initializer condition increment body _ =>
      nested [] do
        prepare (execute n) initializer
        repeatWhile (holdsIfGiven (evaluate n) condition) (execute n body)
          (effect (evaluate n) increment) n

/-- Calls a function or a class with evaluated arguments. -/
def call : Nat → Value → List Value → Span → Eval Value
  | 0, _, _, _ => exhausted
  | n + 1, callee, args, span => callWith (execute n) callee args span

end

/-- Executes statements in a frame up to the first that returns. -/
def executeBlock (fuel : Nat) (statements : List Stmt) (frame : FrameId) : Eval Flow :=
  inFrame frame (executeAll (execute fuel) statements)

/-- Executes a program's statements up to the first error. A return that no function takes is
one. -/
def executeProgram (fuel : Nat) : List Stmt → Eval Unit
  | [] => return ()
  | s :: ss => do
    match ← execute fuel s with
    | .normal => executeProgram fuel ss
    | .returned _ span => raise (.returnOutsideFunction span)

end Eval

end TreeWalk
