import TreeWalk.Output
import TreeWalk.RuntimeError
import TreeWalk.Store

/-!
# Computations

A computation changes the state of a machine and ends with a value or a runtime error; in both cases
the state it ended in is kept. A computation that has used up its fuel has no outcome.
-/

namespace TreeWalk

/-- Something worth telling that happened while a program ran. -/
inductive Event where
  | declared (cls : String) (methods : Nat)
  | called (function : String) (args : Nat)
deriving DecidableEq, Repr, Inhabited

/-- The state of a running program. -/
structure Machine where
  store : Store := .initial
  /-- The frame in which names are looked up and declared. -/
  current : FrameId := 0
  output : Output := {}
  events : Array Event := #[]
deriving Inhabited

/-- The outermost frame. -/
def Machine.globals : FrameId := 0

inductive Outcome (α : Type) where
  | ok (value : α) (machine : Machine)
  | fault (error : RuntimeError) (machine : Machine)
  | exhausted

namespace Outcome

variable {α : Type}

/-- The state a computation ended in, with a value or an error. -/
def machine? : Outcome α → Option Machine
  | ok _ m | fault _ m => some m
  | exhausted => none

/-- The value of a computation that has one. -/
def value? : Outcome α → Option α
  | ok a _ => some a
  | fault _ _ | exhausted => none

end Outcome

/-- A computation of an `α`, where a table of names tells the names. -/
def Eval (α : Type) : Type :=
  Interner → Machine → Outcome α

namespace Eval

variable {α : Type}

@[always_inline]
instance : Monad Eval where
  pure a := fun _ m => .ok a m
  bind x f := fun names m =>
    match x names m with
    | .ok a m => f a names m
    | .fault e m => .fault e m
    | .exhausted => .exhausted

theorem bind_assoc (x : Eval α) (f : α → Eval β) (g : β → Eval γ) :
    x >>= f >>= g = x >>= fun a => f a >>= g := by
  funext names m
  simp only [bind]
  cases x names m <;> rfl

/-- Has no outcome. -/
def exhausted : Eval α := fun _ _ =>
  .exhausted

def raise (error : RuntimeError) : Eval α := fun _ m =>
  .fault error m

def ofExcept : Except RuntimeError α → Eval α
  | .ok a => pure a
  | .error e => raise e

def nameOf (s : Symbol) : Eval String := fun names m =>
  .ok (names.nameOf s) m

/-- The value of something that only depends on the store. -/
def query (f : Store → α) : Eval α := fun _ m =>
  .ok (f m.store) m

/-- Changes the store. -/
def update (f : Store → α × Store) : Eval α := fun _ m =>
  let (a, store) := f m.store
  .ok a { m with store }

def record (event : Event) : Eval Unit := fun _ m =>
  .ok () { m with events := m.events.push event }

/-! ## Names and frames -/

def unbound (name : Ident) : Eval α := do
  raise (.unboundVariable (← nameOf name.name) name.span)

def lookup (name : Ident) : Eval Value := fun names m =>
  match m.store.lookup? m.current name.name with
  | some v => .ok v m
  | none => unbound name names m

/-- Binds a name in the current frame. -/
def define (name : Symbol) (value : Value) : Eval Unit := fun _ m =>
  .ok () { m with store := m.store.define m.current name value }

/-- Rebinds a name where it is bound. -/
def assign (name : Ident) (value : Value) : Eval Value := fun names m =>
  match m.store.owner? m.current name.name with
  | some frame => .ok value { m with store := m.store.define frame name.name value }
  | none => unbound name names m

/-- Goes on in `here`, however the computation ended. -/
def backTo (here : FrameId) : Outcome α → Outcome α
  | .ok a m => .ok a { m with current := here }
  | .fault e m => .fault e { m with current := here }
  | .exhausted => .exhausted

/-- Runs a computation in a frame, and comes back. -/
def inFrame (frame : FrameId) (act : Eval α) : Eval α := fun names m =>
  backTo m.current (act names { m with current := frame })

/-- Runs a computation in a new frame inside `scope`, with some names bound in it, and comes
back. -/
def within (scope : FrameId) (pairs : List (Symbol × Value)) (act : Eval α) : Eval α := do
  let frame ← update (·.extend scope pairs)
  inFrame frame act

/-- Runs a computation in a new frame inside the current one. -/
def nested (pairs : List (Symbol × Value)) (act : Eval α) : Eval α := fun names m =>
  within m.current pairs act names m

/-! ## Output -/

/-- Prints a value and a newline. -/
def print (value : Value) (span : Span) : Eval Unit := fun _ m =>
  match m.output.writeAll (m.store.pieces value ++ ["\n"]) with
  | (true, output) => .ok () { m with output }
  | (false, output) => .fault (.output m.output.refusal span) { m with output }

end Eval

end TreeWalk
