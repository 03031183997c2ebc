import TreeWalk.Diagnostic.Basic
import TreeWalk.Tree

/-!
# Runtime errors

What can go wrong while a program runs. Each error has the place of the token at fault, a stable
code and a message. Values are described by the names of their types.
-/

namespace TreeWalk

inductive RuntimeError where
  | unboundVariable (name : String) (span : Span)
  | numberOperand (op : UnaryOp) (found : String) (span : Span)
  | numberOperands (op : BinaryOp) (left right : String) (span : Span)
  | booleanOperand (found : String) (span : Span)
  | stringOperands (left right : String) (span : Span)
  | arityMismatch (name : String) (expected found : Nat) (span : Span)
  | nonExhaustiveMatch (value : String) (span : Span)
  | notCallable (found : String) (span : Span)
  | notAnInstance (found : String) (span : Span)
  | undefinedProperty (name : String) (span : Span)
  | superclassNotClass (name : String) (span : Span)
  | returnOutsideFunction (span : Span)
  | output (message : String) (span : Span)
deriving DecidableEq, Repr, Inhabited

namespace RuntimeError

def span : RuntimeError → Span
  | unboundVariable _ span | numberOperand _ _ span | numberOperands
      _ _ _ span | booleanOperand _ span
  | stringOperands _ _ span | arityMismatch _ _ _ span | nonExhaustiveMatch
      _ span | notCallable _ span
  | notAnInstance _ span | undefinedProperty _ span | superclassNotClass _ span
  | returnOutsideFunction span | output _ span => span

def code : RuntimeError → String
  | unboundVariable .. => "E0301"
  | numberOperand .. => "E0302"
  | numberOperands .. => "E0303"
  | booleanOperand .. => "E0304"
  | stringOperands .. => "E0305"
  | arityMismatch .. => "E0306"
  | nonExhaustiveMatch .. => "E0307"
  | notCallable .. => "E0308"
  | notAnInstance .. => "E0309"
  | undefinedProperty .. => "E0310"
  | superclassNotClass .. => "E0311"
  | returnOutsideFunction .. => "E0312"
  | output .. => "E0313"

def message : RuntimeError → String
  | unboundVariable name _ => s!"unbound variable '{name}'"
  | numberOperand op found _ => s!"operand of '{op.text}' must be a number, found {found}"
  | numberOperands op left right _ =>
    s!"operands of '{op.text}' must be numbers, found {left} and {right}"
  | booleanOperand found _ => s!"operand of '!' must be a boolean, found {found}"
  | stringOperands left right _ => s!"operands of '++' must be strings, found {left} and {right}"
  | arityMismatch name expected found _ =>
    let plural := if expected = 1 then "" else "s"
    s!"'{name}' expects {expected} argument{plural}, found {found}"
  | nonExhaustiveMatch value _ => s!"non-exhaustive match: no arm matches {value}"
  | notCallable found _ => s!"cannot call a value of type {found}"
  | notAnInstance found _ => s!"only instances have properties, found {found}"
  | undefinedProperty name _ => s!"undefined property '{name}'"
  | superclassNotClass name _ => s!"superclass '{name}' is not a class"
  | returnOutsideFunction _ => "cannot return from top-level code"
  | output message _ => s!"failed to write output: {message}"

/-- Advice to the reader. -/
def suggestion? : RuntimeError → Option String
  | booleanOperand .. => some "'!' does not coerce; compare explicitly, e.g. `x == nil`"
  | nonExhaustiveMatch .. => some "add a final `_` arm to catch every other value"
  | stringOperands .. => some "use '+' to add numbers"
  | _ => none

def diagnostic (e : RuntimeError) : Diagnostic :=
  { severity := .error, code := some e.code, message := e.message, span := e.span,
    suggestions := e.suggestion?.toList }

end RuntimeError

end TreeWalk
