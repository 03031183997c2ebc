import TreeWalk.Value

/-!
# Pattern matching

A pattern is tried against a value. The names it binds are added to a list from left to right, the
name of a whole after the names inside it. A pattern that does not match leaves what it added before
it failed.
-/

namespace TreeWalk

/-- A name and the value bound to it. -/
abbrev Binding := Symbol × Value

namespace Pattern

mutual

/-- Whether the pattern matches, and the bindings with its own behind them. -/
def tryMatch (names : Interner) : Pattern → Value → List Binding → Bool × List Binding
  | .wild _, _, bound => (true, bound)
  | .var name, v, bound => (true, bound ++ [(name.name, v)])
  | .unit _, .nil, bound => (true, bound)
  | .unit _, _, bound => (false, bound)
  | .literal value _, v, bound => ((Value.ofLiteral names value).equal v, bound)
  | .named name p, v, bound =>
    match tryMatch names p v bound with
    | (true, bound) => (true, bound ++ [(name.name, v)])
    | (false, bound) => (false, bound)
  | .tuple ps _, .tuple vs, bound =>
    if ps.length = vs.length then tryMatchAll names ps vs bound else (false, bound)
  | .tuple _ _, _, bound => (false, bound)
  | .vector ps _, .vector vs, bound =>
    if ps.length = vs.length then tryMatchAll names ps vs bound else (false, bound)
  | .vector _ _, _, bound => (false, bound)

/-- Tries patterns against values in order, up to the first that fails. -/
def tryMatchAll (names : Interner) : List Pattern → List Value → List Binding → Bool × List Binding
  | p :: ps, v :: vs, bound =>
    match tryMatch names p v bound with
    | (true, bound) => tryMatchAll names ps vs bound
    | (false, bound) => (false, bound)
  | _, _, bound => (true, bound)

end

end Pattern

end TreeWalk
