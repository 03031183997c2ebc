import TreeWalk.Number.Text
import TreeWalk.Tree

/-!
# The parenthesised dump

A program is dumped as a tree of atoms and lists that shows how every form was grouped. A list is
written in parentheses, with single spaces between its items.
-/

namespace TreeWalk

inductive Sexp where
  | atom (text : String)
  | list (items : List Sexp)
deriving Repr, Inhabited

namespace Sexp

mutual

def text : Sexp → String
  | .atom t => t
  | .list items => "(" ++ String.intercalate " " (texts items) ++ ")"

def texts : List Sexp → List String
  | [] => []
  | x :: xs => text x :: texts xs

end

section

variable (names : Interner)

def name (i : Ident) : Sexp :=
  .atom (names.nameOf i.name)

def literal : Literal → Sexp
  | .number x => .atom x.sourceText
  | .str contents => .atom ("\"" ++ names.nameOf contents ++ "\"")
  | .bool true => .atom "true"
  | .bool false => .atom "false"
  | .nil => .atom "nil"

/-- A list that starts with a word. -/
def form (head : String) (items : List Sexp) : Sexp :=
  .list (.atom head :: items)

mutual

def pattern : Pattern → Sexp
  | .unit _ => .list []
  | .var n => name names n
  | .literal value _ => literal names value
  | .wild _ => .atom "_"
  | .named n p => form "@" [name names n, pattern p]
  | .tuple elements _ => form "tuple" (patterns elements)
  | .vector elements _ => form "vector" (patterns elements)

def patterns : List Pattern → List Sexp
  | [] => []
  | p :: ps => pattern p :: patterns ps

end

mutual

def expr : Expr → Sexp
  | .literal value _ => literal names value
  | .grouping inner _ => form "group" [expr inner]
  | .unary op operand _ => form op.text [expr operand]
  | .binary left op right _ => form op.text [expr left, expr right]
  | .var n => name names n
  | .assign n value => form "=" [name names n, expr value]
  | .call callee args _ => form "call" (expr callee :: exprs args)
  | .get object n => form "." [expr object, name names n]
  | .set object n value => form ".=" [expr object, name names n, expr value]
  | .this _ => .atom "this"
  | .super method _ => form "super" [name names method]
  | .letIn n definition body _ => form "let" [name names n, expr definition, expr body]
  | .seq body _ => form "do" (exprs body)
  | .cond condition yes no _ => form "if" [expr condition, expr yes, expr no]
  | .tuple elements _ => form "tuple" (exprs elements)
  | .vector elements _ => form "vector" (exprs elements)
  | .case scrutinee as _ => form "case" (expr scrutinee :: arms as)

def exprs : List Expr → List Sexp
  | [] => []
  | e :: es => expr e :: exprs es

def arm : CaseArm → Sexp
  | .mk p none body => .list [pattern names p, expr body]
  | .mk p (some guard) body => .list [pattern names p, .atom "if", expr guard, expr body]

def arms : List CaseArm → List Sexp
  | [] => []
  | a :: as => arm a :: arms as

end

/-- An expression that may be missing. -/
def optional : Option Expr → List Sexp
  | none => []
  | some e => [expr names e]

/-- A part of a loop's header; a missing one is the empty list. -/
def clause : Option Expr → Sexp
  | none => .list []
  | some e => expr names e

mutual

def stmt : Stmt → Sexp
  | .expr e => form "expr" [expr names e]
  | .print e _ => form "print" [expr names e]
  | .varDecl n initializer => form "var" (name names n :: optional names initializer)
  | .block statements _ => form "block" (stmts statements)
  | .fnDecl decl => function "fn" decl
  | .classDecl n none ms => form "class" (name names n :: methods ms)
  | .classDecl n (some superclass) ms =>
    form "class" (name names n :: .atom "<" :: name names superclass :: methods ms)
  | .ret value _ => form "return" (optional names value)
  | .whileLoop condition body _ => form "while" [expr names condition, stmt body]
  | .forever body _ => form "loop" (stmts body)
  | .forLoop none condition increment body _ =>
    form "for" [.list [], clause names condition, clause names increment, stmt body]
  | .forLoop (some initializer) condition increment body _ =>
    form "for" [stmt initializer, clause names condition, clause names increment, stmt body]

def stmts : List Stmt → List Sexp
  | [] => []
  | s :: ss => stmt s :: stmts ss

def function (head : String) : FunctionDecl → Sexp
  | .mk n params body => form head (name names n :: .list (params.map (name names)) :: stmts body)

def methods : List FunctionDecl → List Sexp
  | [] => []
  | m :: ms => function "method" m :: methods ms

end

end

end Sexp

/-- The dump of a program, one line for each statement. -/
def Program.dump (p : Program) (names : Interner) : String :=
  String.join (p.statements.map fun s => (Sexp.stmt names s).text ++ "\n")

/-- The dump of an expression. -/
def Expr.dump (e : Expr) (names : Interner) : String :=
  (Sexp.expr names e).text

/-- The dump of a pattern. -/
def Pattern.dump (p : Pattern) (names : Interner) : String :=
  (Sexp.pattern names p).text

end TreeWalk
