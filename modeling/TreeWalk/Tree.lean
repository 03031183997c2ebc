import TreeWalk.Token

/-!
# Program trees

Expressions, patterns and statements. Everything that yields a value is an expression, `let`, `do`,
`if` and `case` included. Every node knows the place it is reported at: an operator its operator
token, a call its opening parenthesis, a keyword form its keyword, a declaration the name it
declares.
-/

namespace TreeWalk

/-- A name as written at one place. -/
structure Ident where
  name : Symbol
  span : Span
deriving DecidableEq, Repr, Inhabited

/-- A constant. A string is known by the symbol of its contents. -/
inductive Literal where
  | number (value : Number)
  | str (contents : Symbol)
  | bool (value : Bool)
  | nil
deriving DecidableEq, Repr, Inhabited

/-! ## Operators -/

inductive UnaryOp where
  | not
  | neg
deriving DecidableEq, Repr, Inhabited

namespace UnaryOp

def mark : UnaryOp → Punct
  | not => .bang
  | neg => .minus

def text (op : UnaryOp) : String :=
  op.mark.text

def ofToken? : TokenKind → Option UnaryOp
  | .punct .bang => some not
  | .punct .minus => some neg
  | _ => none

theorem ofToken?_eq_some_iff {kind : TokenKind} {op : UnaryOp} :
    ofToken? kind = some op ↔ kind = .punct op.mark := by
  constructor
  · intro h
    unfold ofToken? at h
    split at h <;> cases h <;> rfl
  · rintro rfl
    cases op <;> rfl

end UnaryOp

inductive BinaryOp where
  | add | sub | mul | div | append | eq | neq | lt | gt | lte | gte | and | or
deriving DecidableEq, Repr, Inhabited

namespace BinaryOp

def token : BinaryOp → TokenKind
  | add => .punct .plus
  | sub => .punct .minus
  | mul => .punct .star
  | div => .punct .slash
  | append => .punct .plusPlus
  | eq => .punct .eqEq
  | neq => .punct .bangEq
  | lt => .punct .lt
  | gt => .punct .gt
  | lte => .punct .ltEq
  | gte => .punct .gtEq
  | and => .keyword .and
  | or => .keyword .or

def text (op : BinaryOp) : String :=
  op.token.display

def ofToken? : TokenKind → Option BinaryOp
  | .punct .plus => some add
  | .punct .minus => some sub
  | .punct .star => some mul
  | .punct .slash => some div
  | .punct .plusPlus => some append
  | .punct .eqEq => some eq
  | .punct .bangEq => some neq
  | .punct .lt => some lt
  | .punct .gt => some gt
  | .punct .ltEq => some lte
  | .punct .gtEq => some gte
  | .keyword .and => some and
  | .keyword .or => some or
  | _ => none

theorem ofToken?_eq_some_iff {kind : TokenKind} {op : BinaryOp} :
    ofToken? kind = some op ↔ kind = op.token := by
  constructor
  · intro h
    unfold ofToken? at h
    split at h <;> cases h <;> rfl
  · rintro rfl
    cases op <;> rfl

/-- The operators `and` and `or` may leave their right operand alone. -/
def isLogical : BinaryOp → Bool
  | and | or => true
  | _ => false

/-- How tightly the operator binds: a higher level binds tighter. -/
def level : BinaryOp → Nat
  | or => 0
  | and => 1
  | eq | neq => 2
  | lt | gt | lte | gte => 3
  | add | sub | append => 4
  | mul | div => 5

end BinaryOp

/-! ## Patterns -/

inductive Pattern where
  /-- The unit pattern, `()` or `nil`. -/
  | unit (span : Span)
  | var (name : Ident)
  | literal (value : Literal) (span : Span)
  /-- The pattern `_`. -/
  | wild (span : Span)
  /-- Written `name @ pattern`: what `pattern` matches, with a name for the whole. -/
  | named (name : Ident) (pattern : Pattern)
  | tuple (elements : List Pattern) (span : Span)
  | vector (elements : List Pattern) (span : Span)
deriving Repr, Inhabited

namespace Pattern

def span : Pattern → Span
  | unit span | literal _ span | wild span | tuple _ span | vector _ span => span
  | var name | named name _ => name.span

/-- Patterns that are a bare name or `_`. -/
def isIrrefutable : Pattern → Bool
  | var _ | wild _ => true
  | _ => false

end Pattern

/-! ## Expressions -/

mutual

inductive Expr where
  | literal (value : Literal) (span : Span)
  | grouping (inner : Expr) (span : Span)
  | unary (op : UnaryOp) (operand : Expr) (span : Span)
  | binary (left : Expr) (op : BinaryOp) (right : Expr) (span : Span)
  | var (name : Ident)
  | assign (name : Ident) (value : Expr)
  | call (callee : Expr) (args : List Expr) (span : Span)
  | get (object : Expr) (name : Ident)
  | set (object : Expr) (name : Ident) (value : Expr)
  | this (span : Span)
  | super (method : Ident) (span : Span)
  /-- Written `let name = definition in body`. -/
  | letIn (name : Ident) (definition body : Expr) (span : Span)
  /-- Written `do { e; ...; e }`. -/
  | seq (body : List Expr) (span : Span)
  /-- Written `if condition then yes else no`. -/
  | cond (condition yes no : Expr) (span : Span)
  | tuple (elements : List Expr) (span : Span)
  | vector (elements : List Expr) (span : Span)
  | case (scrutinee : Expr) (arms : List CaseArm) (span : Span)
deriving Repr

/-- One arm of a `case`: `pattern if guard then body`. -/
inductive CaseArm where
  | mk (pattern : Pattern) (guard : Option Expr) (body : Expr)
deriving Repr

end

instance : Inhabited Expr := ⟨.literal .nil default⟩
instance : Inhabited CaseArm := ⟨.mk default none default⟩

namespace CaseArm

def pattern : CaseArm → Pattern
  | mk pattern _ _ => pattern

def guard : CaseArm → Option Expr
  | mk _ guard _ => guard

def body : CaseArm → Expr
  | mk _ _ body => body

end CaseArm

namespace Expr

def span : Expr → Span
  | literal _ span | grouping _ span | unary _ _ span | binary _ _ _ span | call
      _ _ span | this span
  | super _ span | letIn _ _ _ span | seq _ span | cond _ _ _ span | tuple _ span | vector _ span
  | case _ _ span => span
  | var name | assign name _ | get _ name | set _ name _ => name.span

/-- Whether the expression may stand left of `=`. -/
def isAssignable : Expr → Bool
  | var _ | get _ _ => true
  | _ => false

end Expr

/-! ## Statements -/

mutual

inductive Stmt where
  | expr (expr : Expr)
  | print (expr : Expr) (span : Span)
  | varDecl (name : Ident) (initializer : Option Expr)
  | block (statements : List Stmt) (span : Span)
  | fnDecl (decl : FunctionDecl)
  | classDecl (name : Ident) (superclass : Option Ident) (methods : List FunctionDecl)
  | ret (value : Option Expr) (span : Span)
  | whileLoop (condition : Expr) (body : Stmt) (span : Span)
  /-- Written `loop { ... }`: left only by `return` or an error. -/
  | forever (body : List Stmt) (span : Span)
  | forLoop (initializer : Option Stmt) (condition increment : Option Expr) (body : Stmt)
      (span : Span)
deriving Repr

/-- A named function or method. -/
inductive FunctionDecl where
  | mk (name : Ident) (params : List Ident) (body : List Stmt)
deriving Repr

end

instance : Inhabited Stmt := ⟨.expr default⟩
instance : Inhabited FunctionDecl := ⟨.mk default [] []⟩

namespace FunctionDecl

def name : FunctionDecl → Ident
  | mk name _ _ => name

def params : FunctionDecl → List Ident
  | mk _ params _ => params

def body : FunctionDecl → List Stmt
  | mk _ _ body => body

def arity (decl : FunctionDecl) : Nat :=
  decl.params.length

end FunctionDecl

namespace Stmt

def span : Stmt → Span
  | expr e => e.span
  | print _ span | block _ span | ret _ span | whileLoop _ _ span | forever _ span
  | forLoop _ _ _ _ span => span
  | varDecl name _ | classDecl name _ _ => name.span
  | fnDecl decl => decl.name.span

end Stmt

/-- A whole file, or one line at the prompt. -/
structure Program where
  statements : List Stmt
deriving Repr, Inhabited

namespace Program

def isEmpty (p : Program) : Bool :=
  p.statements.isEmpty

end Program

end TreeWalk
