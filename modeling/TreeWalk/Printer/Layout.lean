import TreeWalk.Number.Text
import TreeWalk.Tree

/-!
# Canonical text

A program is laid out as a list of fragments: the tokens it is made of, and the gaps between them.
The text is what the fragments spell, one after the other. Reading it back gives the same program,
places aside.
-/

namespace TreeWalk

/-- The text of a word, where `names` tells the names. -/
def TokenKind.sourceText (names : Interner) : TokenKind → String
  | .punct mark => mark.text
  | .keyword word => word.text
  | .ident name => names.nameOf name
  | .str contents => "\"" ++ names.nameOf contents ++ "\""
  | .number value => value.sourceText
  | .eof => ""

/-- A piece of laid out text. -/
inductive Fragment where
  | token (kind : TokenKind)
  | gap (text : String)
deriving DecidableEq, Repr, Inhabited

/-- A laid out text. -/
abbrev Layout := List Fragment

namespace Layout

/-- The tokens alone. -/
def tokens (l : Layout) : List TokenKind :=
  l.filterMap fun
    | .token kind => some kind
    | .gap _ => none

/-- The text that the fragments spell. -/
def text (names : Interner) (l : Layout) : String :=
  String.join (l.map fun
    | .token kind => kind.sourceText names
    | .gap text => text)

/-! ## Parts -/

def mark (p : Punct) : Fragment := .token (.punct p)

def word (k : Keyword) : Fragment := .token (.keyword k)

def name (i : Ident) : Fragment := .token (.ident i.name)

def space : Fragment := .gap " "

def newline : Fragment := .gap "\n"

/-- The layouts in order, with `sep` between them. -/
def joined (sep : Layout) : List Layout → Layout
  | [] => []
  | [l] => l
  | l :: ls => l ++ sep ++ joined sep ls

/-- The layouts in order, with commas between them. -/
def commas (ls : List Layout) : Layout :=
  joined [mark .comma, space] ls

/-- A constant. The sign of a negative number is a token of its own. -/
def literal : Literal → Layout
  | .number x =>
    if x.isNegative && !x.isNaN then [mark .minus, .token (.number x.abs)] else [.token (.number x)]
  | .str contents => [.token (.str contents)]
  | .bool true => [word .true_]
  | .bool false => [word .false_]
  | .nil => [word .nil]

/-! ## Patterns -/

mutual

def pattern : Pattern → Layout
  | .unit _ => [mark .lparen, mark .rparen]
  | .var n => [name n]
  | .literal value _ => literal value
  | .wild _ => [mark .underscore]
  | .named n p => [name n, space, mark .atSign, space] ++ pattern p
  | .tuple elements _ => mark .lparen :: commas (patterns elements) ++ [mark .rparen]
  | .vector elements _ => mark .lbracket :: commas (patterns elements) ++ [mark .rbracket]

def patterns : List Pattern → List Layout
  | [] => []
  | p :: ps => pattern p :: patterns ps

end

/-! ## Expressions -/

mutual

def expr : Expr → Layout
  | .literal value _ => literal value
  | .grouping inner _ => mark .lparen :: expr inner ++ [mark .rparen]
  | .unary op operand _ => mark op.mark :: expr operand
  | .binary left op right _ => expr left ++ [space, .token op.token, space] ++ expr right
  | .var n => [name n]
  | .assign n value => [name n, space, mark .eq, space] ++ expr value
  | .call callee args _ => expr callee ++ mark .lparen :: commas (exprs args) ++ [mark .rparen]
  | .get object n => expr object ++ [mark .dot, name n]
  | .set object n value => expr object ++ [mark .dot, name n, space, mark .eq, space] ++ expr value
  | .this _ => [word .this]
  | .super method _ => [word .super, mark .dot, name method]
  | .letIn n definition body _ =>
    [word .let_, space, name n, space, mark .eq, space] ++ expr definition
      ++ [space, word .in_, space] ++ expr body
  | .seq [] _ => [word .do_, space, mark .lbrace, mark .rbrace]
  | .seq (e :: es) _ =>
    [word .do_, space, mark .lbrace, space]
      ++ joined [mark .semicolon, space] (expr e :: exprs es) ++ [space, mark .rbrace]
  | .cond condition yes no _ =>
    [word .if_, space] ++ expr condition ++ [space, word .then_, space] ++ expr yes
      ++ [space, word .else_, space] ++ expr no
  | .tuple elements _ => mark .lparen :: commas (exprs elements) ++ [mark .rparen]
  | .vector elements _ => mark .lbracket :: commas (exprs elements) ++ [mark .rbracket]
  | .case scrutinee [] _ =>
    [word .case, space] ++ expr scrutinee ++ [space, word .of, space, mark .lbrace, mark .rbrace]
  | .case scrutinee (a :: as) _ =>
    [word .case, space] ++ expr scrutinee ++ [space, word .of, space, mark .lbrace, space]
      ++ commas (arm a :: arms as) ++ [space, mark .rbrace]

def exprs : List Expr → List Layout
  | [] => []
  | e :: es => expr e :: exprs es

def arm : CaseArm → Layout
  | .mk p none body => pattern p ++ [space, word .then_, space] ++ expr body
  | .mk p (some guard) body =>
    pattern p ++ [space, word .if_, space] ++ expr guard ++ [space, word .then_, space] ++ expr body

def arms : List CaseArm → List Layout
  | [] => []
  | a :: as => arm a :: arms as

end

/-! ## Statements -/

/-- Where a nested line starts. -/
def indentation (indent : String) (depth : Nat) : Fragment :=
  .gap (Text.times depth indent)

/-- The bodies of a block, one to a line, in braces. -/
def braces (indent : String) (depth : Nat) (bodies : List Layout) : Layout :=
  if bodies.isEmpty then
    [mark .lbrace, mark .rbrace]
  else
    [mark .lbrace, newline]
      ++ bodies.flatMap (fun body => indentation indent (depth + 1) :: body ++ [newline])
      ++ [indentation indent depth, mark .rbrace]

/-- An optional part of a loop's header, with a space in front. -/
def clause : Option Expr → Layout
  | none => []
  | some e => space :: expr e

mutual

/-- A statement whose first line stands at `depth`. -/
def stmt (indent : String) (depth : Nat) : Stmt → Layout
  | .expr e => expr e ++ [mark .semicolon]
  | .print e _ => [word .print, space] ++ expr e ++ [mark .semicolon]
  | .varDecl n none => [word .var, space, name n, mark .semicolon]
  | .varDecl n (some e) =>
    [word .var, space, name n, space, mark .eq, space] ++ expr e ++ [mark .semicolon]
  | .block statements _ => braces indent depth (stmts indent (depth + 1) statements)
  | .fnDecl decl => [word .fn, space] ++ function indent depth decl
  | .classDecl n none methods =>
    [word .class_, space, name n, space] ++
      braces indent depth (functions indent (depth + 1) methods)
  | .classDecl n (some superclass) methods =>
    [word .class_, space, name n, space, mark .lt, space, name superclass, space]
      ++ braces indent depth (functions indent (depth + 1) methods)
  | .ret none _ => [word .return_, mark .semicolon]
  | .ret (some e) _ => [word .return_, space] ++ expr e ++ [mark .semicolon]
  | .whileLoop condition body _ =>
    [word .while_, space] ++ expr condition ++ space :: stmt indent depth body
  | .forever body _ => [word .loop, space] ++ braces indent depth (stmts indent (depth + 1) body)
  | .forLoop initializer condition increment body _ =>
    [word .for_, space, mark .lparen] ++ initial indent depth initializer ++ clause condition
      ++ mark .semicolon :: clause increment ++ [mark .rparen, space] ++ stmt indent depth body

def stmts (indent : String) (depth : Nat) : List Stmt → List Layout
  | [] => []
  | s :: ss => stmt indent depth s :: stmts indent depth ss

/-- The first part of a `for` header, with its semicolon. -/
def initial (indent : String) (depth : Nat) : Option Stmt → Layout
  | none => [mark .semicolon]
  | some s => stmt indent depth s

/-- A function without its `fn`. -/
def function (indent : String) (depth : Nat) : FunctionDecl → Layout
  | .mk n params body =>
    name n :: mark .lparen :: commas (params.map fun param => [name param])
      ++ [mark .rparen, space] ++ braces indent depth (stmts indent (depth + 1) body)

def functions (indent : String) (depth : Nat) : List FunctionDecl → List Layout
  | [] => []
  | f :: fs => function indent depth f :: functions indent depth fs

end

/-- A program, one statement after the other, each on lines of its own. -/
def program (indent : String) (p : Program) : Layout :=
  (stmts indent 0 p.statements).flatMap (· ++ [newline])

end Layout

/-- The indent of canonical text: four spaces. -/
def Layout.defaultIndent : String := "    "

/-- The canonical text of a program. -/
def Program.text (p : Program) (names : Interner) (indent : String) : String :=
  (Layout.program indent p).text names

/-- The canonical text of an expression. -/
def Expr.text (e : Expr) (names : Interner) : String :=
  (Layout.expr e).text names

/-- The canonical text of a pattern. -/
def Pattern.text (p : Pattern) (names : Interner) : String :=
  (Layout.pattern p).text names

end TreeWalk
