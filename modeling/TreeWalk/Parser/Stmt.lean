import TreeWalk.Parser.Expr

/-!
# Parsing statements and programs

A declaration that cannot be read is reported and left out, and reading resumes at the next
boundary: just behind a `;`, or in front of a word that starts a statement. The token at fault is
always passed over.
-/

namespace TreeWalk

namespace Parser

/-! ## Recovery -/

/-- The tokens from the first boundary on, where `last` is the token in front of them. -/
def toBoundary (last : Token) : List Token → List Token
  | [] => []
  | token :: tokens =>
    if last.kind == .punct .semicolon || token.kind.beginsDecl then
      token :: tokens
    else
      toBoundary token tokens

/-- Passes over the next token and on to the next boundary. -/
def skipToBoundary : List Token → List Token
  | [] => []
  | token :: tokens => toBoundary token tokens

/-- Reads with `p`; if it fails, reports the error and resumes at the next boundary. -/
def recovering {α : Type} (p : Parser α) : Parser (Option α) := fun cx ts =>
  match p cx ts with
  | .ok a s => .ok (some a) s
  | .fail e s =>
    let ahead := skipToBoundary s.ahead
    .ok none { ahead, notes := s.notes ++ [.error e, .resumed (cx.next ahead).span] }

/-! ## Statements -/

/-- What may be read as a statement: with or without declarations of variables, functions and
classes. -/
inductive Level where
  | declaration
  | statement
deriving DecidableEq, Repr, Inhabited

section

variable (self : Level → Parser Stmt)

/-- Behind `{`: declarations up to and including the closing `}`. -/
def blockBody : Parser (List Stmt) := do
  let found ← itemsUntil .rbrace (recovering (self .declaration))
  let _ ← mark .rbrace "after block"
  return found.filterMap id

/-- A function without its `fn`; `context` says which kind of name comes first. -/
def function (context : String) : Parser FunctionDecl := do
  let name ← ident context
  let _ ← mark .lparen "after function name"
  let params ← unlessAt (.punct .rparen) (commaList .parameters (ident "parameter name") 0)
  let _ ← mark .rparen "after parameters"
  let _ ← mark .lbrace "before function body"
  let body ← blockBody self
  return .mk name (params.getD []) body

/-- Behind `class`. -/
def classDecl : Parser Stmt := do
  let name ← ident "class name"
  let superclass ← behind (.punct .lt) (ident "superclass name after `<`")
  let _ ← mark .lbrace "before class body"
  let methods ← itemsUntil .rbrace (function self "method name")
  let _ ← mark .rbrace "after class body"
  return .classDecl name superclass methods

/-- Behind `var`. -/
def varDecl : Parser Stmt := do
  let name ← ident "variable name"
  let initializer ← behind (.punct .eq) expression
  let _ ← mark .semicolon "after variable declaration"
  return .varDecl name initializer

/-- The part of a `for` header that runs first, if it is an expression, and its `;`. -/
def initialExpression : Parser Stmt := do
  let e ← expression
  let _ ← mark .semicolon "after loop initializer"
  return .expr e

/-- Behind the `(` of a `for`: the part that runs first, and its `;`. -/
def forInitializer : Parser (Option Stmt) :=
  onKind (.punct .semicolon) (fun _ => return none) do
    return some (← onKind (.keyword .var) (fun _ => varDecl) initialExpression)

/-- Behind `for`. -/
def forLoop (span : Span) : Parser Stmt := do
  let _ ← mark .lparen "after `for`"
  let initializer ← forInitializer
  let condition ← unlessAt (.punct .semicolon) expression
  let _ ← mark .semicolon "after loop condition"
  let increment ← unlessAt (.punct .rparen) expression
  let _ ← mark .rparen "after for clauses"
  let body ← self .statement
  return .forLoop initializer condition increment body span

/-- Behind `return`: the value, if an expression follows. -/
def returnValue : Parser (Option Expr) := do
  let token ← peek
  if token.kind.beginsExpr then
    return some (← expression)
  else
    return none

/-- An expression as a statement; its `;` may be missing. -/
def exprStatement : Parser Stmt := do
  let e ← expression
  let _ ← eat (.punct .semicolon)
  return .expr e

/-- The statements other than expressions, by their first token. -/
def statementForms (token : Token) : Option (Parser Stmt) :=
  match token.kind with
  | .keyword .print => some do
    let e ← expression
    let _ ← eat (.punct .semicolon)
    return .print e token.span
  | .keyword .return_ => some do
    let value ← returnValue
    let _ ← eat (.punct .semicolon)
    return .ret value token.span
  | .keyword .while_ => some do
    let condition ← expression
    let body ← self .statement
    return .whileLoop condition body token.span
  | .keyword .loop => some do
    let _ ← mark .lbrace "after `loop`"
    let body ← blockBody self
    return .forever body token.span
  | .keyword .for_ => some (forLoop self token.span)
  | .punct .lbrace => some do
    let statements ← blockBody self
    return .block statements token.span
  | _ => none

def statement : Parser Stmt :=
  branch (statementForms self) exprStatement

/-- The declarations by their first token. -/
def declarationForms (token : Token) : Option (Parser Stmt) :=
  match token.kind with
  | .keyword .class_ => some (classDecl self)
  | .keyword .fn => some do return .fnDecl (← function self "function name")
  | .keyword .var => some varDecl
  | _ => none

def declaration : Parser Stmt :=
  branch (declarationForms self) (statement self)

/-- One step of the grammar of statements. -/
def stmtStep : Level → Parser Stmt
  | .declaration => declaration self
  | .statement => statement self

end

/-- Reads a statement of the given level. -/
def stmt : Level → Parser Stmt :=
  fix stmtStep

/-- Reads declarations to the end of the input. -/
def programBody : Parser Program := do
  let found ← collect (fun _ => do
    if ← check .eof then
      return .none
    else
      return .more (← recovering (stmt .declaration))) 0
  return ⟨found.filterMap id⟩

/-! ## Runs over a token list -/

/-- The place where a list of tokens ends: its first end mark, or else right behind its last
token. -/
def finishOf (tokens : List Token) : Span :=
  match tokens.find? Token.isEof, tokens.getLast? with
  | some mark, _ => mark.span
  | none, some last => .point ⟨last.span.stop, last.span.line, last.span.column⟩
  | none, none => .point .origin

/-- The setting for reading `tokens`. -/
def Context.ofTokens (source : String) (tokens : List Token) : Context :=
  ⟨source, finishOf tokens⟩

/-- Runs a parser over a list of tokens. What follows the first end mark does not count. -/
def run {α : Type} (p : Parser α) (source : String) (tokens : List Token) : Reply α :=
  p (.ofTokens source tokens) (tokens.takeWhile (!·.isEof))

/-- The error of a note that is one. -/
def Note.error? : Note → Option ParseError
  | error e => some e
  | resumed _ => none

/-- The errors noted on the way. -/
def State.errors (s : State) : List ParseError :=
  s.notes.filterMap Note.error?

end Parser

/-- The outcome of reading a program. -/
structure Parsed where
  program : Program
  notes : List Parser.Note
deriving Inhabited

namespace Parsed

/-- The errors, in the order they were met. -/
def errors (p : Parsed) : List ParseError :=
  p.notes.filterMap Parser.Note.error?

end Parsed

/-- Reads a list of tokens as a program. -/
def parse (source : String) (tokens : List Token) : Parsed :=
  match Parser.programBody.run source tokens with
  | .ok program s => ⟨program, s.notes⟩
  | .fail e s => ⟨⟨[]⟩, s.notes ++ [.error e]⟩

end TreeWalk
