import TreeWalk.Parser.Pattern

/-!
# Parsing expressions

From the loosest to the tightest: assignment, the six levels of infix operators, prefix operators,
calls and properties, and the primary forms. `self` reads an expression inside another one.
-/

namespace TreeWalk.Parser

/-! ## Primary forms -/

/-- Behind `let`. -/
def letForm (self : Parser Expr) (span : Span) : Parser Expr := do
  let name ← ident "variable name after `let`"
  let _ ← mark .eq "after `let` binding name"
  let definition ← self
  let _ ← word .in_ "after `let` definition"
  let body ← self
  return .letIn name definition body span

/-- Behind `if`. -/
def ifForm (self : Parser Expr) (span : Span) : Parser Expr := do
  let condition ← self
  let _ ← word .then_ "after `if` condition"
  let yes ← self
  let _ ← word .else_ "after `then` branch"
  let no ← self
  return .cond condition yes no span

/-- Reads one arm of a `case`. -/
def caseArm (self : Parser Expr) : Parser CaseArm := do
  let pat ← pattern
  let guard ← behind (.keyword .if_) self
  let _ ← word .then_ "after `case` pattern"
  let body ← self
  return .mk pat guard body

/-- Behind `case`. -/
def caseForm (self : Parser Expr) (span : Span) : Parser Expr := do
  let scrutinee ← self
  let _ ← word .of "after `case` scrutinee"
  let arms ← delimited .lbrace .comma .rbrace "around `case` arms" (caseArm self)
  return .case scrutinee arms span

/-- Behind `super`. -/
def superForm (span : Span) : Parser Expr := do
  let _ ← mark .dot "after `super`"
  let method ← ident "superclass method name"
  return .super method span

/-- Behind the first expression in parentheses: the rest of a tuple of two or more, or `)`. -/
def parenRest (self : Parser Expr) (span : Span) (first : Expr) : Parser Expr := do
  if ← eat (.punct .comma) then
    let rest ← commaList .tupleElements self 1
    let _ ← mark .rparen "after tuple elements"
    return .tuple (first :: rest) span
  else
    let _ ← mark .rparen "after expression"
    return .grouping first span

/-- Behind `(`: `)` for unit, an expression in parentheses, or a tuple of two or more. -/
def parenForm (self : Parser Expr) (span : Span) : Parser Expr :=
  onKind (.punct .rparen) (fun close => return .literal .nil (.merge span close.span)) do
    let first ← self
    parenRest self span first

/-- The constant a token stands for. -/
def literalOf? : TokenKind → Option Literal
  | .keyword .false_ => some (.bool false)
  | .keyword .true_ => some (.bool true)
  | .keyword .nil => some .nil
  | .number value => some (.number value)
  | .str contents => some (.str contents)
  | _ => none

/-- The primary forms other than constants, by their first token. -/
def compoundForms (self : Parser Expr) (token : Token) : Option (Parser Expr) :=
  match token.kind with
  | .keyword .let_ => some (letForm self token.span)
  | .keyword .do_ => some do
    let body ← delimited .lbrace .semicolon .rbrace "around `do` body" self
    return .seq body token.span
  | .keyword .if_ => some (ifForm self token.span)
  | .keyword .case => some (caseForm self token.span)
  | .keyword .super => some (superForm token.span)
  | .keyword .this => some (return .this token.span)
  | .ident name => some (return .var ⟨name, token.span⟩)
  | .punct .lbracket => some do
    let elements ← closed .comma .rbracket "around vector elements" self
    return .vector elements token.span
  | .punct .lparen => some (parenForm self token.span)
  | _ => none

/-- The primary forms by their first token. -/
def primaryForms (self : Parser Expr) (token : Token) : Option (Parser Expr) :=
  match literalOf? token.kind with
  | some value => some (return .literal value token.span)
  | none => compoundForms self token

def primary (self : Parser Expr) : Parser Expr :=
  branch (primaryForms self) (failHere .expectedExpression)

/-! ## Calls and properties -/

/-- What may follow a primary form. -/
inductive Suffix where
  | call (args : List Expr) (span : Span)
  | get (name : Ident)

namespace Suffix

def apply (e : Expr) : Suffix → Expr
  | call args span => .call e args span
  | get name => .get e name

end Suffix

/-- Behind the `(` of a call. -/
def arguments (self : Parser Expr) : Parser (List Expr) := do
  let args ← unlessAt (.punct .rparen) (commaList .arguments self 0)
  let _ ← mark .rparen "after arguments"
  return args.getD []

/-- What follows a primary form, by its first token. -/
def suffixForms (self : Parser Expr) (token : Token) : Option (Parser (Item Suffix)) :=
  match token.kind with
  | .punct .lparen => some do
    let args ← arguments self
    return .more (.call args token.span)
  | .punct .dot => some do
    let name ← ident "property name after `.`"
    return .more (.get name)
  | _ => none

def suffixStep (self : Parser Expr) : Parser (Item Suffix) :=
  branch (suffixForms self) (return .none)

def postfixed (self : Parser Expr) : Parser Expr := do
  let e ← primary self
  let suffixes ← collect (fun _ => suffixStep self) 0
  return suffixes.foldl Suffix.apply e

/-! ## Operators -/

/-- The prefix operator that a token is, with its place. -/
def unaryForms (token : Token) : Option (Parser (Item (UnaryOp × Span))) :=
  (UnaryOp.ofToken? token.kind).map fun op => return .more (op, token.span)

/-- Reads all prefix operators ahead. -/
def unaryOps : Parser (List (UnaryOp × Span)) :=
  collect (fun _ => branch unaryForms (return .none)) 0

def unary (self : Parser Expr) : Parser Expr := do
  let ops ← unaryOps
  let operand ← postfixed self
  return ops.foldr (fun (op, span) e => .unary op e span) operand

/-- The operand behind an infix operator of this level. -/
def chainForms (level : Nat) (operand : Parser Expr) (token : Token) :
    Option (Parser (Item (BinaryOp × Span × Expr))) :=
  match BinaryOp.ofToken? token.kind with
  | some op =>
    if op.level == level then
      some do
        let right ← operand
        return .more (op, token.span, right)
    else
      none
  | none => none

/-- Reads an infix operator of this level and the operand behind it, if one is there. -/
def chainStep (level : Nat) (operand : Parser Expr) : Parser (Item (BinaryOp × Span × Expr)) :=
  branch (chainForms level operand) (return .none)

/-- Reads operands with operators of one level between them; they group to the left. -/
def chain (level : Nat) (operand : Parser Expr) : Parser Expr := do
  let first ← operand
  let rest ← collect (fun _ => chainStep level operand) 0
  return rest.foldl (fun left (op, span, right) => .binary left op right span) first

/-- Reads an expression without assignment, with operators of every level. -/
def infixed (self : Parser Expr) : Parser Expr :=
  (List.range 6).foldr chain (unary self)

/-- Turns the expression left of an `=` into the assignment of `value`. One that cannot be assigned
to is reported and kept as it is. -/
def assignTo (target : Expr) (eq : Span) (value : Expr) : Parser Expr :=
  match target with
  | .var name => return .assign name value
  | .get object name => return .set object name value
  | other => do
    report (.invalidAssignmentTarget eq)
    return other

def assignment (self : Parser Expr) : Parser Expr := do
  let left ← infixed self
  let assigned (eq : Token) : Parser Expr := do
    let value ← self
    assignTo left eq.span value
  onKind (.punct .eq) assigned (return left)

/-- Reads an expression. -/
def expression : Parser Expr :=
  fix (fun self (_ : Unit) => assignment (self ())) ()

/-- Reads an expression with nothing behind it. -/
def completeExpression : Parser Expr := do
  let e ← expression
  if ← check .eof then
    return e
  else
    failHere (.unexpectedToken "end of input after expression")

end TreeWalk.Parser
