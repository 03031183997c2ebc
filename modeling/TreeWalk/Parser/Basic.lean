import TreeWalk.SyntaxError
import TreeWalk.Tree

/-!
# Parsers

A parser reads tokens from the front of a list and answers with a value or the error that stopped
it, and in both cases with the tokens it left. Errors that do not stop it are noted; the notes of
two parsers that run one after the other stand in that order.

All repetition goes through two combinators. `collect` reads a list of items, and `fix` ties the
knot for a grammar that refers to itself. Both go on only where the tokens ahead have become fewer,
so every parser ends.
-/

namespace TreeWalk

namespace Parser

/-- Something worth telling that did not stop a parser. -/
inductive Note where
  | error (error : ParseError)
  /-- Reading resumed at this place after a declaration was given up. -/
  | resumed (span : Span)
deriving DecidableEq, Repr, Inhabited

/-- What stays the same during a run: the source text, and the place where the input ends. -/
structure Context where
  source : String
  finish : Span
deriving Inhabited

/-- Where a parser stopped: the tokens not yet read, none of them an end mark, and what it noted on
the way. -/
structure State where
  ahead : List Token
  notes : List Note := []
deriving Inhabited

/-- The answer of a parser. -/
inductive Reply (α : Type) where
  | ok (value : α) (state : State)
  | fail (error : ParseError) (state : State)

namespace Reply

variable {α β : Type}

def state : Reply α → State
  | ok _ s | fail _ s => s

/-- The answer with `earlier` notes in front of its own. -/
def after (earlier : List Note) : Reply α → Reply α
  | ok a s => ok a { s with notes := earlier ++ s.notes }
  | fail e s => fail e { s with notes := earlier ++ s.notes }

def map (f : α → β) : Reply α → Reply β
  | ok a s => ok (f a) s
  | fail e s => fail e s

end Reply

end Parser

/-- A parser for values of type `α`. -/
def Parser (α : Type) : Type :=
  Parser.Context → List Token → Parser.Reply α

namespace Parser

@[always_inline]
instance : Monad Parser where
  pure a := fun _ ts => .ok a { ahead := ts }
  bind p f := fun cx ts =>
    match p cx ts with
    | .ok a s => (f a cx s.ahead).after s.notes
    | .fail e s => .fail e s

theorem bind_of_ok {p : Parser α} {f : α → Parser β} (h : p cx ts = .ok a s) :
    (p >>= f) cx ts = (f a cx s.ahead).after s.notes := by
  simp only [bind, h]

theorem bind_of_fail {p : Parser α} {f : α → Parser β} (h : p cx ts = .fail e s) :
    (p >>= f) cx ts = .fail e s := by
  simp only [bind, h]

/-! ## Single tokens -/

/-- The next token, or the end mark. -/
def Context.next (cx : Context) (ts : List Token) : Token :=
  ts.headD ⟨.eof, cx.finish⟩

variable {α β : Type}

def peek : Parser Token := fun cx ts =>
  .ok (cx.next ts) { ahead := ts }

def check (kind : TokenKind) : Parser Bool := fun cx ts =>
  .ok ((cx.next ts).kind == kind) { ahead := ts }

/-- Stops with an error made from the next token: its source text and its place. -/
def failHere (error : String → Span → ParseError) : Parser α := fun cx ts =>
  .fail (error ((cx.next ts).lexeme cx.source) (cx.next ts).span) { ahead := ts }

/-- Notes an error and goes on. -/
def report (error : ParseError) : Parser Unit := fun _ ts =>
  .ok () { ahead := ts, notes := [.error error] }

/-- Goes on behind the next token as `forms` tells; if it tells nothing, the token is left to
`otherwise`. -/
def branch (forms : Token → Option (Parser α)) (otherwise : Parser α) : Parser α := fun cx ts =>
  match forms (cx.next ts) with
  | some p => p cx ts.tail
  | none => otherwise cx ts

/-- Goes on with `p` behind a token of this kind. -/
def onKind (kind : TokenKind) (p : Token → Parser α) (otherwise : Parser α) : Parser α :=
  branch (fun token => if token.kind == kind then some (p token) else none) otherwise

/-- Reads the next token if it is of this kind. -/
def eat (kind : TokenKind) : Parser Bool :=
  onKind kind (fun _ => return true) (return false)

/-- Reads a token of this kind. `context` tells the reader what it was needed for. -/
def expect (kind : TokenKind) (context : String) : Parser Token :=
  onKind kind pure (failHere (.unexpectedToken ("`" ++ kind.display ++ "` " ++ context)))

/-- Reads a mark. -/
def mark (p : Punct) (context : String) : Parser Token :=
  expect (.punct p) context

/-- Reads a reserved word. -/
def word (k : Keyword) (context : String) : Parser Token :=
  expect (.keyword k) context

/-- The name that a token is. -/
def identForms (token : Token) : Option (Parser Ident) :=
  match token.kind with
  | .ident name => some (return ⟨name, token.span⟩)
  | _ => none

/-- Reads a name; `context` says which. -/
def ident (context : String) : Parser Ident :=
  branch identForms (failHere (.expectedIdentifier context))

/-! ## Repetition -/

/-- The answer where a parser would have to go on without having read anything. -/
def stuck : Parser α :=
  failHere .expectedExpression

/-- One step of reading a list. -/
inductive Item (α : Type) where
  /-- There is no further item. -/
  | none
  | last (item : α)
  | more (item : α)

/-- Reads items until a step says that there are no more. A step is told how many items came before
it. -/
def collect (step : Nat → Parser (Item α)) (count : Nat) : Parser (List α) := fun cx ts =>
  match step count cx ts with
  | .fail e s => .fail e s
  | .ok .none s => .ok [] s
  | .ok (.last a) s => .ok [a] s
  | .ok (.more a) s =>
    if s.ahead.length < ts.length then
      ((collect step (count + 1) cx s.ahead).map (a :: ·)).after s.notes
    else
      (stuck cx s.ahead).after s.notes
termination_by _ ts => ts.length

/-- The parser for a family of forms that refers to itself. The inner forms are read with fewer
tokens ahead than the outer one. -/
def fix {ι : Type} (step : (ι → Parser α) → ι → Parser α) (i : ι) : Parser α := fun cx ts =>
  step (fun j cx rest => if rest.length < ts.length then fix step j cx rest else stuck cx rest)
    i cx ts
termination_by _ ts => ts.length

/-! ## Lists -/

/-- The most items a list of parameters, arguments or tuple elements may have. -/
def maxItems : Nat := 255

/-- Notes that the next token starts the item after the last one allowed. -/
def limit (kind : ItemKind) (count : Nat) : Parser Unit := do
  if count == maxItems then
    report (.tooManyItems kind (← peek).span)

/-- Reads one item and the separator behind it, if it is there. -/
def itemThen (sep : Punct) (item : Parser α) : Parser (Item α) := do
  let a ← item
  let more ← eat (.punct sep)
  return if more then .more a else .last a

/-- Reads items with commas between them, at least one, where `count` items came before. One too
many is reported and read all the same. -/
def commaList (kind : ItemKind) (item : Parser α) (count : Nat) : Parser (List α) :=
  collect (fun n => do
    limit kind n
    itemThen .comma item) count

/-- Whether the input or the form ended by `close` ends here. -/
def ends (close : Punct) : Parser Bool := fun cx ts =>
  .ok ((cx.next ts).kind == .punct close || ts.isEmpty) { ahead := ts }

/-- Reads items up to the mark `close`, each but the last followed by `sep`. -/
def items (sep close : Punct) (item : Parser α) : Parser (List α) :=
  collect (fun _ => do
    if ← ends close then
      return .none
    else
      itemThen sep item) 0

/-- Reads `item sep ... item` and the mark `close`. -/
def closed (sep close : Punct) (context : String) (item : Parser α) : Parser (List α) := do
  let as ← items sep close item
  let _ ← mark close context
  return as

/-- Reads `item sep ... item` between two marks. -/
def delimited (opening sep close : Punct) (context : String) (item : Parser α) :
    Parser (List α) := do
  let _ ← mark opening context
  closed sep close context item

/-- Reads items without separators up to the mark `close`. -/
def itemsUntil (close : Punct) (item : Parser α) : Parser (List α) :=
  collect (fun _ => do
    if ← ends close then
      return .none
    else
      return .more (← item)) 0

/-- Reads `p` unless the next token is of this kind. -/
def unlessAt (kind : TokenKind) (p : Parser α) : Parser (Option α) := do
  if ← check kind then
    return none
  else
    return some (← p)

/-- Reads `p` behind a token of this kind, if there is one. -/
def behind (kind : TokenKind) (p : Parser α) : Parser (Option α) :=
  onKind kind (fun _ => do return some (← p)) (return none)

end Parser

end TreeWalk
