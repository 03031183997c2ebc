import TreeWalk.Parser.Basic

/-!
# Parsing patterns
-/

namespace TreeWalk.Parser

/-- The pattern of a number behind `-`, whose place is `span`. -/
def negativeForms (span : Span) (token : Token) : Option (Parser Pattern) :=
  match token.kind with
  | .number value => some (return .literal (.number value.neg) (.merge span token.span))
  | _ => none

/-- Behind `-`: a number. -/
def negativeNumber (span : Span) : Parser Pattern :=
  branch (negativeForms span) (failHere fun _ => .invalidPattern "expected a number after `-`")

/-- Behind a name: the pattern it names, or nothing. -/
def namedPattern (self : Parser Pattern) (name : Ident) : Parser Pattern := do
  match ← behind (.punct .atSign) self with
  | some pattern => return .named name pattern
  | none => return .var name

/-- Behind the first pattern in parentheses: the rest of a tuple of two or more, or `)`. -/
def parenPatternRest (self : Parser Pattern) (span : Span) (first : Pattern) : Parser Pattern := do
  if ← eat (.punct .comma) then
    let rest ← collect (fun _ => itemThen .comma self) 1
    let _ ← mark .rparen "after tuple pattern"
    return .tuple (first :: rest) span
  else
    let _ ← mark .rparen "after pattern"
    return first

/-- Behind `(`: `)` for unit, a pattern in parentheses, or a tuple of two or more. -/
def parenPattern (self : Parser Pattern) (span : Span) : Parser Pattern :=
  onKind (.punct .rparen) (fun close => return .unit (.merge span close.span)) do
    let first ← self
    parenPatternRest self span first

/-- The patterns by their first token. -/
def patternForms (self : Parser Pattern) (token : Token) : Option (Parser Pattern) :=
  match token.kind with
  | .punct .underscore => some (return .wild token.span)
  | .keyword .nil => some (return .unit token.span)
  | .number value => some (return .literal (.number value) token.span)
  | .str contents => some (return .literal (.str contents) token.span)
  | .keyword .true_ => some (return .literal (.bool true) token.span)
  | .keyword .false_ => some (return .literal (.bool false) token.span)
  | .punct .minus => some (negativeNumber token.span)
  | .ident name => some (namedPattern self ⟨name, token.span⟩)
  | .punct .lparen => some (parenPattern self token.span)
  | .punct .lbracket => some do
    let elements ← closed .comma .rbracket "around vector pattern" self
    return .vector elements token.span
  | _ => none

def patternStep (self : Parser Pattern) : Parser Pattern :=
  branch (patternForms self) <| failHere fun found =>
    .invalidPattern
      (if found.isEmpty then "unexpected end of input" else s!"'{found}' cannot start a pattern")

/-- Reads a pattern. -/
def pattern : Parser Pattern :=
  fix (fun self (_ : Unit) => patternStep (self ())) ()

end TreeWalk.Parser
