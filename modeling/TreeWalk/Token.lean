import TreeWalk.Keyword
import TreeWalk.Number.Basic
import TreeWalk.Span

/-!
# Tokens

The words of the language: punctuation, reserved words, names, strings and numbers, and the mark at
the end of the input. A token is such a word at its place in the source.
-/

namespace TreeWalk

inductive Punct where
  | lparen | rparen | lbrace | rbrace | lbracket | rbracket | comma | dot | semicolon | atSign
  | underscore
  | minus | plus | plusPlus | slash | star | bang | bangEq | eq | eqEq | gt | gtEq | lt | ltEq
deriving DecidableEq, Repr, Inhabited

namespace Punct

def text : Punct → String
  | lparen => "("
  | rparen => ")"
  | lbrace => "\x7b"
  | rbrace => "\x7d"
  | lbracket => "["
  | rbracket => "]"
  | comma => ","
  | dot => "."
  | semicolon => ";"
  | atSign => "@"
  | underscore => "_"
  | minus => "-"
  | plus => "+"
  | plusPlus => "++"
  | slash => "/"
  | star => "*"
  | bang => "!"
  | bangEq => "!="
  | eq => "="
  | eqEq => "=="
  | gt => ">"
  | gtEq => ">="
  | lt => "<"
  | ltEq => "<="

/-- Marks that compute or compare. -/
def isOperator : Punct → Bool
  | minus | plus | plusPlus | slash | star | bang | bangEq | eq | eqEq | gt | gtEq | lt | ltEq =>
    true
  | _ => false

end Punct

/-- A word of the language. A name or string is known by the symbol of its text or contents. -/
inductive TokenKind where
  | punct (mark : Punct)
  | keyword (word : Keyword)
  | ident (name : Symbol)
  | str (contents : Symbol)
  | number (value : Number)
  | eof
deriving DecidableEq, Repr, Inhabited

namespace TokenKind

/-- The kind as shown to a reader. -/
def display : TokenKind → String
  | punct mark => mark.text
  | keyword word => word.text
  | ident _ => "identifier"
  | str _ => "string"
  | number _ => "number"
  | eof => "end of input"

def isKeyword : TokenKind → Bool
  | keyword _ => true
  | _ => false

def isLiteral : TokenKind → Bool
  | str _ | number _ | keyword .true_ | keyword .false_ | keyword .nil => true
  | _ => false

def isOperator : TokenKind → Bool
  | punct mark => mark.isOperator
  | keyword .and | keyword .or => true
  | _ => false

/-- Whether an expression can start here. -/
def beginsExpr : TokenKind → Bool
  | punct .lparen | punct .lbracket | punct .bang | punct .minus => true
  | ident _ | str _ | number _ => true
  | keyword .true_ | keyword .false_ | keyword .nil => true
  | keyword .do_ | keyword .let_ | keyword .case | keyword .if_ | keyword .this | keyword .super =>
    true
  | _ => false

/-- Whether the word always starts a statement, so that reading can resume in front of it. -/
def beginsDecl : TokenKind → Bool
  | keyword .class_ | keyword .fn | keyword .var | keyword .for_ => true
  | keyword .loop | keyword .while_ | keyword .print | keyword .return_ => true
  | _ => false

def isEof : TokenKind → Bool
  | eof => true
  | _ => false

end TokenKind

/-- A word at its place. -/
structure Token where
  kind : TokenKind
  span : Span
deriving DecidableEq, Repr, Inhabited

namespace Token

/-- The source text of the token. -/
def lexeme (t : Token) (source : String) : String :=
  t.span.slice source

def isEof (t : Token) : Bool :=
  t.kind.isEof

end Token

end TreeWalk
