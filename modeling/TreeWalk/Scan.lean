import TreeWalk.Lexeme
import TreeWalk.Number.Text
import TreeWalk.SyntaxError

/-!
# From text to tokens

Each lexeme is skipped, read as a token or reported. Names and string contents are entered into the
table of names in the order in which they appear. The tokens end with the mark of the end of the
input.
-/

namespace TreeWalk

/-- What a lexeme amounts to. -/
inductive Reading where
  | skip
  | token (kind : TokenKind)
  | error (error : ScanError)
deriving Repr, Inhabited

namespace Lexeme

/-- The number a lexeme of digits stands for. -/
def numberValue (text : List Char) : Number :=
  .ofDigits (text.takeWhile isDigit) ((text.dropWhile isDigit).drop 1)

/-- A word is a reserved word, the lone underscore or a name. -/
def readWord (names : Interner) (text : String) : TokenKind × Interner :=
  if text == "_" then
    (.punct .underscore, names)
  else
    match Keyword.ofText? text with
    | some word => (.keyword word, names)
    | none =>
      let (name, names) := names.intern text
      (.ident name, names)

/-- The contents of a string are what stands between its quotes. -/
def contents (text : List Char) : List Char :=
  (text.drop 1).dropLast

def read (names : Interner) (l : Lexeme) : Reading × Interner :=
  match l.cls with
  | .blank | .comment => (.skip, names)
  | .mark punct => (.token (.punct punct), names)
  | .word =>
    let (kind, names) := readWord names (String.ofList l.text)
    (.token kind, names)
  | .number => (.token (.number (numberValue l.text)), names)
  | .string =>
    let (sym, names) := names.intern (String.ofList (contents l.text))
    (.token (.str sym), names)
  | .unclosed => (.error (.unterminatedString l.span), names)
  | .stray => (.error (.unexpectedChar (l.text.headD default) l.span), names)

end Lexeme

/-- The outcome of scanning a text. -/
structure Scan where
  tokens : List Token
  errors : List ScanError
  names : Interner
deriving Inhabited

namespace Scan

/-- The tokens and errors of a sequence of lexemes, without the end mark. -/
def ofLexemes (names : Interner) : List Lexeme → Scan
  | [] => ⟨[], [], names⟩
  | l :: ls =>
    let (reading, names) := l.read names
    let rest := ofLexemes names ls
    match reading with
    | .skip => rest
    | .token kind => { rest with tokens := ⟨kind, l.span⟩ :: rest.tokens }
    | .error error => { rest with errors := error :: rest.errors }

/-- The mark of the end of the input, right behind the last character. -/
def endMark (source : String) : Token :=
  ⟨.eof, .point (Position.origin.after source.toList)⟩

end Scan

/-- Scans a whole text. -/
def scan (names : Interner) (source : String) : Scan :=
  let found := Scan.ofLexemes names (Lexeme.all .origin source.toList)
  { found with tokens := found.tokens ++ [Scan.endMark source] }

end TreeWalk
