import TreeWalk.Token

/-!
# Lexemes

A source text is a sequence of lexemes with nothing between them: blanks, comments, marks, words,
numbers and strings, and the two kinds of text that is none of these. Each lexeme is the longest one
that can start where it starts.
-/

namespace TreeWalk

namespace Punct

/-- The mark of two characters. -/
def ofPair? : Char → Char → Option Punct
  | '+', '+' => some plusPlus
  | '!', '=' => some bangEq
  | '=', '=' => some eqEq
  | '>', '=' => some gtEq
  | '<', '=' => some ltEq
  | _, _ => none

/-- The mark of one character. The lone underscore is a word, not a mark. -/
def ofChar? : Char → Option Punct
  | '(' => some lparen
  | ')' => some rparen
  | '\x7b' => some lbrace
  | '\x7d' => some rbrace
  | '[' => some lbracket
  | ']' => some rbracket
  | ',' => some comma
  | '.' => some dot
  | ';' => some semicolon
  | '@' => some atSign
  | '-' => some minus
  | '+' => some plus
  | '/' => some slash
  | '*' => some star
  | '!' => some bang
  | '=' => some eq
  | '>' => some gt
  | '<' => some lt
  | _ => none

end Punct

/-- What a lexeme is. -/
inductive LexemeClass where
  | blank
  | comment
  | mark (punct : Punct)
  | word
  | number
  | string
  /-- A string whose closing quote is missing; it runs to the end. -/
  | unclosed
  /-- A character that starts nothing. -/
  | stray
deriving DecidableEq, Repr, Inhabited

/-- A lexeme at its place. -/
structure Lexeme where
  cls : LexemeClass
  text : List Char
  start : Position
deriving DecidableEq, Repr, Inhabited

namespace Lexeme

def isBlank (c : Char) : Bool :=
  c == ' ' || c == '\t' || c == '\r' || c == '\n'

def isDigit (c : Char) : Bool :=
  '0' ≤ c && c ≤ '9'

def isLetter (c : Char) : Bool :=
  'a' ≤ c && c ≤ 'z' || 'A' ≤ c && c ≤ 'Z'

def isWordStart (c : Char) : Bool :=
  isLetter c || c == '_'

def isWordPart (c : Char) : Bool :=
  isWordStart c || isDigit c

/-- A lexeme cut off the front of a text: its class, its text and what follows. -/
structure Cut where
  cls : LexemeClass
  text : List Char
  rest : List Char

/-- The run of characters behind `c` that satisfy `p`. -/
def cutWhile (cls : LexemeClass) (p : Char → Bool) (c : Char) (cs : List Char) : Cut :=
  ⟨cls, c :: cs.takeWhile p, cs.dropWhile p⟩

/-- Digits behind the digit `c`, and a point with its digits if at least one digit follows it. -/
def cutNumber (c : Char) (cs : List Char) : Cut :=
  match cs.dropWhile isDigit with
  | '.' :: d :: rest =>
    if isDigit d then
      ⟨.number, c :: cs.takeWhile isDigit ++ '.' :: d :: rest.takeWhile isDigit,
        rest.dropWhile isDigit⟩
    else
      ⟨.number, c :: cs.takeWhile isDigit, '.' :: d :: rest⟩
  | rest => ⟨.number, c :: cs.takeWhile isDigit, rest⟩

/-- Everything up to the next quote, behind the opening quote `c`. -/
def cutString (c : Char) (cs : List Char) : Cut :=
  match cs.dropWhile (· != '"') with
  | [] => ⟨.unclosed, c :: cs.takeWhile (· != '"'), []⟩
  | quote :: rest => ⟨.string, c :: cs.takeWhile (· != '"') ++ [quote], rest⟩

/-- A mark of one character, or a stray character. -/
def cutChar (c : Char) (cs : List Char) : Cut :=
  match Punct.ofChar? c with
  | some mark => ⟨.mark mark, [c], cs⟩
  | none => ⟨.stray, [c], cs⟩

/-- A mark of two characters if there is one. -/
def cutMark (c : Char) : List Char → Cut
  | [] => cutChar c []
  | d :: cs =>
    match Punct.ofPair? c d with
    | some mark => ⟨.mark mark, [c, d], cs⟩
    | none => cutChar c (d :: cs)

/-- The lexeme at the front of `c :: cs`. -/
def cut (c : Char) (cs : List Char) : Cut :=
  if isBlank c then cutWhile .blank isBlank c cs
  else if c == '/' && cs.head? == some '/' then cutWhile .comment (· != '\n') c cs
  else if c == '"' then cutString c cs
  else if isDigit c then cutNumber c cs
  else if isWordStart c then cutWhile .word isWordPart c cs
  else cutMark c cs

/-- A cut loses nothing. -/
theorem cut_append (c : Char) (cs : List Char) : (cut c cs).text ++ (cut c cs).rest = c :: cs := by
  have number : (cutNumber c cs).text ++ (cutNumber c cs).rest = c :: cs := by
    have split := List.takeWhile_append_dropWhile (p := isDigit) (l := cs)
    unfold cutNumber
    split
    · rename_i d rest h
      split
      · simpa [h, List.takeWhile_append_dropWhile] using split
      · simpa [h] using split
    · simp
  have string : (cutString c cs).text ++ (cutString c cs).rest = c :: cs := by
    have split := List.takeWhile_append_dropWhile (p := (· != '"')) (l := cs)
    unfold cutString
    split
    · rename_i h
      simpa [h] using split
    · rename_i q rest h
      simpa [h] using split
  have mark : (cutMark c cs).text ++ (cutMark c cs).rest = c :: cs := by
    unfold cutMark cutChar
    grind
  unfold cut
  split
  · simp [cutWhile]
  split
  · simp [cutWhile]
  split
  · exact string
  split
  · exact number
  split
  · simp [cutWhile]
  · exact mark

/-- A lexeme is never empty. -/
theorem cut_text_ne_nil (c : Char) (cs : List Char) : (cut c cs).text ≠ [] := by
  unfold cut cutWhile cutString cutNumber cutMark cutChar
  grind

theorem cut_rest_length_lt (c : Char) (cs : List Char) :
    (cut c cs).rest.length < (c :: cs).length := by
  have whole := congrArg List.length (cut_append c cs)
  have pos := List.length_pos_iff.mpr (cut_text_ne_nil c cs)
  rw [List.length_append] at whole
  omega

/-- The lexemes of a text that starts at `p`. -/
def all (p : Position) : List Char → List Lexeme
  | [] => []
  | c :: cs =>
    let found := cut c cs
    ⟨found.cls, found.text, p⟩ :: all (p.after found.text) found.rest
termination_by cs => cs.length
decreasing_by exact cut_rest_length_lt c cs

/-- Where the lexeme stands. -/
def span (l : Lexeme) : Span :=
  .ofText l.start l.text

end Lexeme

end TreeWalk
