import TreeWalk.Text

/-!
# Places in a source text

A `Position` is a point between two characters, a `Span` a stretch of bytes with the line and column
of its start. Lines and columns count from 1, columns in characters.
-/

namespace TreeWalk

structure Position where
  offset : Nat
  line : Nat
  column : Nat
deriving DecidableEq, Repr, Inhabited

namespace Position

/-- The start of a text. -/
def origin : Position := ⟨0, 1, 1⟩

/-- The position behind one character. -/
def advance (p : Position) (c : Char) : Position :=
  if c = '\n' then
    ⟨p.offset + c.utf8Size, p.line + 1, 1⟩
  else
    ⟨p.offset + c.utf8Size, p.line, p.column + 1⟩

/-- The position behind a run of characters. -/
def after (p : Position) (cs : List Char) : Position :=
  cs.foldl advance p

end Position

structure Span where
  start : Nat
  stop : Nat
  line : Nat
  column : Nat
deriving DecidableEq, Repr, Inhabited

namespace Span

/-- The empty span at a position. -/
def point (p : Position) : Span :=
  ⟨p.offset, p.offset, p.line, p.column⟩

/-- The span of a text that starts at `p`. -/
def ofText (p : Position) (cs : List Char) : Span :=
  ⟨p.offset, p.offset + Text.byteLength cs, p.line, p.column⟩

/-- From the start of `first` to the end of `last`. -/
def merge (first last : Span) : Span :=
  { first with stop := last.stop }

def length (s : Span) : Nat :=
  s.stop - s.start

def isEmpty (s : Span) : Bool :=
  s.length == 0

/-- The characters that `s` covers in `source`, if it lies on character boundaries. -/
def chars? (s : Span) (source : String) : Option (List Char) :=
  Text.slice? source.toList s.start s.stop

/-- The text that `s` covers; empty where `s` does not fit `source`. -/
def slice (s : Span) (source : String) : String :=
  String.ofList ((s.chars? source).getD [])

/-- The place as shown to a reader. -/
def display (s : Span) : String :=
  s!"line {s.line}, column {s.column}"

end Span

end TreeWalk
