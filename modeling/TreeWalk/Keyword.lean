import TreeWalk.Symbol

/-!
# Reserved words

The words that are no names. They are the first entries of every table of names, so a word's symbol
is the same in all of them.
-/

namespace TreeWalk

inductive Keyword where
  | class_ | this | super | fn | if_ | then_ | else_ | do_ | loop | for_ | while_ | case | of
  | let_ | in_ | var | false_ | true_ | nil | and | or | print | return_
deriving DecidableEq, Repr, Inhabited

namespace Keyword

def text : Keyword → String
  | class_ => "class"
  | this => "this"
  | super => "super"
  | fn => "fn"
  | if_ => "if"
  | then_ => "then"
  | else_ => "else"
  | do_ => "do"
  | loop => "loop"
  | for_ => "for"
  | while_ => "while"
  | case => "case"
  | of => "of"
  | let_ => "let"
  | in_ => "in"
  | var => "var"
  | false_ => "false"
  | true_ => "true"
  | nil => "nil"
  | and => "and"
  | or => "or"
  | print => "print"
  | return_ => "return"

/-- All of them, in the order of their symbols. -/
def all : List Keyword :=
  [class_, this, super, fn, if_, then_, else_, do_, loop, for_, while_, case, of, let_, in_, var,
    false_, true_, nil, and, or, print, return_]

/-- The reserved word spelled `text`. -/
def ofText? (text : String) : Option Keyword :=
  all.find? (·.text == text)

end Keyword

namespace Interner

/-- The table of names that holds the reserved words and nothing else. -/
def keywords : Interner :=
  seed (Keyword.all.map Keyword.text)

end Interner

namespace Symbol

/-- The receiver of a method is bound to this name. -/
def this : Symbol := ⟨1⟩

/-- The superclass of a method's class is bound to this name. -/
def super : Symbol := ⟨2⟩

/-- The method that makes an object ready has this name: the first one after the reserved words. -/
def init : Symbol := ⟨23⟩

end Symbol

namespace Interner

/-- The table of names a session starts with. -/
def initial : Interner :=
  keywords.insert "init"

example : initial.resolve? .this = some "this" := by decide +kernel
example : initial.resolve? .super = some "super" := by decide +kernel
example : initial.resolve? .init = some "init" := by decide +kernel

end Interner

end TreeWalk
