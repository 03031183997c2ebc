/-!
# Symbols

Names and string contents are handled as numbers. A table hands the numbers out: each text is
entered once, and its number is its place in the table. A table has two sides, the texts in their
order and an index from texts to symbols (`Interner.Table`). Looking up a text asks the index alone,
and resolving a symbol asks the texts alone. An `Interner` is a table whose sides agree, and
entering a text keeps them so (`Interner.Table.Coherent.intern`).
-/

namespace TreeWalk

/-- An interned text. -/
structure Symbol where
  id : Nat
deriving DecidableEq, Repr, Inhabited

namespace Symbol

/-- Symbol numbers are 32-bit words. -/
def bound : Nat := UInt32.size

/-- The largest word, which stands for no text. -/
def invalid : Symbol := ⟨bound - 1⟩

def isInvalid (s : Symbol) : Bool :=
  s == invalid

/-- The symbol of the text at place `n`. All places past the words share the last but one. -/
def ofIndex (n : Nat) : Symbol :=
  ⟨if n < bound then n else bound - 2⟩

/-- The symbol as shown to a reader. -/
def display (s : Symbol) : String :=
  "#" ++ toString s.id

end Symbol

/-- Symbols by text. A later entry of a text hides an earlier one. -/
structure Interner.Index where
  entries : List (String × Symbol) := []

namespace Interner.Index

def get? (index : Index) (text : String) : Option Symbol :=
  index.entries.lookup text

def insert (index : Index) (text : String) (s : Symbol) : Index :=
  ⟨(text, s) :: index.entries⟩

@[simp] theorem get?_insert (index : Index) (text : String) (s : Symbol) (other : String) :
    (index.insert text s).get? other = if other = text then some s else index.get? other := by
  by_cases h : other = text
  · simp [get?, insert, h]
  · simp [get?, insert, h, List.lookup_cons, beq_false_of_ne h]

end Interner.Index

/-- Texts by symbol, and symbols by text. The first `seeded` texts were there from the start. -/
structure Interner.Table where
  texts : Array String := #[]
  symbols : Index := {}
  seeded : Nat := 0

namespace Interner.Table

def empty : Table := {}

def size (t : Table) : Nat :=
  t.texts.size

def isEmpty (t : Table) : Bool :=
  t.texts.isEmpty

/-- The symbol of a text that has been entered. -/
def get? (t : Table) (text : String) : Option Symbol :=
  t.symbols.get? text

/-- The text of a symbol. -/
def resolve? (t : Table) (s : Symbol) : Option String :=
  t.texts[s.id]?

/-- The name shown for a symbol, whether or not the table knows it. -/
def nameOf (t : Table) (s : Symbol) : String :=
  (t.resolve? s).getD "<unknown>"

/-- Enters a text on both sides, unless it is there already. -/
def intern (t : Table) (text : String) : Symbol × Table :=
  match t.get? text with
  | some s => (s, t)
  | none =>
    let s := Symbol.ofIndex t.size
    (s, { t with texts := t.texts.push text, symbols := t.symbols.insert text s })

/-- Enters a text for the table alone. -/
def insert (t : Table) (text : String) : Table :=
  (t.intern text).2

/-- A table that starts with `words`; a repeated word is entered once. -/
def seed (words : List String) : Table :=
  let t := words.foldl insert empty
  { t with seeded := min t.size (Symbol.bound - 1) }

/-- Whether `s` was among the words the table started with. -/
def isSeeded (t : Table) (s : Symbol) : Bool :=
  s.id < t.seeded

/-- The index has each text with the symbol of its place. -/
def Coherent (t : Table) : Prop :=
  ∀ text, t.get? text = (t.texts.findIdx? (· == text)).map Symbol.ofIndex

theorem coherent_empty : empty.Coherent := by
  intro text
  simp [empty, get?, Index.get?]

theorem Coherent.intern {t : Table} (h : t.Coherent) (text : String) :
    (t.intern text).2.Coherent := by
  unfold Table.intern
  split
  · exact h
  · next hnone =>
    have habsent : t.texts.findIdx? (· == text) = none :=
      Option.map_eq_none_iff.mp ((h text).symm.trans hnone)
    intro other
    by_cases hother : other = text
    · subst hother
      simp [get?, Array.findIdx?_push, habsent, size]
    · have hkept := h other
      simpa [get?, Array.findIdx?_push, hother, Ne.symm hother] using hkept

theorem coherent_foldl_insert {t : Table} (h : t.Coherent) (words : List String) :
    (words.foldl insert t).Coherent := by
  induction words generalizing t with
  | nil => exact h
  | cons word words ih => exact ih (h.intern word)

theorem coherent_seed (words : List String) : (seed words).Coherent :=
  coherent_foldl_insert coherent_empty words

end Interner.Table

/-- A table whose two sides agree. -/
structure Interner extends Interner.Table where
  coherent : toTable.Coherent

namespace Interner

def empty : Interner :=
  ⟨.empty, Table.coherent_empty⟩

instance : Inhabited Interner := ⟨empty⟩

/-- Enters a text, unless it is there already. -/
def intern (t : Interner) (text : String) : Symbol × Interner :=
  let entered := t.toTable.intern text
  (entered.1, ⟨entered.2, t.coherent.intern text⟩)

/-- Enters a text for the table alone. -/
def insert (t : Interner) (text : String) : Interner :=
  (t.intern text).2

/-- A table that starts with `words`. -/
def seed (words : List String) : Interner :=
  ⟨.seed words, Table.coherent_seed words⟩

end Interner

end TreeWalk
