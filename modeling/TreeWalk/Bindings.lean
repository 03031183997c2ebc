import TreeWalk.Symbol

/-!
# Bindings

Finite maps from names, in the order in which the names were first bound.
-/

namespace TreeWalk

structure Bindings (α : Type) where
  entries : List (Symbol × α) := []
deriving Repr

namespace Bindings

variable {α : Type}

instance : Inhabited (Bindings α) := ⟨{}⟩

def empty : Bindings α := {}

/-- The first value of a name in a list of entries. -/
def valueIn? (name : Symbol) : List (Symbol × α) → Option α
  | [] => none
  | (other, value) :: rest => if other = name then some value else valueIn? name rest

def get? (b : Bindings α) (name : Symbol) : Option α :=
  valueIn? name b.entries

def contains (b : Bindings α) (name : Symbol) : Bool :=
  (b.get? name).isSome

/-- The names, each once. -/
def names (b : Bindings α) : List Symbol :=
  b.entries.map (·.1)

def size (b : Bindings α) : Nat :=
  b.entries.length

/-- Binds a name at its old place in a list of entries, or behind all of them. -/
def insertEntry (name : Symbol) (value : α) : List (Symbol × α) → List (Symbol × α)
  | [] => [(name, value)]
  | (other, old) :: rest =>
    if other = name then (name, value) :: rest else (other, old) :: insertEntry name value rest

/-- Binds a name, in place of what it was bound to. -/
def insert (b : Bindings α) (name : Symbol) (value : α) : Bindings α :=
  ⟨insertEntry name value b.entries⟩

/-- Binds the names one after the other; the last binding of a name stays. -/
def ofList (pairs : List (Symbol × α)) : Bindings α :=
  pairs.foldl (fun b (name, value) => b.insert name value) empty

/-! ## Reading what was written -/

theorem valueIn?_insertEntry (name other : Symbol) (value : α) (entries : List (Symbol × α)) :
    valueIn? other (insertEntry name value entries)
      = if other = name then some value else valueIn? other entries := by
  induction entries with
  | nil => grind [valueIn?, insertEntry]
  | cons entry rest ih => grind [valueIn?, insertEntry]

@[simp]
theorem get?_insert (b : Bindings α) (name other : Symbol) (value : α) :
    (b.insert name value).get? other = if other = name then some value else b.get? other :=
  valueIn?_insertEntry name other value b.entries

@[simp]
theorem get?_empty (name : Symbol) : (empty : Bindings α).get? name = none := rfl

theorem mem_of_get?_foldl {pairs : List (Symbol × α)} (b : Bindings α)
    (h : (pairs.foldl (fun b (name, value) => b.insert name value) b).get? name = some value) :
    (name, value) ∈ pairs ∨ b.get? name = some value := by
  induction pairs generalizing b with
  | nil => exact .inr h
  | cons pair pairs ih =>
    rcases ih _ h with h | h
    · exact .inl (.tail _ h)
    · rw [get?_insert] at h
      split at h
      · next heq => cases h; subst heq; exact .inl (.head _)
      · exact .inr h

theorem mem_of_get?_ofList {pairs : List (Symbol × α)} (h : (ofList pairs).get? name = some value) :
    (name, value) ∈ pairs :=
  (mem_of_get?_foldl empty h).resolve_right (by simp)

end Bindings

end TreeWalk
