import TreeWalk.Symbol

/-!
# Tables of names

Entering a text keeps what the table says of all other texts, and a symbol in use stands for its
text as long as there are symbols to tell all texts apart.
-/

namespace TreeWalk.Interner

variable {t : Interner} {text other : String} {s : Symbol}

/-- Two tables are the same as soon as their sides are. -/
theorem eq_of_toTable {t t' : Interner} (h : t.toTable = t'.toTable) : t = t' := by
  cases t
  cases t'
  cases h
  rfl

theorem intern_of_get? (h : t.get? text = some s) : t.intern text = (s, t) := by
  have htable : t.toTable.intern text = (s, t.toTable) := by simp only [Table.intern, h]
  refine Prod.ext ?_ (eq_of_toTable ?_)
  · change (t.toTable.intern text).1 = s
    rw [htable]
  · change (t.toTable.intern text).2 = t.toTable
    rw [htable]

/-- What entering a new text leaves. -/
theorem toTable_intern_of_get? (h : t.get? text = none) : (t.intern text).2.toTable =
    { t.toTable with
      texts := t.texts.push text
      symbols := t.symbols.insert text (.ofIndex t.size) } := by
  simp only [intern, Table.intern, h]

theorem intern_fst_of_get?_eq_none (h : t.get? text = none) :
    (t.intern text).1 = .ofIndex t.size := by
  simp only [intern, Table.intern, h]

theorem get?_intern (t : Interner) (text : String) :
    (t.intern text).2.get? text = some (t.intern text).1 := by
  cases h : t.get? text with
  | some s =>
    rw [intern_of_get? h]
    exact h
  | none =>
    rw [toTable_intern_of_get? h, intern_fst_of_get?_eq_none h]
    simp [Table.get?]

theorem get?_of_intern (h : t.get? text = some s) (other : String) :
    (t.intern other).2.get? text = some s := by
  cases hother : t.get? other with
  | some s' =>
    rw [intern_of_get? hother]
    exact h
  | none =>
    have hne : text ≠ other := by
      rintro rfl
      cases h.symm.trans hother
    rw [toTable_intern_of_get? hother]
    simpa [Table.get?, hne] using h

/-- The place that the index has for a text is where the text first stands. -/
theorem exists_place_of_get? (h : t.get? text = some s) :
    ∃ i, Symbol.ofIndex i = s ∧ t.texts[i]? = some text := by
  obtain ⟨i, hi, hs⟩ := Option.map_eq_some_iff.mp ((t.coherent text).symm.trans h)
  obtain ⟨hlt, htext, -⟩ := Array.findIdx?_eq_some_iff_getElem.mp hi
  exact ⟨i, hs, (Array.getElem?_eq_getElem hlt).trans (congrArg some (eq_of_beq htext))⟩

/-- All texts of `t` have the same symbols in `t'`. -/
def Within (t t' : Interner) : Prop :=
  ∀ ⦃text s⦄, t.get? text = some s → t'.get? text = some s

theorem Within.refl (t : Interner) : t.Within t := fun _ _ h => h

theorem Within.trans (h : Within t₁ t₂) (h' : Within t₂ t₃) : Within t₁ t₃ :=
  fun _ _ hget => h' (h hget)

theorem within_intern (t : Interner) (text : String) : t.Within (t.intern text).2 :=
  fun _ _ h => get?_of_intern h text

theorem size_le_intern (t : Interner) (text : String) : t.size ≤ (t.intern text).2.size := by
  cases h : t.get? text with
  | some s => exact Nat.le_of_eq (congrArg (·.2.size) (intern_of_get? h).symm)
  | none =>
    rw [toTable_intern_of_get? h]
    simp [Table.size]

theorem resolve?_of_get? (h : t.get? text = some s) (hsize : t.size ≤ Symbol.bound) :
    t.resolve? s = some text := by
  obtain ⟨i, rfl, hi⟩ := exists_place_of_get? h
  have hlt : i < t.texts.size := (Array.getElem?_eq_some_iff.mp hi).1
  have hid : (Symbol.ofIndex i).id = i := if_pos (Nat.lt_of_lt_of_le hlt hsize)
  rw [Table.resolve?, hid]
  exact hi

/-- The name of a symbol is the text it was given for. -/
theorem nameOf_of_get? (h : t.get? text = some s) (hsize : t.size ≤ Symbol.bound) :
    t.nameOf s = text := by
  rw [Table.nameOf, resolve?_of_get? h hsize]
  rfl

theorem text_unique (hsize : t.size ≤ Symbol.bound) (h : t.get? text = some s)
    (h' : t.get? other = some s) :
    text = other := by
  have hresolve := resolve?_of_get? h hsize
  rw [resolve?_of_get? h' hsize] at hresolve
  exact (Option.some.inj hresolve).symm

/-- A symbol in use stands for its text, unless it is the one that texts share when symbols have run
out. -/
theorem resolve?_of_ne (h : t.get? text = some s) (hs : s.id ≠ Symbol.bound - 2) :
    t.resolve? s = some text := by
  obtain ⟨i, rfl, hi⟩ := exists_place_of_get? h
  have hid : (Symbol.ofIndex i).id = i := by
    unfold Symbol.ofIndex at hs ⊢
    dsimp only at hs ⊢
    split at hs
    · next hbound => exact if_pos hbound
    · exact absurd rfl hs
  rw [Table.resolve?, hid]
  exact hi

/-! ## Symbols in use -/

/-- All symbols of `t` stand for the same texts in `t'`. -/
def Extends (t t' : Interner) : Prop :=
  ∀ ⦃s text⦄, t.resolve? s = some text → t'.resolve? s = some text

theorem Extends.refl (t : Interner) : t.Extends t := fun _ _ h => h

theorem Extends.trans (h : Extends t₁ t₂) (h' : Extends t₂ t₃) : Extends t₁ t₃ :=
  fun _ _ hs => h' (h hs)

theorem Extends.isSome (h : Extends t t') (hs : (t.resolve? s).isSome = true) :
    (t'.resolve? s).isSome = true := by
  obtain ⟨text, htext⟩ := Option.isSome_iff_exists.mp hs
  rw [h htext]
  rfl

theorem extends_intern (t : Interner) (text : String) : t.Extends (t.intern text).2 := by
  intro s other h
  cases hget : t.get? text with
  | some s' =>
    rw [intern_of_get? hget]
    exact h
  | none =>
    have hlt : s.id < t.texts.size := (Array.getElem?_eq_some_iff.mp h).1
    rw [toTable_intern_of_get? hget, Table.resolve?, Array.getElem?_push_lt hlt, ← h,
      Table.resolve?, Array.getElem?_eq_getElem hlt]

/-- A symbol in use stands for some text, even where symbols have run out. -/
theorem isSome_of_get? (h : t.get? text = some s) : (t.resolve? s).isSome = true := by
  obtain ⟨i, rfl, hi⟩ := exists_place_of_get? h
  have hlt : (Symbol.ofIndex i).id < t.texts.size := by
    have hi := (Array.getElem?_eq_some_iff.mp hi).1
    unfold Symbol.ofIndex
    dsimp only
    split
    · exact hi
    · omega
  rw [Table.resolve?, Array.getElem?_eq_getElem hlt]
  rfl

end TreeWalk.Interner
