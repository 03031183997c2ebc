import TreeWalk.Proofs.Parser.Alike
import TreeWalk.Proofs.Scan.ReadBack
import TreeWalk.Source

/-!
# One text and two tables of names

Two tables may give different symbols to one text. Scanning a text with one or the other gives the
same tokens at the same places, with symbols that stand for the same texts; so it is read as the
same program, and what is wrong with it does not depend on the table.
-/

namespace TreeWalk

/-- Symbols of the same text in two tables. -/
def Link.common (t t' : Interner) : Link where
  sym x y := ∃ text, t.get? text = some x ∧ t'.get? text = some y
  span := Eq

namespace Interner

variable {t t' u u' : Interner}

theorem common_within (h : t.Within u) (h' : t'.Within u') :
    (Link.common t t').Within (.common u u') where
  sym := fun ⟨text, hx, hy⟩ => ⟨text, h hx, h' hy⟩
  span := id

theorem common_oneToOne (hsize : t.size ≤ Symbol.bound) (hsize' : t'.size ≤ Symbol.bound) :
    (Link.common t t').OneToOne := by
  rintro x y x' y' ⟨text, hx, hy⟩ ⟨other, hx', hy'⟩
  constructor
  · rintro rfl
    obtain rfl := text_unique hsize hx hx'
    exact Option.some.inj (hy.symm.trans hy')
  · rintro rfl
    obtain rfl := text_unique hsize' hy hy'
    exact Option.some.inj (hx.symm.trans hx')

theorem common_intern (t t' : Interner) (text : String) :
    (Link.common (t.intern text).2 (t'.intern text).2).sym (t.intern text).1 (t'.intern text).1 :=
  ⟨text, get?_intern t text, get?_intern t' text⟩

end Interner

/-! ## Scanning -/

/-- What one lexeme amounts to with one table and with another. -/
inductive Reading.Linked (L : Link) : Reading → Reading → Prop where
  | skip : Linked L .skip .skip
  | token : k.Linked L k' → Linked L (.token k) (.token k')
  | error : Linked L (.error e) (.error e)

theorem Lexeme.readWord_common (names names' : Interner) (text : String) :
    (readWord names text).1.Linked (.common (readWord names text).2 (readWord names' text).2)
      (readWord names' text).1 := by
  unfold readWord
  split
  · exact .punct
  · split
    · exact .keyword
    · exact .ident (Interner.common_intern names names' text)

theorem Lexeme.read_common (names names' : Interner) (l : Lexeme) :
    (l.read names).1.Linked (.common (l.read names).2 (l.read names').2) (l.read names').1 := by
  obtain ⟨cls, text, p⟩ := l
  cases cls with
  | blank | comment => exact .skip
  | mark m => exact .token .punct
  | word => exact .token (readWord_common names names' _)
  | number => exact .token .number
  | string => exact .token (.str (Interner.common_intern names names' _))
  | unclosed | stray => exact .error

theorem Lexeme.read_not_eof (names : Interner) (l : Lexeme) (h : (l.read names).1 = .token k) :
    k.isEof = false := by
  obtain ⟨cls, text, p⟩ := l
  cases cls with
  | word =>
    obtain rfl : (readWord names (String.ofList text)).1 = k := Reading.token.inj h
    unfold readWord
    split
    · rfl
    · split <;> rfl
  | mark | number | string =>
    cases h
    rfl
  | _ => cases h

namespace Scan

theorem ofLexemes_common (names names' : Interner) (ls : List Lexeme) :
    (ofLexemes names ls).errors = (ofLexemes names' ls).errors ∧
      List.Forall₂ (Token.Linked (.common (ofLexemes names ls).names (ofLexemes names' ls).names))
        (ofLexemes names ls).tokens (ofLexemes names' ls).tokens := by
  induction ls generalizing names names' with
  | nil => exact ⟨rfl, .nil⟩
  | cons l ls ih =>
    obtain ⟨herrors, htokens⟩ := ih (l.read names).2 (l.read names').2
    have hread := Lexeme.read_common names names' l
    have hwithin := Interner.common_within (within_ofLexemes (l.read names).2 ls)
      (within_ofLexemes (l.read names').2 ls)
    rw [ofLexemes, ofLexemes]
    generalize l.read names = r at *
    generalize l.read names' = r' at *
    obtain ⟨reading, names⟩ := r
    obtain ⟨reading', names'⟩ := r'
    cases hread with
    | skip => exact ⟨herrors, htokens⟩
    | token hk => exact ⟨herrors, .cons (Token.Linked.mono hwithin ⟨hk, rfl⟩) htokens⟩
    | error => exact ⟨congrArg (List.cons _) herrors, htokens⟩

/-- No token but the last is an end mark. -/
theorem ofLexemes_not_eof (names : Interner) (ls : List Lexeme) :
    ∀ t ∈ (ofLexemes names ls).tokens, t.isEof = false := by
  induction ls generalizing names with
  | nil => exact fun _ h => absurd h List.not_mem_nil
  | cons l ls ih =>
    intro t ht
    rcases (ofLexemes_cons names l ls).2 t ht with hread | hrest
    · exact Lexeme.read_not_eof names l hread
    · exact ih _ t hrest

end Scan

/-- A scan is read up to its end mark. -/
theorem finishOf_scan (names : Interner) (source : String) :
    Parser.finishOf (scan names source).tokens = (Scan.endMark source).span := by
  have hnone : (Scan.ofLexemes names (Lexeme.all .origin source.toList)).tokens.find?
      Token.isEof = none :=
    List.find?_eq_none.mpr fun t ht => by simp [Scan.ofLexemes_not_eof names _ t ht]
  have hfind : (scan names source).tokens.find? Token.isEof = some (Scan.endMark source) := by
    unfold scan
    rw [List.find?_append, hnone]
    rfl
  unfold Parser.finishOf
  rw [hfind]

theorem scan_common (names names' : Interner) (source : String) :
    (scan names source).errors = (scan names' source).errors ∧
      List.Forall₂ (Token.Linked (.common (scan names source).names (scan names' source).names))
        (scan names source).tokens (scan names' source).tokens := by
  obtain ⟨herrors, htokens⟩ := Scan.ofLexemes_common names names' (Lexeme.all .origin source.toList)
  exact ⟨herrors, List.rel_append htokens (.cons ⟨.eof, rfl⟩ .nil)⟩

/-! ## Reading -/

/-- Reading a text with one table and with another. -/
def Parser.Pairing.common (names names' : Interner) (source : String) : Parser.Pairing where
  toLink := .common (scan names source).names (scan names' source).names
  left := .ofTokens source (scan names source).tokens
  right := .ofTokens source (scan names' source).tokens
  error := Eq
  finish := (finishOf_scan names source).trans (finishOf_scan names' source).symm
  merge hb hd := by cases hb; cases hd; rfl
  errors make h := by cases h; rfl

/-- A text is read as the same program, with the same things wrong in it, whatever the table. -/
theorem readSource_common (names names' : Interner) (source : String) :
    (readSource names source).diagnostics = (readSource names' source).diagnostics ∧
      (readSource names source).program.Linked
        (.common (readSource names source).names (readSource names' source).names)
        (readSource names' source).program := by
  obtain ⟨herrors, htokens⟩ := scan_common names names' source
  obtain ⟨hprogram, hparse⟩ :=
    Parser.Alike.parse (P := .common names names' source) source source rfl rfl htokens
  refine ⟨?_, hprogram⟩
  have hparse : (readSource names source).parsed.errors =
      (readSource names' source).parsed.errors :=
    List.forall₂_eq_eq_eq ▸ hparse
  unfold SourceRead.diagnostics
  rw [hparse]
  exact congrArg (fun es => es.map ScanError.diagnostic ++ _) herrors

theorem readSource_within (names : Interner) (source : String) :
    names.Within (readSource names source).names :=
  Scan.within_ofLexemes names _

end TreeWalk
