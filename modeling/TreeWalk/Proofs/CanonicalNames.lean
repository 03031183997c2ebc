import TreeWalk.Proofs.JoinedText
import TreeWalk.Proofs.Link.Identity

/-!
# Names of canonical text

Scanning enters texts into the table of names in the order in which they appear. The canonical text
of a program has the names and strings of its source, in their order, so that both lead from one
table to the same table. Hence the canonical text may be read with any table with which the source
may be read.
-/

namespace TreeWalk

/-! ## Texts that are entered -/

/-- The text that reading the lexeme enters into the table of names. -/
def Lexeme.entered? (l : Lexeme) : Option String :=
  match l.cls with
  | .word =>
    let text := String.ofList l.text
    if text == "_" || (Keyword.ofText? text).isSome then none else some text
  | .string => some (String.ofList (contents l.text))
  | _ => none

/-- The symbol in a token. -/
def TokenKind.symbol? : TokenKind → Option Symbol
  | .ident s | .str s => some s
  | _ => none

def Reading.symbol? : Reading → Option Symbol
  | .token k => k.symbol?
  | _ => none

/-- Enters texts one after the other. -/
def Interner.internAll (names : Interner) (texts : List String) : Interner :=
  texts.foldl (fun t text => (t.intern text).2) names

namespace Lexeme

theorem read_entry (names : Interner) (l : Lexeme) :
    l.entered? = none ∧ (l.read names).2 = names ∧ (l.read names).1.symbol? = none ∨
      ∃ text, l.entered? = some text ∧ (l.read names).2 = (names.intern text).2 ∧
        (l.read names).1.symbol? = some (names.intern text).1 := by
  obtain ⟨cls, text, p⟩ := l
  cases cls with
  | word =>
    simp only [entered?, read, readWord]
    by_cases hlone : (String.ofList text == "_") = true
    · simp [hlone, Reading.symbol?, TokenKind.symbol?]
    cases hword : Keyword.ofText? (String.ofList text) with
    | some word => simp [hlone, Reading.symbol?, TokenKind.symbol?]
    | none => simp [hlone, Reading.symbol?, TokenKind.symbol?]
  | string => exact .inr ⟨_, rfl, rfl, rfl⟩
  | _ => exact .inl ⟨rfl, rfl, rfl⟩

end Lexeme

namespace Scan

theorem ofLexemes_names (names : Interner) (ls : List Lexeme) :
    (ofLexemes names ls).names = names.internAll (ls.filterMap Lexeme.entered?) := by
  induction ls generalizing names with
  | nil => rfl
  | cons l ls ih =>
    rw [(ofLexemes_cons names l ls).1, ih]
    rcases Lexeme.read_entry names l with ⟨hentry, hnames, -⟩ | ⟨text, hentry, hnames, -⟩
    · rw [List.filterMap_cons_none hentry, hnames]
    · rw [List.filterMap_cons_some hentry, hnames]
      rfl

theorem symbols_cons (names : Interner) (l : Lexeme) (ls : List Lexeme) :
    (ofLexemes names (l :: ls)).tokens.filterMap (·.kind.symbol?) =
      (l.read names).1.symbol?.toList ++ (ofLexemes (l.read names).2 ls).tokens.filterMap
        (·.kind.symbol?) := by
  simp only [ofLexemes]
  split
  · next hread => simp [hread, Reading.symbol?]
  · next kind hread =>
    rw [hread, Reading.symbol?]
    cases hk : kind.symbol? with
    | none => exact List.filterMap_cons_none hk
    | some s => exact List.filterMap_cons_some hk
  · next hread => simp [hread, Reading.symbol?]

/-- The texts that are entered are those of the symbols in the tokens. -/
theorem entries_ofLexemes {first names : Interner} {ls : List Lexeme}
    (hsize : names.size ≤ Symbol.bound) (hwithin : (ofLexemes first ls).names.Within names) :
    ls.filterMap Lexeme.entered? = ((ofLexemes first ls).tokens.filterMap (·.kind.symbol?)).map
      names.nameOf := by
  induction ls generalizing first with
  | nil => rfl
  | cons l ls ih =>
    rw [(ofLexemes_cons first l ls).1] at hwithin
    rw [symbols_cons]
    rcases Lexeme.read_entry first l with ⟨hentry, -, hsymbol⟩ | ⟨text, hentry, hnames, hsymbol⟩
    · rw [List.filterMap_cons_none hentry, hsymbol]
      exact ih hwithin
    · have hget : names.get? text = some (first.intern text).1 := by
        refine hwithin (within_ofLexemes _ ls ?_)
        rw [hnames]
        exact Interner.get?_intern first text
      rw [List.filterMap_cons_some hentry, hsymbol, ih hwithin]
      exact congrArg (List.cons · _) (Interner.nameOf_of_get? hget hsize).symm

/-- The texts that scanning enters into the table of names. -/
def entries (source : String) : List String :=
  (Lexeme.all .origin source.toList).filterMap Lexeme.entered?

theorem names_scan (names : Interner) (source : String) :
    (scan names source).names = names.internAll (entries source) :=
  ofLexemes_names names _

theorem entries_eq (names : Interner) (source : String)
    (hsize : (scan names source).names.size ≤ Symbol.bound) :
    entries source =
      (((words names source).map Token.kind).filterMap TokenKind.symbol?).map
        (scan names source).names.nameOf := by
  rw [List.filterMap_map]
  exact entries_ofLexemes hsize (.refl _)

end Scan

/-! ## Texts of a program -/

/-- Marks and reserved words have no symbols in them, and no other tokens are edited. -/
theorem Edits.symbols_target (d : Edits) :
    d.target.filterMap TokenKind.symbol? = d.source.filterMap TokenKind.symbol? := by
  induction d with
  | nil => rfl
  | cons e d ih =>
    rw [target, source, List.flatMap_cons, List.flatMap_cons, List.filterMap_append,
      List.filterMap_append]
    refine congrArg₂ (· ++ ·) ?_ ih
    cases e with
    | keep | add | drop | unitToNil | nilToUnit => rfl

theorem Interner.common_same {names : Interner} : (Link.common names names).Within .same where
  sym := fun ⟨_, hx, hy⟩ => Option.some.inj (hx.symm.trans hy)
  span := id

section

variable {names : Interner} {source : String}
  (hdiagnostics : (readSource names source).diagnostics = [])
  (hfinite : ∀ t ∈ (readSource names source).scan.tokens, t.kind.isFinite = true)
  (hsize : (readSource names source).names.size ≤ Symbol.bound)
include hdiagnostics

/-- The tokens of a text lead by edits to the tokens of canonical text. -/
theorem readSource_edits : ∃ d : Edits, d.source = (Scan.words names source).map Token.kind ∧
    ∀ indent, (Layout.program indent (readSource names source).program).tokens = d.target := by
  have hunsigned : ∀ k ∈ (Scan.words names source).map Token.kind, k.isUnsigned = true :=
    List.forall_mem_map.mpr (Scan.ofLexemes_unsigned names _)
  obtain ⟨d, ⟨-, htarget⟩, hsource⟩ :=
    Parser.Reads.programBody _ _ _ _ hunsigned (Parser.quiet_programBody_scan hdiagnostics)
  rw [List.map_nil, List.append_nil] at hsource
  exact ⟨d, hsource.symm, fun indent => (Layout.tokens_program indent _).trans htarget.symm⟩

include hfinite hsize

/-- The canonical text has the names and strings of its source, in the same order. -/
theorem entries_canonical (hindent : Layout.Blank indent) :
    Scan.entries ((readSource names source).program.text (readSource names source).names indent) =
      Scan.entries source := by
  obtain ⟨d, hsource, htarget⟩ := readSource_edits hdiagnostics
  have hreadable : ∀ k ∈ d.source, k.Readable (readSource names source).names := by
    rw [hsource]
    refine List.forall_mem_map.mpr fun t ht => ?_
    exact Scan.readable_ofLexemes (Lexeme.formed_all .origin source.toList) hsize t ht
      (hfinite t (List.mem_append_left _ ht))
  obtain ⟨tokens, hscan, hkinds⟩ :=
    scan_text (Layout.spaced_program hindent (readSource names source).program)
      (htarget indent ▸ Edits.readable_target hreadable)
  have hwords : Scan.words (readSource names source).names _ = tokens :=
    List.append_cancel_right (congrArg Scan.tokens hscan)
  have hentries := Scan.entries_eq (readSource names source).names (Program.text _ _ indent)
    (by rw [Program.text, hscan]; exact hsize)
  rw [hentries, Program.text, hwords, hscan, hkinds, htarget, Edits.symbols_target, hsource]
  exact (Scan.entries_eq names source hsize).symm

/-- With the table with which a text was read, its canonical text is read as the same program,
without errors, and both leave the same table. -/
theorem readSource_canonical (hindent : Layout.Blank indent) :
    let r := readSource names source
    let again := readSource names (r.program.text r.names indent)
    again.diagnostics = [] ∧ again.program.bare = r.program.bare ∧ again.names = r.names := by
  intro r again
  obtain ⟨ks, rest, hreadable, hquiet⟩ := quiet_of_readSource hdiagnostics hfinite hsize
  obtain ⟨hown, hquiet⟩ := Parser.quiet_programBody_words (V := r.names.vocabulary) hreadable hquiet
  rw [← Layout.tokens_program indent, Layout.program_bare] at hown hquiet
  obtain ⟨hnone, hbare, hnames⟩ :=
    readSource_text (Layout.spaced_program hindent r.program) hown hquiet
  have hagain : again.names = r.names := by
    rw [SourceRead.names, SourceRead.names]
    have hentries := entries_canonical hdiagnostics hfinite hsize hindent
    exact (Scan.names_scan names _).trans
      ((congrArg names.internAll hentries).trans (Scan.names_scan names _).symm)
  obtain ⟨hsame, hlinked⟩ := readSource_common names r.names (r.program.text r.names indent)
  refine ⟨hsame.trans hnone, ?_, hagain⟩
  rw [hagain, show (readSource r.names (r.program.text r.names indent)).names =
    r.names from hnames] at hlinked
  have hprogram : (readSource r.names (r.program.text r.names indent)).program = again.program :=
    Program.Linked.eq (Stmt.Linked.monoAll Interner.common_same hlinked)
  rw [← hprogram]
  exact hbare

end

end TreeWalk
