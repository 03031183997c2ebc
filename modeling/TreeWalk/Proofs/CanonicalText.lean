import TreeWalk.Source
import TreeWalk.Proofs.Parser.RoundTrip
import TreeWalk.Proofs.Scan.ReadBack

/-!
# Canonical text

Reading the canonical text of a program that was read gives the program back, but for places. A
program is read from the words of its source alone (`quiet_of_parse`), then from its own words, and
these are what the canonical text is scanned as.
-/

namespace TreeWalk

open TreeWalk.Parser

/-- The tokens that can be read with the given names. -/
def Interner.vocabulary (names : Interner) : Vocabulary where
  Has := TokenKind.Readable names
  eof := id
  punct _ := trivial
  keyword _ := trivial
  unsigned _ h := ⟨h.1, Number.isNaN_of_isFinite h.2⟩

theorem takeWhile_endMark {tokens : List Token} (h : ∀ t ∈ tokens, t.kind ≠ .eof)
    (source : String) :
    (tokens ++ [Scan.endMark source]).takeWhile (!·.isEof) = tokens := by
  have htokens : ∀ t ∈ tokens, (!t.isEof) = true := by
    intro t ht
    have hkind := h t ht
    unfold Token.isEof
    cases hk : t.kind with
    | eof => exact absurd hk hkind
    | _ => rfl
  rw [List.takeWhile_append_of_pos htokens]
  exact List.append_nil tokens

/-- What a program is read as is told by the words. -/
theorem quiet_programBody_bare (cx : Context) (ts : List Token) :
    programBody.quiet default (words (ts.map Token.kind)) =
      (programBody.quiet cx ts).map fun (p, rest) => (p.bare, rest.map Token.bare) := by
  have h := (Alike.programBody (P := .bare cx)).quiet (Nat.lt_succ_self ts.length)
    (linked_map_bare ts)
  rw [map_bare] at h
  change Option.Rel _ (programBody.quiet cx ts)
    (programBody.quiet default (words (ts.map Token.kind))) at h
  generalize programBody.quiet cx ts = r at h
  generalize programBody.quiet default (words (ts.map Token.kind)) = r' at h
  cases h with
  | none => rfl
  | some h => exact congrArg some (Prod.ext h.1.eq_bare (forall₂_eq_map Token.Linked.eq_bare h.2.1))

theorem parse_eq_iff {tokens : List Token} :
    (∃ rest, programBody.quiet (.ofTokens source tokens) (tokens.takeWhile (!·.isEof)) =
        some (p, rest)) ↔
      (parse source tokens).errors = [] ∧ (parse source tokens).program = p := by
  rw [parse, Parser.run, quiet]
  cases programBody (.ofTokens source tokens) (tokens.takeWhile (!·.isEof)) with
  | ok program s =>
    change (∃ rest, (if s.errors.isEmpty then some (program, s.ahead) else none) = some (p, rest)) ↔
      s.errors = [] ∧ program = p
    cases s.errors with
    | nil => simp
    | cons e es => simp
  | fail e s => simp [Reply.quiet_fail, Parsed.errors, Note.error?]

/-- A program that was read without errors can be read from the words alone. -/
theorem quiet_of_parse {tokens : List Token} (h : ∀ t ∈ tokens, t.kind ≠ .eof)
    (herrors : (parse source (tokens ++ [Scan.endMark text])).errors = []) :
    ∃ rest, programBody.quiet default (words (tokens.map Token.kind)) =
      some ((parse source (tokens ++ [Scan.endMark text])).program.bare, rest) := by
  obtain ⟨rest, hquiet⟩ := parse_eq_iff.mpr ⟨herrors, rfl⟩
  rw [takeWhile_endMark h] at hquiet
  have hbare := quiet_programBody_bare (.ofTokens source (tokens ++ [Scan.endMark text])) tokens
  rw [hquiet] at hbare
  exact ⟨_, hbare⟩

theorem parse_of_quiet {tokens : List Token} (h : ∀ t ∈ tokens, t.kind ≠ .eof)
    (hwords : programBody.quiet default (words (tokens.map Token.kind)) = some (p, rest)) :
    (parse source (tokens ++ [Scan.endMark text])).errors = [] ∧
      (parse source (tokens ++ [Scan.endMark text])).program.bare = p := by
  rw [quiet_programBody_bare (.ofTokens source (tokens ++ [Scan.endMark text])) tokens] at hwords
  obtain ⟨⟨program, left⟩, hquiet, heq⟩ := Option.map_eq_some_iff.mp hwords
  cases heq
  have hparse := parse_eq_iff.mp ⟨left, by rw [takeWhile_endMark h]; exact hquiet⟩
  exact ⟨hparse.1, congrArg Program.bare hparse.2⟩

/-- What a layout is read as is told by its words. -/
theorem readSource_text {l : Layout} (hs : l.Spaced) (hr : ∀ k ∈ l.tokens, k.Readable names)
    (hquiet : programBody.quiet default (words l.tokens) = some (p, rest)) :
    (readSource names (l.text names)).diagnostics = [] ∧
      (readSource names (l.text names)).program.bare = p ∧
      (readSource names (l.text names)).names = names := by
  obtain ⟨tokens, hscan, hkinds⟩ := scan_text hs hr
  have heof : ∀ t ∈ tokens, t.kind ≠ .eof :=
    fun t ht => (hr t.kind (hkinds ▸ List.mem_map_of_mem ht)).ne_eof
  rw [← hkinds] at hquiet
  obtain ⟨herrors, hprogram⟩ := parse_of_quiet heof hquiet
  unfold readSource
  rw [hscan]
  refine ⟨?_, hprogram, rfl⟩
  rw [SourceRead.diagnostics, herrors]
  rfl

/-- A program that was read can be read from readable words. -/
theorem quiet_of_readSource (hdiagnostics : (readSource names source).diagnostics = [])
    (hfinite : ∀ t ∈ (readSource names source).scan.tokens, t.kind.isFinite = true)
    (hsize : (readSource names source).names.size ≤ Symbol.bound) :
    ∃ ks rest, (∀ k ∈ ks, k.Readable (readSource names source).names) ∧
      programBody.quiet default (words ks) =
        some ((readSource names source).program.bare, rest) := by
  let found := Scan.ofLexemes names (Lexeme.all .origin source.toList)
  have hreadable : ∀ t ∈ found.tokens, t.kind.Readable found.names := fun t ht =>
    Scan.readable_ofLexemes (Lexeme.formed_all .origin source.toList) hsize t ht
      (hfinite t (List.mem_append_left _ ht))
  have herrors : (parse source (found.tokens ++ [Scan.endMark source])).errors = [] := by
    rw [SourceRead.diagnostics, List.append_eq_nil_iff] at hdiagnostics
    exact List.map_eq_nil_iff.mp hdiagnostics.2
  obtain ⟨rest, hquiet⟩ := quiet_of_parse (fun t ht => (hreadable t ht).ne_eof) herrors
  exact ⟨found.tokens.map Token.kind, rest, List.forall_mem_map.mpr hreadable, hquiet⟩

/-- Reading the canonical text of a program that was read without errors gives the same program,
without errors and without new names, if all numbers in it are finite. Any blanks will do as the
indent. Symbols are 32-bit words, so that there can be no more than `Symbol.bound` names to tell
apart. -/
theorem canonical_text_reads_back (names : Interner) (source indent : String)
    (hdiagnostics : (readSource names source).diagnostics = [])
    (hfinite : ∀ t ∈ (readSource names source).scan.tokens, t.kind.isFinite = true)
    (hindent : Layout.Blank indent) (hsize : (readSource names source).names.size ≤ Symbol.bound) :
    let r := readSource names source
    let again := readSource r.names (r.program.text r.names indent)
    again.diagnostics = [] ∧ again.program.bare = r.program.bare ∧ again.names = r.names := by
  intro r again
  obtain ⟨ks, rest, hreadable, hsource⟩ := quiet_of_readSource hdiagnostics hfinite hsize
  obtain ⟨hown, hquiet⟩ := quiet_programBody_words (V := r.names.vocabulary) hreadable hsource
  -- the words of the program are those of its canonical text
  rw [← Layout.tokens_program indent, Layout.program_bare] at hown hquiet
  exact readSource_text (Layout.spaced_program hindent r.program) hown hquiet

/-- Here `()` is written as `nil`, and the parentheses of patterns and the last zero are not
written. -/
theorem class_and_case_read_back :
    let r := readSource .empty ("class A<B\x7bm()\x7bfor(;;)print-1.50;\x7d\x7d" ++
      "case(x)of\x7b(a@(n))if!a then(),-2then\"b c\"++f(x).y\x7d;// end")
    r.diagnostics = [] ∧ (∀ t ∈ r.scan.tokens, t.kind.isFinite = true) ∧ Layout.Blank "\t" ∧
      r.names.size ≤ Symbol.bound ∧
      let again := readSource r.names (r.program.text r.names "\t")
      again.diagnostics = [] ∧ again.program.bare = r.program.bare ∧ again.names = r.names := by
  intro r
  have hall : r.diagnostics.isEmpty = true ∧ (∀ t ∈ r.scan.tokens, t.kind.isFinite = true) ∧
      r.names.size ≤ Symbol.bound := by
    decide +kernel
  obtain ⟨hnone, hfinite, hsize⟩ := hall
  have hdiagnostics : r.diagnostics = [] := List.isEmpty_iff.mp hnone
  have hindent : Layout.Blank "\t" := by simp [Layout.Blank, Lexeme.isBlank]
  exact ⟨hdiagnostics, hfinite, hindent, hsize,
    canonical_text_reads_back .empty _ "\t" hdiagnostics hfinite hindent hsize⟩

end TreeWalk
