import Mathlib.Data.List.DropRight
import TreeWalk.Proofs.Scan.Munch

/-!
# Lines and columns

Scanning keeps a line and a column that move with every character, while stretches are measured in
bytes. Wherever a token or an error starts, the two are what a reader counts there: the line feeds
in front of it, and the characters behind the last of these.
-/

namespace TreeWalk

/-! ## The statement -/

/-- The stretch is that of `text` behind `before`. Its line is one more than the line feeds in
`before`, and its column one more than the characters behind the last of them. -/
structure Span.Marks (span : Span) (before text : List Char) : Prop where
  start : span.start = Text.byteLength before
  stop : span.stop = Text.byteLength before + Text.byteLength text
  line : span.line = 1 + before.count '\n'
  column : span.column = 1 + (before.rtakeWhile (· != '\n')).length

/-- What an error is about, and what follows it in the text. -/
inductive ScanError.About : ScanError → List Char → List Char → Prop where
  | unexpectedChar : About (.unexpectedChar c place) [c] after
  | unterminatedString : '"' ∉ body → About (.unterminatedString place) ('"' :: body) []

/-- Everything found stands at the place it says, by byte, by line and by column. -/
structure Scan.Positioned (source : String) (found : Scan) : Prop where
  tokens : ∀ t ∈ found.tokens.dropLast, ∃ before text after, source.toList = before ++
    text ++ after ∧ (∃ k, Lexeme.Lexical k text ∧ Lexeme.Means found.names k text t.kind) ∧
    t.span.Marks before text
  errors : ∀ e ∈ found.errors, ∃ before text after, source.toList = before ++ text ++ after ∧
    e.About text after ∧ e.span.Marks before text
  /-- The end mark stands behind the whole text. -/
  finish : ∃ mark, found.tokens.getLast? = some mark ∧ mark.kind = .eof ∧
    mark.span.Marks source.toList []

/-! ## Counting -/

theorem Position.origin_column (cs : List Char) :
    (origin.after cs).column = 1 + (cs.rtakeWhile (· != '\n')).length := by
  induction cs using List.reverseRecOn with
  | nil => rfl
  | append_singleton cs c ih =>
    rw [after_append]
    change ((origin.after cs).advance c).column = _
    unfold advance
    split
    · next hc =>
      subst hc
      rw [List.rtakeWhile_concat_neg _ _ _ (by simp)]
      rfl
    · next hc =>
      rw [List.rtakeWhile_concat_pos _ _ _ (by simpa using hc), List.length_append]
      dsimp only
      rw [ih]
      rfl

theorem Span.marks_ofText (before text : List Char) :
    (ofText (.after .origin before) text).Marks before text := by
  obtain ⟨hoffset, hline⟩ := Position.origin.after_eq before
  have hstart : (Position.origin.after before).offset = Text.byteLength before :=
    hoffset.trans (Nat.zero_add _)
  exact ⟨hstart, congrArg (· + Text.byteLength text) hstart, hline, Position.origin_column before⟩

theorem Lexeme.Stands.marks (h : Stands .origin cs l before after) :
    l.span.Marks before l.text := by
  rw [Lexeme.span, h.start]
  exact Span.marks_ofText before l.text

/-! ## Errors -/

theorem Lexeme.Stands.about (h : Stands p cs l before after) (hfault : l.fault? = some e) :
    e.About l.text after := by
  have hcuts := h.cuts
  obtain ⟨cls, text, start⟩ := l
  dsimp only at hcuts ⊢
  cases hcuts with
  | unclosed hbody =>
    cases hfault
    exact .unterminatedString hbody
  | stray =>
    cases hfault
    exact .unexpectedChar
  | _ => cases hfault

namespace Scan

variable {names : Interner} {source : String}

theorem exists_token_marks (h : t ∈ (scan names source).tokens.dropLast) :
    ∃ before text after, source.toList = before ++ text ++ after ∧
      (∃ k, Lexeme.Lexical k text ∧ Lexeme.Means (scan names source).names k text t.kind) ∧
      t.span.Marks before text := by
  obtain ⟨before, text, after, hsplit, hmunches⟩ := munches_of_mem h
  obtain ⟨l, hl, hspan, -⟩ := exists_word h
  obtain ⟨before', after', hstands⟩ := Lexeme.exists_stands hl
  have hmarks := hstands.marks
  rw [← hspan] at hmarks
  -- The word and the lexeme start at the same byte, so the same text is in front of both.
  have hsame := hsplit.symm.trans hstands.split
  rw [List.append_assoc, List.append_assoc] at hsame
  obtain ⟨rfl, hrest⟩ := Text.eq_of_byteLength hsame (hmunches.start.symm.trans hmarks.start)
  have hlength := hmunches.stop.symm.trans hmarks.stop
  obtain ⟨rfl, -⟩ := Text.eq_of_byteLength hrest (Nat.add_left_cancel hlength)
  exact ⟨before, l.text, after, hsplit, hmunches.word, hmarks⟩

theorem exists_error_marks (h : e ∈ (scan names source).errors) :
    ∃ before text after, source.toList = before ++ text ++ after ∧ e.About text after ∧
      e.span.Marks before text := by
  obtain ⟨l, hl, hfault⟩ := exists_fault h
  obtain ⟨before, after, hstands⟩ := Lexeme.exists_stands hl
  refine ⟨before, l.text, after, hstands.split, hstands.about hfault, ?_⟩
  rw [(Lexeme.of_fault? hfault).1]
  exact hstands.marks

end Scan

/-- Tokens, errors and the end mark of any text stand at the lines and columns that a reader counts,
whatever names were known before. -/
theorem scanned_positions_are_true (names : Interner) (source : String) :
    (scan names source).Positioned source where
  tokens _ ht := Scan.exists_token_marks ht
  errors _ he := Scan.exists_error_marks he
  finish := ⟨Scan.endMark source, List.getLast?_concat, rfl, Span.marks_ofText source.toList []⟩

-- A string over two lines, two stray characters, one of them of two bytes, and a word on the third
-- line.
example :
    let found := scan .empty "\"a\nb\" # é\r\n  x"
    found.tokens.map (fun t => (t.span.start, t.span.line, t.span.column)) =
      [(0, 1, 1), (14, 3, 3), (15, 3, 4)] ∧ found.errors.map
      (fun e => (e.span.start, e.span.line, e.span.column)) = [(6, 2, 4), (8, 2, 6)] := by
  decide +kernel

end TreeWalk
