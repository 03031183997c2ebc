import TreeWalk.Diagnostic.Render
import TreeWalk.Proofs.Lines
import TreeWalk.Proofs.Locations
import TreeWalk.Proofs.Scan.Positions
import TreeWalk.Proofs.Scan.ReadBack

/-!
# Snippets

A diagnostic shows the source line that its place starts in, and carets in the row underneath. The
place of a token or of a scanning error holds a piece of that line, and the carets cover just this
piece. The end of the input is a place without text: it has one caret, and no row at all where no
line is left to show.
-/

namespace TreeWalk

/-! ## The statements -/

/-- The places of all tokens, the end mark among them, and of all errors. -/
def Scan.places (found : Scan) : List Span :=
  found.tokens.map Token.span ++ found.errors.map ScanError.span

/-- The source line that the stretch starts in is `lead ++ rest`, and the stretch starts behind
`lead`. -/
def Span.StartsIn (span : Span) (source : String) (lead rest : List Char) : Prop :=
  ∃ front back, Text.LineAt source.toList front (lead ++ rest) back ∧
    span.start = Text.byteLength (front ++ lead) ∧ span.line = 1 + front.count '\n' ∧
    span.column = 1 + lead.length

namespace Diagnostic

/-- What a source row holds up to the end of `lead`. -/
def rowAhead (d : Diagnostic) (lead : List Char) : String :=
  Text.padLeft 4 (toString d.span.line) ++ " | " ++ String.ofList lead

/-- What the caret row holds up to the first caret. -/
def caretsAhead (d : Diagnostic) : String :=
  "     | " ++ Text.times (d.span.column - 1) " "

/-- What follows the snippet. -/
def remarks (colors : Bool) (d : Diagnostic) : String :=
  String.join (d.suggestions.map (suggestionLine colors)) ++
    String.join (d.notes.map (noteLine colors))

/-- Behind the header stand a row for the source line `lead ++ rest` and a row with `n` carets. -/
def Shows (colors : Bool) (source : String) (d : Diagnostic) (lead rest : List Char)
    (n : Nat) : Prop :=
  d.render colors source = d.header colors ++ (d.rowAhead lead ++ String.ofList rest ++ "\n")
    ++ (d.caretsAhead ++ d.severity.paint colors (Text.times n "^") ++ "\n") ++ d.remarks colors

/-- What is shown of the place of a diagnostic. -/
structure Displayed (colors : Bool) (source : String) (d : Diagnostic) : Prop where
  /-- Nothing is shown of the end of a text that has no character behind its last line feed. -/
  hidden : d.span = (Scan.endMark source).span → Text.StartsLine source.toList →
    d.render colors source = d.header colors ++ d.remarks colors
  /-- Otherwise the source line and at least one caret are shown. The first caret stands under the
  place just if the number of the line has no more than four digits. -/
  shown : ¬ (d.span = (Scan.endMark source).span ∧ Text.StartsLine source.toList) →
    ∃ lead rest n, d.span.StartsIn source lead rest ∧ 1 ≤ n ∧ d.Shows colors source lead rest n ∧
      ((d.rowAhead lead).length = d.caretsAhead.length ↔ d.span.line < 10000)

end Diagnostic

/-! ## Ends of lexemes -/

namespace Lexeme

variable {cls : LexemeClass} {text rest : List Char}

theorem isBlank_of_ofChar? (h : Punct.ofChar? c = some m) : isBlank c = false := by
  refine Bool.eq_false_iff.mpr fun hblank => ?_
  simp only [isBlank, Bool.or_eq_true, beq_iff_eq] at hblank
  rcases hblank with ((rfl | rfl) | rfl) | rfl <;> cases h

theorem isBlank_of_ofPair? (h : Punct.ofPair? c d = some m) :
    isBlank c = false ∧ isBlank d = false := by
  unfold Punct.ofPair? at h
  split at h <;> first | exact ⟨rfl, rfl⟩ | cases h

/-- A lexeme that is not skipped starts with a character that is not blank. It ends with one, too,
unless nothing follows it. -/
theorem Cuts.edges (h : Cuts ⟨cls, text, rest⟩) (hgap : cls.isGap = false) :
    (∀ c ∈ text.head?, isBlank c = false) ∧
      (rest ≠ [] → ∀ c ∈ text.getLast?, isBlank c = false) := by
  have hall : (∀ c ∈ text, isBlank c = false) →
      (∀ c ∈ text.head?, isBlank c = false) ∧
        (rest ≠ [] → ∀ c ∈ text.getLast?, isBlank c = false) :=
    fun hall => ⟨fun c hc => hall c (List.mem_of_mem_head? hc), fun _ c hc =>
      hall c (List.mem_of_mem_getLast? hc)⟩
  have hdigit : ∀ x, isDigit x = true → isBlank x = false :=
    fun x hx => isBlank_of_isWordPart (isWordPart_of_isDigit hx)
  cases h with
  | blank | comment => cases hgap
  | string =>
    refine ⟨by simp [isBlank], fun _ c hc => ?_⟩
    rw [List.getLast?_concat] at hc
    cases hc
    rfl
  | unclosed => exact ⟨by simp [isBlank], fun hne => absurd rfl hne⟩
  | whole hrun => exact hall fun x hx => hdigit x (hrun x hx)
  | pointed hrun hfraction =>
    refine hall fun x hx => ?_
    rcases List.mem_append.mp hx with hx | hx
    · exact hdigit x (hrun x hx)
    · rcases List.mem_cons.mp hx with rfl | hx
      · rfl
      · exact hdigit x (hfraction x hx)
  | word hc hrun =>
    exact hall (List.forall_mem_cons.mpr ⟨isBlank_of_isWordPart (isWordPart_of_isWordStart hc),
      fun x hx => isBlank_of_isWordPart (hrun x hx)⟩)
  | pair hm =>
    obtain ⟨hc, hd⟩ := isBlank_of_ofPair? hm
    exact hall (List.forall_mem_cons.mpr ⟨hc, List.forall_mem_singleton.mpr hd⟩)
  | single hm => exact hall (List.forall_mem_singleton.mpr (isBlank_of_ofChar? hm))
  | stray _ hblank => exact hall (List.forall_mem_singleton.mpr hblank)

end Lexeme

/-! ## Places in lines -/

theorem Text.ne_nil_of_endsLine (h : EndsLine line back) (hne : line ++ back ≠ [])
    (hhead : ∀ c ∈ (line ++ back).head?, Lexeme.isBlank c = false) : line ≠ [] := by
  rintro rfl
  cases h with
  | finish => exact hne rfl
  | crlf => cases hhead _ rfl
  | lf _ => cases hhead _ rfl

/-- The first line of a stretch goes on up to the end of the line it stands in. -/
theorem Text.exists_lineAt (hstart : StartsLine front) (hlead : '\n' ∉ lead)
    (hfirst : LineAt text [] first tail) (hne : first ≠ [])
    (hlast : after ≠ [] → ∀ c ∈ text.getLast?, Lexeme.isBlank c = false) :
    ∃ more back, LineAt (front ++ lead ++ text ++ after) front (lead ++ (first ++ more)) back := by
  obtain ⟨hsplit, -, hinner, hstop⟩ := hfirst
  rw [List.nil_append] at hsplit
  subst hsplit
  cases hstop with
  | finish =>
    obtain ⟨more, back, rfl, hmore, hends⟩ := exists_line after
    refine ⟨more, back, by simp, hstart, by simp [hlead, hinner, hmore], ?_⟩
    by_cases hnil : more = []
    · subst hnil
      rw [List.append_nil]
      cases hends with
      | finish => exact .finish
      | crlf => exact .crlf
      | lf _ =>
        refine .lf fun hcr => ?_
        rw [List.getLast?_append_of_ne_nil _ hne] at hcr
        cases hlast (by simp) '\r' (by simpa using hcr)
    · rw [← List.append_assoc]
      exact hends.append hnil _
  | @crlf more =>
    refine ⟨[], '\r' :: '\n' :: more ++ after, by simp, hstart, by simp [hlead, hinner], ?_⟩
    rw [List.append_nil]
    exact .crlf
  | @lf more hcr =>
    refine ⟨[], '\n' :: more ++ after, by simp, hstart, by simp [hlead, hinner], ?_⟩
    rw [List.append_nil]
    exact EndsLine.append (.lf hcr) hne lead

namespace Span

/-- The text of a stretch starts with a piece of the line that the stretch starts in. -/
theorem Marks.startsIn {span : Span} {source : String} (h : span.Marks before text)
    (hsplit : source.toList = before ++ text ++ after) (hne : text ≠ [])
    (hhead : ∀ c ∈ text.head?, Lexeme.isBlank c = false)
    (hlast : after ≠ [] → ∀ c ∈ text.getLast?, Lexeme.isBlank c = false) :
    ∃ lead first more tail, first ≠ [] ∧ Text.LineAt text [] first tail ∧
      span.StartsIn source lead (first ++ more) := by
  obtain ⟨front, lead, rfl, hstart, hlead, hcount, hlength⟩ := Text.exists_startsLine before
  obtain ⟨first, tail, rfl, hinner, hends⟩ := Text.exists_line text
  have hfirst := Text.ne_nil_of_endsLine hends hne hhead
  have hline : Text.LineAt (first ++ tail) [] first tail := ⟨rfl, .inl rfl, hinner, hends⟩
  obtain ⟨more, back, hat⟩ := Text.exists_lineAt hstart hlead hline hfirst hlast
  rw [← hsplit] at hat
  exact ⟨lead, first, more, tail, hfirst, hline, front, back, hat, h.start, by rw [h.line, hcount],
    by rw [h.column, hlength]⟩

/-- The end of a text stands behind all of its last line. -/
theorem exists_startsIn_endMark {source : String} (hopen : ¬ Text.StartsLine source.toList) :
    ∃ lead, lead ≠ [] ∧ (Scan.endMark source).span.StartsIn source lead [] := by
  have h : (Scan.endMark source).span.Marks source.toList [] := marks_ofText source.toList []
  obtain ⟨front, lead, hsplit, hstart, hlead, hcount, hlength⟩ :=
    Text.exists_startsLine source.toList
  have hat : Text.LineAt source.toList front (lead ++ []) [] :=
    ⟨by simp [hsplit], hstart, by simpa using hlead, .finish⟩
  refine ⟨lead, ?_, front, [], hat, by rw [h.start, hsplit], by rw [h.line, hcount], by
    rw [h.column, hlength]⟩
  rintro rfl
  rw [hsplit, List.append_nil] at hopen
  exact hopen hstart

theorem StartsIn.sourceLine? {span : Span} (h : span.StartsIn source lead rest)
    (hne : lead ++ rest ≠ []) :
    Diagnostic.sourceLine? source span = some (lead ++ rest) := by
  obtain ⟨front, back, hat, -, hline, -⟩ := h
  rw [Diagnostic.sourceLine?, hline, Nat.add_sub_cancel_left]
  exact hat.getElem?_lines.trans (if_neg fun hnil => hne (List.append_eq_nil_iff.mp hnil).1)

/-- There is no line to show behind the last line feed of a text. -/
theorem sourceLine?_endMark {source : String} (h : Text.StartsLine source.toList) :
    Diagnostic.sourceLine? source (Scan.endMark source).span = none := by
  have hmarks : (Scan.endMark source).span.Marks source.toList [] := marks_ofText source.toList []
  have hat : Text.LineAt source.toList source.toList [] [] :=
    ⟨by simp, h, List.not_mem_nil, .finish⟩
  rw [Diagnostic.sourceLine?, hmarks.line, Nat.add_sub_cancel_left]
  exact hat.getElem?_lines

end Span

namespace Scan

variable {names : Interner} {source : String}

/-- A token or an error stands for a piece of a source line. -/
theorem exists_startsIn {span : Span} (h : span ∈ (scan names source).spans) :
    ∃ lead first more text tail, first ≠ [] ∧ span.chars? source = some text ∧
      Text.LineAt text [] first tail ∧ span.StartsIn source lead (first ++ more) := by
  obtain ⟨l, hl, rfl, hgap⟩ := mem_spans h
  obtain ⟨before, after, hstands⟩ := Lexeme.exists_stands hl
  obtain ⟨hhead, hlast⟩ := hstands.cuts.edges hgap
  obtain ⟨lead, first, more, tail, hfirst, hline, hstarts⟩ :=
    hstands.marks.startsIn hstands.split hstands.ne_nil hhead hlast
  exact ⟨lead, first, more, l.text, tail, hfirst, hstands.chars?, hline, hstarts⟩

/-- The tokens are those that stand for some text and the end mark. -/
theorem mem_spans_or_eq {span : Span} (h : span ∈ (scan names source).places) :
    span ∈ (scan names source).spans ∨ span = (endMark source).span := by
  rcases List.mem_append.mp h with h | h
  · obtain ⟨t, ht, rfl⟩ := List.mem_map.mp h
    have hall : (scan names source).tokens.dropLast ++ [endMark source] =
        (scan names source).tokens :=
      List.dropLast_append_getLast? (endMark source) List.getLast?_concat
    rw [← hall] at ht
    rcases List.mem_append.mp ht with ht | ht
    · exact .inl (List.mem_append_left _ (List.mem_map_of_mem ht))
    · exact .inr (congrArg Token.span (List.mem_singleton.mp ht))
  · exact .inl (List.mem_append_right _ h)

end Scan

/-! ## Rows -/

theorem Text.length_times (n : Nat) (text : String) : (times n text).length = n * text.length := by
  induction n with
  | zero => simp [times]
  | succ n ih =>
    unfold times at ih ⊢
    rw [List.replicate_succ, String.join_cons, String.length_append, ih, Nat.succ_mul, Nat.add_comm]

namespace Diagnostic

variable {d : Diagnostic} {source : String} {lead rest : List Char}

theorem highlighted_eq {span : Span} (hchars : span.chars? source = some text)
    (hline : Text.LineAt text [] first tail) (hne : first ≠ []) :
    highlighted source span = first.length := by
  have hhead := Text.head?_lines hline.inner hline.stop (by simp [hne])
  rw [← List.nil_append first, ← hline.split] at hhead
  simp [highlighted, hchars, List.headD_eq_head?_getD, hhead]

/-- The first line of the text of a place is as long as the carets are many. -/
theorem caretCount_eq {span : Span} (h : span.StartsIn source lead (first ++ more))
    (hchars : span.chars? source = some text) (hline : Text.LineAt text [] first tail)
    (hne : first ≠ []) :
    caretCount source (lead ++ (first ++ more)) span = first.length := by
  obtain ⟨_, _, _, _, _, hcolumn⟩ := h
  have hpos := List.length_pos_iff.mpr hne
  have hindent : caretIndent span = lead.length := by
    rw [caretIndent, hcolumn, Nat.add_sub_cancel_left]
  rw [caretCount, highlighted_eq hchars hline hne, hindent, List.length_append, List.length_append]
  omega

theorem render_of_none (h : sourceLine? source d.span = none) :
    d.render colors source = d.header colors ++ d.remarks colors := by
  simp [render, snippet, h, remarks, String.append_assoc]

/-- The line that is found is shown, with its carets. -/
theorem shows_of_sourceLine? (h : sourceLine? source d.span = some (lead ++ rest)) (colors : Bool) :
    d.Shows colors source lead rest (caretCount source (lead ++ rest) d.span) := by
  simp only [Shows, render, snippet, h, rowAhead, caretsAhead, caretIndent, remarks,
    String.ofList_append, String.append_assoc]

theorem not_shows_of_hidden (h : d.render colors source = d.header colors ++ d.remarks colors) :
    ¬ d.Shows colors source lead rest n := by
  intro hshows
  have hlength := congrArg String.length (h.symm.trans hshows)
  simp only [String.length_append] at hlength
  have hbreak : "\n".length = 1 := rfl
  omega

/-- The gutter of the carets is as wide as a number of four digits needs. -/
theorem length_rowAhead_eq_iff (h : d.span.StartsIn source lead rest) :
    (d.rowAhead lead).length = d.caretsAhead.length ↔ d.span.line < 10000 := by
  obtain ⟨_, _, _, _, _, hcolumn⟩ := h
  have hdigits : (toString d.span.line).length ≤ 4 ↔ d.span.line < 10000 :=
    Nat.length_repr_le_iff (by decide)
  have hgutter : "     | ".length = 4 + " | ".length := rfl
  have hblank : " ".length = 1 := rfl
  rw [← hdigits]
  simp only [rowAhead, caretsAhead, Text.padLeft, String.length_append, Text.length_times,
    String.length_ofList, hcolumn, hgutter, hblank]
  omega

end Diagnostic

/-! ## What is shown -/

/-- Whatever a diagnostic with the place of a token or of a scanning error says, its carets cover
the first line of the text of that place, in the line that this text starts in. -/
theorem carets_cover_offending_text (names : Interner) (source : String) (d : Diagnostic)
    (hplace : d.span ∈ (scan names source).places) (hne : d.span.start < d.span.stop) :
    ∃ lead first rest text tail, d.span.StartsIn source lead (first ++ rest) ∧
      d.span.chars? source = some text ∧ Text.LineAt text [] first tail ∧ 1 ≤ first.length ∧
      d.Shows false source lead (first ++ rest) first.length := by
  rcases Scan.mem_spans_or_eq hplace with hplace | hplace
  · obtain ⟨lead, first, rest, text, tail, hfirst, hchars, hline, hstarts⟩ :=
      Scan.exists_startsIn hplace
    have hshows := Diagnostic.shows_of_sourceLine? (hstarts.sourceLine? (by simp [hfirst])) false
    rw [Diagnostic.caretCount_eq hstarts hchars hline hfirst] at hshows
    exact ⟨lead, first, rest, text, tail, hstarts, hchars, hline,
      List.length_pos_iff.mpr hfirst, hshows⟩
  · rw [hplace] at hne
    exact absurd hne (Nat.lt_irrefl _)

theorem carets_cover_unclosed_string :
    let source := "x = \"é\r\nb"
    ∃ e, (scan .initial source).errors = [e] ∧ e.span.start < e.span.stop ∧
      ∃ lead first rest text tail, e.span.StartsIn source lead (first ++ rest) ∧
        e.span.chars? source = some text ∧ Text.LineAt text [] first tail ∧ 1 ≤ first.length ∧
        e.diagnostic.Shows false source lead (first ++ rest) first.length := by
  intro source
  have hone : (scan .initial source).errors.map ScanError.span = [⟨4, 10, 1, 5⟩] := by
    decide +kernel
  obtain ⟨e, he, hspan⟩ := List.map_eq_singleton_iff.mp hone
  have hne : e.span.start < e.span.stop := by
    rw [hspan]
    decide
  have hplace : e.span ∈ (scan .initial source).places :=
    List.mem_append_right _ (List.mem_map_of_mem (he ▸ List.mem_singleton_self e))
  exact ⟨e, he, hne, carets_cover_offending_text .initial source e.diagnostic hplace hne⟩

-- Two carets stand under the quote and the letter of two bytes; the line ends in front of the
-- carriage return.
example :
    let source := "x = \"é\r\nb"
    (scan .initial source).errors.map (fun e => e.diagnostic.render false source) =
      ["[line 1, column 5] error[E0102]: unterminated string\n" ++
        "   1 | x = \"é\n     |     ^^\n"] := by
  decide +kernel

theorem Diagnostic.displayed (d : Diagnostic) (hplace : d.span ∈ (scan names source).places)
    (colors : Bool) :
    d.Displayed colors source where
  hidden hend hstart := by
    refine render_of_none ?_
    rw [hend]
    exact Span.sourceLine?_endMark hstart
  shown hopen := by
    have hstarts : ∃ lead rest, lead ++ rest ≠ [] ∧ d.span.StartsIn source lead rest := by
      rcases Scan.mem_spans_or_eq hplace with hplace | hplace
      · obtain ⟨lead, first, more, -, -, hfirst, -, -, hstarts⟩ := Scan.exists_startsIn hplace
        exact ⟨lead, first ++ more, by simp [hfirst], hstarts⟩
      · obtain ⟨lead, hlead, hstarts⟩ := Span.exists_startsIn_endMark fun hstart =>
          hopen ⟨hplace, hstart⟩
        rw [← hplace] at hstarts
        exact ⟨lead, [], by simpa using hlead, hstarts⟩
    obtain ⟨lead, rest, hne, hstarts⟩ := hstarts
    exact ⟨lead, rest, _, hstarts, Nat.le_max_left ..,
      shows_of_sourceLine? (hstarts.sourceLine? hne) colors, length_rowAhead_eq_iff hstarts⟩

/-- What is wrong with a text is at a token of it, which may be the end mark, or at a scanning
error. -/
theorem span_mem_of_mem_diagnostics {d : Diagnostic}
    (h : d ∈ (readSource names source).diagnostics) :
    d.span ∈ (scan names source).places := by
  rcases List.mem_append.mp h with h | h
  · obtain ⟨e, he, rfl⟩ := List.mem_map.mp h
    exact List.mem_append_right _ (List.mem_map_of_mem he)
  · obtain ⟨e, he, rfl⟩ := List.mem_map.mp h
    obtain ⟨t, ht, hspan, -⟩ := (readSource_placed names source).2 e he
    exact List.mem_append_left _ (List.mem_map.mpr ⟨t, ht, hspan.symm⟩)

/-- Everything wrong with a text is shown with its place, except at an end where no line is left to
show. -/
theorem syntax_diagnostics_are_displayed (names : Interner) (source : String) (colors : Bool)
    (d : Diagnostic) (hd : d ∈ (readSource names source).diagnostics) : d.Displayed colors source :=
  d.displayed (span_mem_of_mem_diagnostics hd) colors

theorem unfinished_sum_is_displayed :
    ∃ d, (readSource .initial "1 +").diagnostics = [d] ∧ d.span = (Scan.endMark "1 +").span ∧
      d.Displayed false "1 +" := by
  have hone : (readSource .initial "1 +").diagnostics.map Diagnostic.span =
      [(Scan.endMark "1 +").span] := by
    decide +kernel
  obtain ⟨d, hd, hspan⟩ := List.map_eq_singleton_iff.mp hone
  exact ⟨d, hd, hspan,
    syntax_diagnostics_are_displayed .initial "1 +" false d (hd ▸ List.mem_singleton_self d)⟩

/-- A closing parenthesis that is missed behind the last line feed: neither a row nor a caret is
shown. -/
theorem missed_parenthesis_is_not_shown :
    ∃ d ∈ (readSource .initial "print (1\n").diagnostics, d.span.line = 2 ∧ d.span.column = 1 ∧
      ∀ lead rest n, ¬ d.Shows false "print (1\n" lead rest n := by
  have hone : (readSource .initial "print (1\n").diagnostics.map Diagnostic.span =
      [⟨9, 9, 2, 1⟩] := by
    decide +kernel
  obtain ⟨d, hd, hspan⟩ := List.map_eq_singleton_iff.mp hone
  have hnone : Diagnostic.sourceLine? "print (1\n" d.span = none := by
    rw [hspan]
    decide +kernel
  refine ⟨d, hd ▸ List.mem_singleton_self d, by rw [hspan], by rw [hspan], fun lead rest n => ?_⟩
  exact Diagnostic.not_shows_of_hidden (Diagnostic.render_of_none hnone)

end TreeWalk
