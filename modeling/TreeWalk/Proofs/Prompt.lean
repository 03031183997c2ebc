import TreeWalk.Proofs.Console
import TreeWalk.Proofs.Diagnostic.Snippets
import TreeWalk.Proofs.Parser.SoleExpression
import TreeWalk.Proofs.Session.InPlace

/-!
# Failures at the prompt

At the prompt a line may fail in code that was written in a line before it. The diagnostic has the
place of the token in its own line, but it is rendered against the line being run. So the row shown
is the one that the token was written in, with the carets under the token, just if the two lines are
the same.
-/

namespace TreeWalk

/-! ## The statement -/

/-- Rendered against `source`, the diagnostic shows the line `origin`, and its carets stand right
under the text that its place has there. -/
def Diagnostic.PointsOut (colors : Bool) (source : String) (d : Diagnostic)
    (origin : String) : Prop :=
  ∃ lead text rest, origin.toList = lead ++ text ++ rest ∧ d.span.start = Text.byteLength lead ∧
    d.span.chars? origin = some text ∧ d.Shows colors source lead (text ++ rest) text.length ∧
    (d.rowAhead lead).length = d.caretsAhead.length

namespace Console

/-- The prompt has been given these lines, one after the other, and goes on. -/
inductive Prompted (fuel : Nat) (c₀ : Console) : List String → Console → Prop where
  | start : Prompted fuel c₀ [] c₀
  | answer : Prompted fuel c₀ lines c → decode bytes = .ok line → '\n' ∉ line.toList →
      c.ask.answer fuel bytes = some (none, c') → Prompted fuel c₀ (lines ++ [line]) c'

/-- The lines of an input have been run one after the other, each of them in place. -/
inductive RanInPlace (fuel : Nat) (c₀ : Console) : List String → Console → Prop where
  | start : RanInPlace fuel c₀ [] c₀
  | run : RanInPlace fuel c₀ lines c → c.run fuel (numbered lines.length line) = some c' →
      RanInPlace fuel c₀ (lines ++ [line]) { c' with session := c'.session.resetSink }

/-- The token at fault was written in the line that has `k` others before it: when all lines are run
in place, the one that fails reports the same, `k` lines further down. -/
def WrittenIn (fuel : Nat) (c₀ : Console) (lines : List String) (line : String) (d : Diagnostic)
    (k : Nat) : Prop :=
  d.span.line = 1 ∧ ∃ c s, RanInPlace fuel c₀ lines c ∧
    c.session.run fuel (numbered lines.length line) = some s ∧
    s.sink.diagnostics.toList = [{ d with span := d.span.shift k k }]

/-- What the prompt writes of a diagnostic when a line has failed. -/
structure ShowsFailure (fuel : Nat) (c₀ : Console) (lines : List String) (line : String)
    (c c' : Console) (d : Diagnostic) : Prop where
  written : ∃ logged, c'.stderr = c.stderr ++ logged ++ d.render c.colors line
  /-- The row is that of the line being run. -/
  row : ∃ n, 1 ≤ n ∧ d.Shows c.colors line line.toList [] n
  /-- This is the row of the token at fault, with carets under it, just if its line is the one being
  run. -/
  origin : ∃ k origin, (lines ++ [line])[k]? = some origin ∧
    (∀ j, WrittenIn fuel c₀ lines line d j ↔ j = k) ∧
    (∃ t ∈ (scan .initial origin).tokens.dropLast, t.span = d.span) ∧
    (d.PointsOut c.colors line origin ↔ origin = line)

end Console

/-! ## Texts of one line -/

section

variable {names : Interner} {line origin : String} {d : Diagnostic}

theorem Span.Marks.line_eq_one {span : Span} {source : String} (h : span.Marks before text)
    (hsplit : source.toList = before ++ text ++ after) (hline : '\n' ∉ source.toList) :
    span.line = 1 := by
  rw [h.line, List.count_eq_zero.mpr]
  rw [hsplit] at hline
  exact fun hmem => hline (by simp [hmem])

theorem Scan.line_eq_one {span : Span} (hline : '\n' ∉ line.toList)
    (h : span ∈ (scan names line).places) :
    span.line = 1 := by
  rcases Scan.mem_spans_or_eq h with h | rfl
  · obtain ⟨l, hl, rfl, -⟩ := Scan.mem_spans h
    obtain ⟨before, after, hstands⟩ := Lexeme.exists_stands hl
    exact hstands.marks.line_eq_one hstands.split hline
  · have hmarks : (Scan.endMark line).span.Marks line.toList [] := Span.marks_ofText line.toList []
    have hsplit : line.toList = line.toList ++ [] ++ [] := by simp
    exact hmarks.line_eq_one hsplit hline

theorem SourceRead.Place.line_eq_one (hline : '\n' ∉ line.toList)
    (h : (readSource names line).Place a) :
    a.line = 1 := by
  obtain ⟨t, ht, u, -, rfl⟩ := h
  have hfirst : t.span.line = 1 :=
    Scan.line_eq_one hline (List.mem_append_left _ (List.mem_map_of_mem ht))
  exact hfirst

/-- Where tokens stand does not depend on the names known before. -/
theorem Scan.exists_initial_token (h : t ∈ Scan.words names line) :
    ∃ u ∈ (scan .initial line).tokens.dropLast, u.span = t.span := by
  have hspan : t.span ∈ (Scan.words names line).map Token.span := List.mem_map_of_mem h
  rw [Scan.words, Scan.spans_ofLexemes, ← Scan.spans_ofLexemes .initial,
    ← Scan.dropLast_scan] at hspan
  exact List.mem_map.mp hspan

/-- An error that is found in place at a token belongs to the line with the number of its place. -/
theorem Span.Renumbered.exists_origin {input : List String}
    (hinput : ∀ line ∈ input, '\n' ∉ line.toList) (h : Span.Renumbered input a b)
    (htext : IsLineOf input text) (hw : w ∈ Scan.words names text) (hspan : w.span = b) :
    ∃ k origin, input[k]? = some origin ∧ b = a.shift k k ∧ a.line = 1 ∧
      ∃ t ∈ (scan .initial origin).tokens.dropLast, t.span = a := by
  obtain ⟨k, line, names', hk, hplace, rfl⟩ := h
  obtain ⟨j, line', hj, rfl⟩ := htext
  rw [(scan_numbered names j line').1] at hw
  obtain ⟨t, ht, rfl⟩ := List.mem_map.mp hw
  have hline := hplace.line_eq_one (hinput line (List.mem_of_getElem? hk))
  have hline' : t.span.line = 1 :=
    Scan.line_eq_one (hinput line' (List.mem_of_getElem? hj))
      (List.mem_append_left _ (List.mem_map_of_mem (List.mem_append_left _ ht)))
  have hnumber : t.span.line + j = a.line + k := congrArg Span.line hspan
  obtain rfl : j = k := by omega
  obtain rfl : line' = line := Option.some.inj (hj.symm.trans hk)
  have hsame : t.span = a := by
    rw [← Span.unshift_shift j t.span, ← Span.unshift_shift j a]
    exact congrArg (Span.unshift j) hspan
  obtain ⟨u, hu, huspan⟩ := Scan.exists_initial_token ht
  exact ⟨j, line', hj, rfl, hline, u, hu, huspan.trans hsame⟩

/-- A token stands for a piece of the only line. -/
theorem Scan.exists_piece {span : Span} (hline : '\n' ∉ line.toList)
    (h : span ∈ (scan names line).spans) :
    span.line = 1 ∧ ∃ lead text rest, text ≠ [] ∧ line.toList = lead ++ text ++ rest ∧
      span.start = Text.byteLength lead ∧ span.chars? line = some text ∧
      span.StartsIn line lead (text ++ rest) := by
  obtain ⟨l, hl, rfl, -⟩ := Scan.mem_spans h
  obtain ⟨before, after, hstands⟩ := Lexeme.exists_stands hl
  have hsplit := hstands.split
  have hmarks := hstands.marks
  have hbefore : '\n' ∉ before := fun hmem => hline (by simp [hsplit, hmem])
  have hcolumn : before.rtakeWhile (· != '\n') = before := by
    refine List.rtakeWhile_eq_self_iff.mpr fun c hc => ?_
    rw [bne_iff_ne]
    rintro rfl
    exact hbefore hc
  have hat : Text.LineAt line.toList [] (before ++ (l.text ++ after)) [] :=
    ⟨by simp [hsplit], .inl rfl, by simpa [hsplit] using hline, .finish⟩
  have hfirst := hmarks.line_eq_one hsplit hline
  refine ⟨hfirst, before, l.text, after, hstands.ne_nil, hsplit, hmarks.start, hstands.chars?,
    [], [], hat, hmarks.start, hfirst, ?_⟩
  rw [hmarks.column, hcolumn]

theorem Diagnostic.sourceLine?_of_line (hline : '\n' ∉ line.toList) {span : Span}
    (hspan : span.line = 1) (hne : line ≠ "") : sourceLine? line span = some line.toList := by
  have hat : Text.LineAt line.toList [] line.toList [] := ⟨by simp, .inl rfl, hline, .finish⟩
  rw [sourceLine?, hspan]
  exact hat.getElem?_lines.trans (if_neg (by simpa using hne))

theorem Diagnostic.sourceLine?_empty {span : Span} (hspan : span.line = 1) :
    sourceLine? "" span = none := by
  rw [sourceLine?, hspan]
  rfl

theorem Text.eq_of_append_lf (h : cs ++ '\n' :: more = cs' ++ '\n' :: more') (hcs : '\n' ∉ cs)
    (hcs' : '\n' ∉ cs') :
    cs = cs' := by
  have htake : ∀ {cs more : List Char}, '\n' ∉ cs →
      (cs ++ '\n' :: more).takeWhile (· != '\n') = cs := by
    intro cs more hcs
    have hall : ∀ c ∈ cs, (c != '\n') = true := by
      intro c hc
      rw [bne_iff_ne]
      rintro rfl
      exact hcs hc
    simp [List.takeWhile_append_of_pos hall]
  rw [← htake hcs, h, htake hcs']

/-- Only one line is shown. -/
theorem Diagnostic.Shows.line_unique (h : d.Shows colors source lead rest n)
    (h' : d.Shows colors source lead' rest' n') (hline : '\n' ∉ lead ++ rest)
    (hline' : '\n' ∉ lead' ++ rest') : lead ++ rest = lead' ++ rest' := by
  have hbreak : "\n".toList = ['\n'] := rfl
  have hrows := congrArg String.toList (h.symm.trans h')
  simp only [rowAhead, String.toList_append, String.toList_ofList, hbreak, List.append_assoc,
    List.singleton_append, List.append_cancel_left_eq] at hrows
  rw [← List.append_assoc, ← List.append_assoc lead'] at hrows
  exact Text.eq_of_append_lf hrows hline hline'

/-- A diagnostic about a token of a line points it out just if it is rendered against that line. -/
theorem Diagnostic.pointsOut_iff (hline : '\n' ∉ line.toList) (horigin : '\n' ∉ origin.toList)
    (hspan : d.span ∈ (scan names origin).spans) (colors : Bool) :
    d.PointsOut colors line origin ↔ origin = line := by
  obtain ⟨hfirst, lead, text, rest, hne, hsplit, hstart, hchars, hstarts⟩ :=
    Scan.exists_piece horigin hspan
  constructor
  · rintro ⟨lead', text', rest', hsplit', -, -, hshows, -⟩
    by_cases hempty : line = ""
    · subst hempty
      exact absurd hshows (not_shows_of_hidden (render_of_none (sourceLine?_empty hfirst)))
    · have hrow : d.Shows colors line line.toList [] _ :=
        shows_of_sourceLine? (by rw [sourceLine?_of_line hline hfirst hempty, List.append_nil])
          colors
      rw [hsplit', List.append_assoc] at horigin
      have hsame := hshows.line_unique hrow horigin (by simpa using hline)
      rw [← List.append_assoc, ← hsplit', List.append_nil] at hsame
      exact String.toList_inj.mp hsame
  · rintro rfl
    have hshows := shows_of_sourceLine? (hstarts.sourceLine? (by simp [hne])) colors
    have hpiece : Text.LineAt text [] text [] :=
      ⟨by simp, .inl rfl, fun hmem => hline (by simp [hsplit, hmem]), .finish⟩
    rw [caretCount_eq hstarts hchars hpiece hne] at hshows
    refine ⟨lead, text, rest, hsplit, hstart, hchars, hshows,
      (length_rowAhead_eq_iff hstarts).mpr ?_⟩
    rw [hfirst]
    decide

end

/-! ## What fails -/

theorem RuntimeError.Linked.diagnostic_moved {L : Link} {e e' : RuntimeError} (h : e.Linked L e') :
    e'.diagnostic = { e.diagnostic with span := e'.span } := by
  rw [RuntimeError.diagnostic, RuntimeError.diagnostic, h.code, h.message, h.suggestion]

theorem readSource_empty (names : Interner) :
    (readSource names "").diagnostics = [] ∧ (readSource names "").program.statements = [] := by
  have hscan : Scan.ofLexemes names (Lexeme.all .origin "".toList) = ⟨[], [], names⟩ := by
    rw [String.toList_empty, Lexeme.all]
    rfl
  have hquiet : Parser.programBody.quiet (.ofTokens "" (scan names "").tokens)
      ((scan names "").tokens.takeWhile (!·.isEof)) = some (⟨[]⟩, []) := by
    rw [Scan.takeWhile_scan, Scan.words, hscan, Parser.quiet, Parser.programBody_eq,
      Parser.Reply.quiet_map]
    change ((Parser.collect (fun _ => Parser.declarationStep) 0).quiet _ []).map _ = _
    rw [Parser.quiet_declarations_nil]
    rfl
  obtain ⟨hparsed, hprogram⟩ := parse_eq_iff.mp ⟨[], hquiet⟩
  exact ⟨SourceRead.diagnostics_eq_nil.mpr ⟨congrArg Scan.errors hscan, hparsed⟩,
    congrArg Program.statements hprogram⟩

/-- The empty text runs as the empty program, which reports nothing. -/
theorem Session.sink_of_run_empty {s t : Session} (h : s.run n "" = some t) : t.sink = s.sink := by
  obtain ⟨hsound, hnone⟩ := readSource_empty s.names
  have hended := run_ended hsound h
  rw [hnone] at hended
  cases hended with
  | ok _ _ hsink => exact hsink

namespace Console

variable {c c' c₀ w : Console} {lines input : List String}

/-- The answer to a line is to run it and to write what came of this. -/
theorem of_answer (hdump : c.dump = none) (hdecode : decode bytes = .ok line)
    (h : c.ask.answer fuel bytes = some (none, c')) :
    ∃ s, c.session.run fuel line = some s ∧ c'.session = s.settled ∧ c'.dump = none ∧
      c'.stderr = c.stderr ++ c.logger.lines s.log.toList ++
        Diagnostic.renderAll c.colors line s.sink.diagnostics.toList := by
  simp only [answer, hdecode] at h
  split at h
  · cases h
  · have hask : c.ask.dump = none := hdump
    rw [run_of_undumped hask, Option.map_map] at h
    obtain ⟨s, hs, hc'⟩ := Option.map_eq_some_iff.mp h
    cases hc'
    exact ⟨s, hs, rfl, hdump, rfl⟩

/-- The bytes of a line. -/
def encode (line : String) : List UInt8 :=
  line.toByteArray.data.toList

theorem decode_encode (line : String) : decode (encode line) = .ok line := by
  have hread : String.fromUTF8? line.toByteArray = some line := dif_pos line.isValidUTF8
  have hbytes : (⟨(encode line).toArray⟩ : ByteArray) = line.toByteArray := rfl
  rw [decode, hbytes, hread]

/-- A line that does not ask to quit is answered if it can be run. -/
theorem exists_answer (hdump : c.dump = none) (hquit : isQuit line = false)
    (h : c.session.run fuel line = some s) :
    ∃ c', c.ask.answer fuel (encode line) = some (none, c') ∧ c'.session = s.settled ∧
      c'.dump = none := by
  have hask : c.ask.dump = none := hdump
  have hrun : c.ask.session.run fuel line = some s := h
  simp only [answer, decode_encode, hquit, run_of_undumped hask, hrun]
  exact ⟨_, rfl, rfl, hdump⟩

theorem of_run (hdump : w.dump = none) (h : w.session.run fuel text = some s) :
    ∃ w', w.run fuel text = some w' ∧ w'.session.resetSink = s.settled ∧ w'.dump = none := by
  rw [run_of_undumped hdump, h]
  exact ⟨_, rfl, rfl, hdump⟩

/-- There is one way to run lines in place. -/
theorem RanInPlace.unique (h : RanInPlace fuel c₀ lines c) (h' : RanInPlace fuel c₀ lines c') :
    c = c' := by
  induction h generalizing c' with
  | start =>
    generalize hlines : ([] : List String) = lines at h'
    cases h' with
    | start => rfl
    | run => simp at hlines
  | @run lines c line c₁ _ hrun ih =>
    generalize hlines : lines ++ [line] = all at h'
    cases h' with
    | start => simp at hlines
    | run h' hrun' =>
      obtain ⟨rfl, hline⟩ := List.append_inj' hlines rfl
      cases hline
      obtain rfl := ih h'
      rw [Option.some.inj (hrun.symm.trans hrun')]

theorem WrittenIn.unique (h : WrittenIn fuel c₀ lines line d k)
    (h' : WrittenIn fuel c₀ lines line d j) : j = k := by
  obtain ⟨-, c, s, hc, hs, hreport⟩ := h
  obtain ⟨-, c', s', hc', hs', hreport'⟩ := h'
  obtain rfl := hc.unique hc'
  obtain rfl := Option.some.inj (hs.symm.trans hs')
  have hsame := List.singleton_inj.mp (hreport'.symm.trans hreport)
  have hline : d.span.line + j = d.span.line + k := congrArg (·.span.line) hsame
  exact Nat.add_left_cancel hline

/-- Two consoles of which the first one has run lines of the input as they are, and the second one
in place. -/
structure Twins (input : List String) (c w : Console) : Prop where
  place : c.session.InPlace input w.session
  sinks : c.session.sink = {} ∧ w.session.sink = {}
  dumps : c.dump = none ∧ w.dump = none

theorem Prompted.noLineFeed (h : Prompted fuel c₀ lines c) :
    ∀ line ∈ lines, '\n' ∉ line.toList := by
  induction h with
  | start => exact fun _ hmem => absurd hmem List.not_mem_nil
  | answer _ _ hline _ ih =>
    exact List.forall_mem_append.mpr ⟨ih, List.forall_mem_singleton.mpr hline⟩

/-- Whatever lines the prompt has been given, they can be run in place. -/
theorem Prompted.exists_twin (h : Prompted fuel c₀ lines c)
    (hstart : c₀.session = Session.opened {}) (hdump : c₀.dump = none) (hinput : lines <+: input) :
    ∃ w, RanInPlace fuel c₀ lines w ∧ Twins input c w := by
  induction h with
  | start =>
    refine ⟨c₀, .start, ?_, ?_, hdump, hdump⟩
    · rw [hstart]
      exact Session.inPlace_opened {}
    · rw [hstart]
      exact ⟨rfl, rfl⟩
  | @answer lines c bytes line c' _ hdecode _ hanswer ih =>
    obtain ⟨w, hw, htwins⟩ := ih ((List.prefix_append lines [line]).trans hinput)
    obtain ⟨s, hs, hsession, hdump', -⟩ := of_answer htwins.dumps.1 hdecode hanswer
    have hk : input[lines.length]? = some line := by
      obtain ⟨more, rfl⟩ := hinput
      simp
    obtain ⟨t, ht, hplace⟩ := htwins.place.run hk hs
    obtain ⟨w', hw', hsession', hdump''⟩ := of_run htwins.dumps.2 ht
    refine ⟨_, .run hw hw', ?_, ?_, hdump', hdump''⟩
    · dsimp only
      rw [hsession, hsession']
      exact hplace.settled
    · dsimp only
      rw [hsession, hsession']
      exact ⟨rfl, rfl⟩

/-! ## What is shown -/

/-- A line that fails at the prompt is shown itself, whichever line the token at fault was written
in. -/
theorem Twins.showsFailure (h : Twins (lines ++ [line]) c w) (hw : RanInPlace fuel c₀ lines w)
    (hfree : ∀ l ∈ lines ++ [line], '\n' ∉ l.toList) (hrun : c.session.run fuel line = some s)
    (hstderr : c'.stderr = c.stderr ++ logged ++ Diagnostic.renderAll c.colors line
      s.sink.diagnostics.toList)
    (hd : d ∈ s.sink.diagnostics.toList) (hruntime : d.isRuntime = true) :
    ShowsFailure fuel c₀ lines line c c' d := by
  have hk : (lines ++ [line])[lines.length]? = some line := by simp
  have hline : '\n' ∉ line.toList := hfree line (by simp)
  obtain ⟨t, ht, -⟩ := h.place.run hk hrun
  obtain ⟨e, e', hsink, hsink', he, names, text, htext, u, hu, hspan⟩ :=
    h.place.failure hk hrun ht h.sinks.1 h.sinks.2 hd hruntime
  have hone : s.sink.diagnostics.toList = [e.diagnostic] := by
    rw [hsink]
    rfl
  rw [hone] at hd hstderr
  obtain rfl := List.mem_singleton.mp hd
  obtain ⟨k, origin, horigin, hshift, hfirst, v, hv, hvspan⟩ :=
    he.span.exists_origin hfree htext hu hspan
  have hin : e.diagnostic.span ∈ (scan .initial origin).spans :=
    List.mem_append_left _ (List.mem_map.mpr ⟨v, hv, hvspan⟩)
  have hempty : line ≠ "" := by
    rintro rfl
    rw [Session.sink_of_run_empty hrun, h.sinks.1] at hone
    cases hone
  have hrow : Diagnostic.sourceLine? line e.diagnostic.span = some line.toList :=
    Diagnostic.sourceLine?_of_line hline hfirst hempty
  have hwritten : WrittenIn fuel c₀ lines line e.diagnostic k := by
    refine ⟨hfirst, w, t, hw, ht, ?_⟩
    rw [hsink']
    change [e'.diagnostic] = _
    rw [he.diagnostic_moved, hshift]
    rfl
  refine ⟨⟨logged, ?_⟩, ⟨_, Nat.le_max_left .., Diagnostic.shows_of_sourceLine? ?_ c.colors⟩, k,
    origin, horigin, fun j => ⟨hwritten.unique, fun hj => hj ▸ hwritten⟩, ⟨v, hv, hvspan⟩, ?_⟩
  · rw [hstderr]
    simp [Diagnostic.renderAll]
  · rw [hrow, List.append_nil]
  · exact Diagnostic.pointsOut_iff hline (hfree origin (List.mem_of_getElem? horigin)) hin c.colors

theorem Prompted.showsFailure (h : Prompted fuel c₀ lines c)
    (hstart : c₀.session = Session.opened {}) (hdump : c₀.dump = none)
    (hdecode : decode bytes = .ok line) (hline : '\n' ∉ line.toList)
    (hanswer : c.ask.answer fuel bytes = some (none, c')) :
    ∃ s, c.session.run fuel line = some s ∧ ∀ d ∈ s.sink.diagnostics.toList, d.isRuntime = true →
      ShowsFailure fuel c₀ lines line c c' d := by
  obtain ⟨w, hw, htwins⟩ := h.exists_twin hstart hdump (List.prefix_append lines [line])
  obtain ⟨s, hs, -, -, hstderr⟩ := of_answer htwins.dumps.1 hdecode hanswer
  have hfree : ∀ l ∈ lines ++ [line], '\n' ∉ l.toList :=
    List.forall_mem_append.mpr ⟨h.noLineFeed, List.forall_mem_singleton.mpr hline⟩
  exact ⟨s, hs, fun d hd hruntime => htwins.showsFailure hw hfree hs hstderr hd hruntime⟩

/-- A function that was declared on one line fails when it is called on the next. -/
theorem exists_failing_call :
    let c₀ := (start {} {}).openPrompt
    let declaration := "fn f() \x7b return x; \x7d"
    ∃ c c' s d, Prompted 9 c₀ [declaration] c ∧ c.ask.answer 9 (encode "f();") = some (none, c') ∧
      c.session.run 9 "f();" = some s ∧ s.sink.diagnostics.toList = [d] ∧ d.isRuntime = true ∧
      d.span = ⟨16, 17, 1, 17⟩ := by
  intro c₀ declaration
  have hall : ((Session.opened {}).run 9 declaration).any
    (fun s => (s.settled.run 9 "f();").any fun t =>
      t.sink.diagnostics.toList.map (fun d => (d.isRuntime, d.span)) =
        [(true, ⟨16, 17, 1, 17⟩)]) = true := by
    decide +kernel
  obtain ⟨s, hs, hall⟩ := (Option.any_eq_true _ _).mp hall
  obtain ⟨t, ht, hall⟩ := (Option.any_eq_true _ _).mp hall
  obtain ⟨d, hd, hspan⟩ := List.map_eq_singleton_iff.mp (of_decide_eq_true hall)
  obtain ⟨hruntime, hspan⟩ := Prod.mk.inj hspan
  obtain ⟨c, hc, hsession, hdump⟩ := exists_answer (c := c₀) rfl (by decide +kernel) hs
  rw [← hsession] at ht
  obtain ⟨c', hc', -⟩ := exists_answer hdump (by decide +kernel) ht
  have hprompted : Prompted 9 c₀ [declaration] c :=
    .answer .start (decode_encode declaration) (by decide +kernel) hc
  exact ⟨c, c', t, d, hprompted, hc', ht, hd, hruntime, hspan⟩

end Console

open Console

/-- Whatever lines the prompt has been given, when it runs one more and this fails at runtime, the
token at fault was written in that line or in one before it. What is shown is always the line being
run. -/
theorem prompt_shows_line_being_run (env : Surroundings) (o : Options) (hdump : o.dump = none)
    (fuel : Nat) (lines : List String) (c c' : Console) (bytes : List UInt8) (line : String)
    (hlines : Prompted fuel (start env o).openPrompt lines c) (hdecode : decode bytes = .ok line)
    (hline : '\n' ∉ line.toList) (hanswer : c.ask.answer fuel bytes = some (none, c')) :
    ∃ s, c.session.run fuel line = some s ∧ ∀ d ∈ s.sink.diagnostics.toList, d.isRuntime = true →
      ShowsFailure fuel (start env o).openPrompt lines line c c' d := by
  obtain ⟨hsession, hsame, -⟩ := start_frame env o
  exact hlines.showsFailure hsession (hsame.trans hdump) hdecode hline hanswer

theorem failing_call_is_shown :
    let c₀ := (start {} {}).openPrompt
    ∃ c c' s d, Prompted 9 c₀ ["fn f() \x7b return x; \x7d"] c ∧
      decode (encode "f();") = .ok "f();" ∧ '\n' ∉ "f();".toList ∧
      c.ask.answer 9 (encode "f();") = some (none, c') ∧ c.session.run 9 "f();" = some s ∧
      s.sink.diagnostics.toList = [d] ∧ d.isRuntime = true ∧
      ShowsFailure 9 c₀ ["fn f() \x7b return x; \x7d"] "f();" c c' d := by
  intro c₀
  obtain ⟨c, c', s, d, hc, hanswer, hs, hd, hruntime, -⟩ := exists_failing_call
  have hline : '\n' ∉ "f();".toList := by decide +kernel
  obtain ⟨s', hs', hshows⟩ :=
    prompt_shows_line_being_run {} {} rfl 9 _ c c' _ _ hc (decode_encode "f();") hline hanswer
  obtain rfl := Option.some.inj (hs'.symm.trans hs)
  exact ⟨c, c', s', d, hc, decode_encode _, hline, hanswer, hs, hd, hruntime,
    hshows d (hd ▸ List.mem_singleton_self d) hruntime⟩

/-- The name that is not bound was written in the first line, which is not the one that is shown. -/
theorem failing_call_is_not_pointed_out :
    let c₀ := (start {} {}).openPrompt
    let declaration := "fn f() \x7b return x; \x7d"
    ∃ c c' s d, Prompted 9 c₀ [declaration] c ∧ c.ask.answer 9 (encode "f();") = some (none, c') ∧
      c.session.run 9 "f();" = some s ∧ s.sink.diagnostics.toList = [d] ∧ d.isRuntime = true ∧
      WrittenIn 9 c₀ [declaration] "f();" d 0 ∧ ¬ d.PointsOut c.colors "f();" declaration := by
  intro c₀ declaration
  obtain ⟨c, c', s, d, hc, hanswer, hs, hd, hruntime, hspan⟩ := exists_failing_call
  obtain ⟨s', hs', hshows⟩ :=
    hc.showsFailure rfl rfl (decode_encode "f();") (by decide +kernel) hanswer
  obtain rfl := Option.some.inj (hs'.symm.trans hs)
  obtain ⟨k, origin, horigin, hwritten, ⟨t, ht, htspan⟩, hiff⟩ :=
    (hshows d (hd ▸ List.mem_singleton_self d) hruntime).origin
  refine ⟨c, c', s', d, hc, hanswer, hs, hd, hruntime, ?_⟩
  have helsewhere : ∀ t ∈ (scan .initial "f();").tokens.dropLast, t.span ≠ ⟨16, 17, 1, 17⟩ := by
    decide +kernel
  cases k with
  | zero =>
    obtain rfl : declaration = origin := Option.some.inj horigin
    have hother : declaration ≠ "f();" := by decide +kernel
    exact ⟨(hwritten 0).mpr rfl, fun hpoints => hother (hiff.mp hpoints)⟩
  | succ k =>
    cases k with
    | zero =>
      obtain rfl : "f();" = origin := Option.some.inj horigin
      exact absurd (htspan.trans hspan) (helsewhere t ht)
    | succ k => cases horigin

end TreeWalk
