import TreeWalk.Proofs.Scan.Words

/-!
# Longest match

Each token is the longest word that starts where the token starts. Wherever scanning resumes behind
blanks and comments, there is a token if some word starts there, and an error if none does.
-/

namespace TreeWalk

/-! ## The statement -/

/-- Blanks and comments with the ends of their lines. -/
inductive Text.Gap : List Char → Prop where
  | nil : Gap []
  | blank : c ∈ [' ', '\t', '\r', '\n'] → Gap cs → Gap (c :: cs)
  | comment : '\n' ∉ body → Gap cs → Gap ('/' :: '/' :: body ++ '\n' :: cs)

/-- The token is the longest word at the front of `text ++ after`. -/
structure Token.Munches (names : Interner) (before text after : List Char) (t : Token) : Prop where
  start : t.span.start = Text.byteLength before
  stop : t.span.stop = Text.byteLength before + Text.byteLength text
  word : ∃ k, Lexeme.Lexical k text ∧ Lexeme.Means names k text t.kind
  longest : ∀ k w, Lexeme.Lexical k w → w <+: text ++ after → w.length ≤ text.length
  keyword : (∃ w, t.kind = .keyword w) ↔ ∃ w : Keyword, text = w.text.toList
  underscore : t.kind = .punct .underscore ↔ text = ['_']
  number : ∀ v, t.kind = .number v → v.isNaN = false

namespace Scan

/-- Where scanning stands once it has skipped a gap behind what it has found. -/
structure Resumes (source : String) (found : Scan) (before rest : List Char) : Prop where
  split : source.toList = before ++ rest
  ne_nil : rest ≠ []
  not_blank : ∀ c ∈ rest.head?, c ∉ [' ', '\t', '\r', '\n']
  not_comment : ¬ ['/', '/'] <+: rest
  behind : ∃ done gap, before = done ++ gap ∧ Text.Gap gap ∧
    (done = [] ∨ ∃ a ∈ found.spans, a.stop = Text.byteLength done)

/-- The scan takes the longest word wherever there is one. -/
structure Munches (source : String) (found : Scan) : Prop where
  tokens : ∀ t ∈ found.tokens.dropLast, ∃ before text after, source.toList = before ++
    text ++ after ∧ t.Munches found.names before text after
  /-- Tokens and errors stand where scanning resumes. -/
  starts : ∀ a ∈ found.spans, ∃ before rest, found.Resumes source before rest ∧
    a.start = Text.byteLength before
  words : ∀ before rest, found.Resumes source before rest →
    ((∃ t ∈ found.tokens.dropLast, t.span.start = Text.byteLength before) ↔ Lexeme.Starts rest)
  errors : ∀ before rest, found.Resumes source before rest →
    ((∃ e ∈ found.errors, e.span.start = Text.byteLength before) ↔ ¬ Lexeme.Starts rest)

end Scan

/-! ## Gaps -/

namespace Lexeme

theorem isGap_cut (c : Char) (cs : List Char) :
    (cut c cs).cls.isGap = (isBlank c || c == '/' && cs.head? == some '/') := by
  have hstring : (cutString c cs).cls.isGap = false := by
    unfold cutString
    split <;> rfl
  have hnumber : (cutNumber c cs).cls.isGap = false := by
    unfold cutNumber
    split
    · split <;> rfl
    · rfl
  have hchar : ∀ ds, (cutChar c ds).cls.isGap = false := by
    intro ds
    unfold cutChar
    split <;> rfl
  have hmark : (cutMark c cs).cls.isGap = false := by
    cases cs with
    | nil => exact hchar []
    | cons d cs =>
      rw [cutMark]
      split
      · rfl
      · exact hchar (d :: cs)
  unfold cut
  split
  · next hblank => rw [hblank]; rfl
  · next hblank =>
    rw [Bool.eq_false_iff.mpr hblank, Bool.false_or]
    split
    · next hslash => rw [hslash]; rfl
    · next hslash =>
      rw [Bool.eq_false_iff.mpr hslash]
      split
      · exact hstring
      · split
        · exact hnumber
        · split
          · rfl
          · exact hmark

/-- Where a lexeme stands tells whether it is skipped. -/
theorem Stands.isGap_iff (h : Stands p cs l before after) : l.cls.isGap = false ↔
    (∀ c ∈ (l.text ++ after).head?, c ∉ [' ', '\t', '\r', '\n']) ∧
      ¬ ['/', '/'] <+: l.text ++ after := by
  obtain ⟨c, ds, htext, hcut⟩ := h.cut
  have hgap := isGap_cut c ds
  rw [hcut] at hgap
  dsimp only at hgap
  have hslashes : ['/', '/'] <+: c :: ds ↔ c = '/' ∧ ds.head? = some '/' := by
    cases ds <;> simp [List.cons_prefix_cons, eq_comm]
  rw [hgap, htext, hslashes, Bool.or_eq_false_iff, Bool.eq_false_iff, Ne, isBlank_iff]
  simp

end Lexeme

namespace Text.Gap

open Lexeme

theorem dropBlanks (h : Gap cs) : Gap (cs.dropWhile isBlank) := by
  induction h with
  | nil => exact .nil
  | blank hc hcs ih =>
    rw [List.dropWhile_cons_of_pos (isBlank_iff.mpr hc)]
    exact ih
  | comment hbody hcs => exact .comment hbody hcs

theorem append_blanks (hrun : ∀ x ∈ run, isBlank x = true) (h : Gap cs) : Gap (run ++ cs) := by
  induction run with
  | nil => exact h
  | cons c run ih =>
    obtain ⟨hc, hrun⟩ := List.forall_mem_cons.mp hrun
    exact .blank (isBlank_iff.mp hc) (ih hrun)

/-- What is cut off a gap leaves a gap. -/
theorem cut (h : Gap gap) (hne : gap ≠ []) (hrest : ∀ c ∈ rest.head?, isBlank c = false) :
    ∃ c cs gap', gap ++ rest = c :: cs ∧ (Lexeme.cut c cs).rest = gap' ++ rest ∧ Gap gap' := by
  cases h with
  | nil => exact absurd rfl hne
  | @blank c cs hc hcs =>
    refine ⟨c, cs ++ rest, cs.dropWhile isBlank, rfl, ?_, hcs.dropBlanks⟩
    have hstop : ∀ x ∈ (cs.dropWhile isBlank ++ rest).head?, isBlank x = false := by
      intro x hx
      rw [List.head?_append] at hx
      rcases Option.or_eq_some_iff.mp hx with hx | ⟨-, hx⟩
      · exact head?_dropWhile isBlank cs x hx
      · exact hrest x hx
    have hrun : ∀ x ∈ cs.takeWhile isBlank, isBlank x = true := mem_takeWhile
    have hcut := cut_blank (isBlank_iff.mpr hc) hrun hstop
    rw [← List.append_assoc, List.takeWhile_append_dropWhile] at hcut
    rw [hcut]
  | @comment body cs hbody hcs =>
    refine ⟨'/', '/' :: body ++ ('\n' :: cs ++ rest), '\n' :: cs, by simp, ?_, .blank (by simp) hcs⟩
    have hline : ∀ x ∈ '/' :: body, (x != '\n') = true := by
      intro x hx
      rw [bne_iff_ne]
      rintro rfl
      rcases List.mem_cons.mp hx with heq | hx
      · cases heq
      · exact hbody hx
    exact (takeWhile_append_stop ('\n' :: cs ++ rest) hline (by simp)).2

/-- What is skipped in front of a gap is part of the gap. -/
theorem cons (hcuts : Cuts ⟨k, cs, gap ++ rest⟩) (hk : k.isGap = true) (h : Gap gap)
    (hne : rest ≠ []) (hrest : ∀ c ∈ rest.head?, c ∉ [' ', '\t', '\r', '\n']) :
    Gap (cs ++ gap) := by
  generalize hbehind : gap ++ rest = behind at hcuts
  cases hcuts with
  | blank hc hrun => exact append_blanks (List.forall_mem_cons.mpr ⟨hc, hrun⟩) h
  | @comment body _ hbody hend =>
    subst hbehind
    cases h with
    | nil =>
      obtain ⟨c, rest, rfl⟩ := List.exists_cons_of_ne_nil hne
      obtain rfl := hend c rfl
      exact absurd (by simp) (hrest '\n' rfl)
    | @blank c cs hc hcs =>
      obtain rfl := hend c rfl
      exact .comment hbody hcs
    | comment => cases hend '/' rfl
  | _ => cases hk

end Text.Gap

namespace Lexeme

/-- Lexemes end where a gap ends. -/
theorem all_gap (p : Position) (h : Text.Gap gap) (hrest : ∀ c ∈ rest.head?, isBlank c = false) :
    ∃ as bs, all p (gap ++ rest) = as ++ bs ∧ texts bs = rest := by
  -- By induction on the length: each lexeme of a gap leaves a shorter gap.
  induction hn : gap.length using Nat.strong_induction_on generalizing p gap with
  | _ n ih =>
    by_cases hne : gap = []
    · subst hne
      exact ⟨[], all p rest, rfl, texts_all p rest⟩
    · obtain ⟨c, cs, gap', hwhole, hcut, hgap'⟩ := h.cut hne hrest
      have hlt := cut_rest_length_lt c cs
      rw [← hwhole, hcut, List.length_append, List.length_append] at hlt
      obtain ⟨as, bs, hall, hbs⟩ := ih gap'.length (by omega) (p.after (cut c cs).text) hgap' rfl
      refine ⟨⟨(cut c cs).cls, (cut c cs).text, p⟩ :: as, bs, ?_, hbs⟩
      rw [hwhole, all, hcut, hall]
      rfl

/-- In front of what is no gap, there is a gap behind what is no gap. -/
theorem gap_behind (h : all p cs = as ++ l :: bs) (hl : l.cls.isGap = false) :
    ∃ done gap, texts as = texts done ++ gap ∧ Text.Gap gap ∧
      (done = [] ∨ ∃ front m back, done = front ++ [m] ∧ as = front ++ m :: back ∧
          m.cls.isGap = false) := by
  obtain ⟨hblank, -⟩ := (stands_of_append h).isGap_iff.mp hl
  have hne : l.text ++ texts bs ≠ [] :=
    List.append_ne_nil_of_left_ne_nil (stands_of_append h).ne_nil _
  induction as generalizing p cs with
  | nil => exact ⟨[], [], rfl, .nil, .inl rfl⟩
  | cons a as ih =>
    have hfirst : all p cs = [a] ++ (as ++ l :: bs) := h
    have hstands := stands_of_append (show all p cs = [] ++ a :: (as ++ l :: bs) from h)
    obtain ⟨done, gap, htexts, hgap, hdone⟩ := ih (all_eq_append hfirst).2.symm
    have hbehind : texts (a :: as) = texts (a :: done) ++ gap := by
      rw [← List.singleton_append, texts_append, htexts, ← List.append_assoc, ← texts_append]
      rfl
    rcases hdone with rfl | ⟨front, m, back, rfl, rfl, hm⟩
    · by_cases ha : a.cls.isGap = true
      · have hcuts := hstands.cuts
        rw [texts_append, htexts] at hcuts
        exact ⟨[], a.text ++ gap, congrArg (a.text ++ ·) htexts,
          hgap.cons hcuts ha hne hblank, .inl rfl⟩
      · exact ⟨[a], gap, hbehind, hgap, .inr ⟨[], a, as, rfl, rfl, Bool.eq_false_iff.mpr ha⟩⟩
    · exact ⟨a :: (front ++ [m]), gap, hbehind, hgap, .inr ⟨a :: front, m, back, rfl, rfl, hm⟩⟩

end Lexeme

/-! ## Places -/

theorem Text.eq_of_byteLength {cs ds cs' ds' : List Char} (h : cs ++ ds = cs' ++ ds')
    (hlength : byteLength cs = byteLength cs') : cs = cs' ∧ ds = ds' := by
  have hsplit := splitAtByte?_append cs ds
  rw [h, hlength, splitAtByte?_append] at hsplit
  exact Prod.mk.inj (Option.some.inj hsplit.symm)

theorem Lexeme.eq_of_start (hl : l ∈ all p cs) (hm : m ∈ all p cs)
    (h : l.span.start = m.span.start) : l = m := by
  obtain ⟨_, _, hl'⟩ := exists_stands hl
  obtain ⟨_, _, hm'⟩ := exists_stands hm
  have hlt := hl'.span_lt
  have hlt' := hm'.span_lt
  apply Classical.byContradiction
  intro hne
  rcases span_apart hl hm hne with happart | happart <;> omega

namespace Scan

variable {names : Interner} {source : String}

/-- A lexeme that is not skipped stands where scanning resumes. -/
theorem resumes_of_append (h : Lexeme.all .origin source.toList = as ++ l :: bs)
    (hl : l.cls.isGap = false) :
    (scan names source).Resumes source (Lexeme.texts as) (l.text ++ Lexeme.texts bs) := by
  have hstands := Lexeme.stands_of_append h
  obtain ⟨hblank, hcomment⟩ := hstands.isGap_iff.mp hl
  have hne := List.append_ne_nil_of_left_ne_nil hstands.ne_nil (Lexeme.texts bs)
  refine ⟨by rw [hstands.split, List.append_assoc], hne, hblank, hcomment, ?_⟩
  obtain ⟨done, gap, htexts, hgap, rfl | ⟨front, m, back, rfl, rfl, hm⟩⟩ := Lexeme.gap_behind h hl
  · exact ⟨[], gap, htexts, hgap, .inl rfl⟩
  · rw [List.append_assoc, List.cons_append] at h
    have hstands := Lexeme.stands_of_append h
    refine ⟨_, gap, htexts, hgap, .inr ⟨m.span, ?_, ?_⟩⟩
    · exact mem_spans_of_mem (by simp [h]) hm
    · rw [hstands.origin_stop, Lexeme.texts_append, Text.byteLength_append]
      simp [Lexeme.texts]

/-- The lexemes up to the end of a token or an error. -/
theorem exists_done (h : done = [] ∨ ∃ a ∈ (scan names source).spans, a.stop = Text.byteLength done)
    (hsplit : source.toList = done ++ rest) :
    ∃ as bs, Lexeme.all .origin source.toList = as ++ bs ∧ Lexeme.texts as = done ∧
      Lexeme.texts bs = rest := by
  rcases h with rfl | ⟨a, ha, hstop⟩
  · exact ⟨[], _, rfl, rfl, (Lexeme.texts_all _ _).trans hsplit⟩
  · obtain ⟨l, hl, rfl, -⟩ := mem_spans ha
    obtain ⟨as, bs, hall⟩ := List.append_of_mem hl
    have hstands := Lexeme.stands_of_append hall
    have hlength : Text.byteLength (Lexeme.texts as ++ l.text) = Text.byteLength done := by
      rw [← hstop, hstands.origin_stop, Text.byteLength_append]
    obtain ⟨hdone, hrest⟩ := Text.eq_of_byteLength (hstands.split.symm.trans hsplit) hlength
    refine ⟨as ++ [l], bs, by simp [hall], ?_, hrest⟩
    rw [Lexeme.texts_append, ← hdone]
    simp [Lexeme.texts]

/-- Where scanning resumes stands a lexeme that is not skipped. -/
theorem Resumes.exists_stands (h : (scan names source).Resumes source before rest) :
    ∃ l ∈ Lexeme.all .origin source.toList, ∃ after, Lexeme.Stands .origin source.toList l
      before after ∧ rest = l.text ++ after ∧ l.cls.isGap = false := by
  obtain ⟨done, gap, rfl, hgap, hdone⟩ := h.behind
  have hblank : ∀ c ∈ rest.head?, Lexeme.isBlank c = false := fun c hc =>
    Bool.eq_false_iff.mpr fun hc' => h.not_blank c hc (Lexeme.isBlank_iff.mp hc')
  obtain ⟨as, bs, hall, rfl, hbs⟩ := exists_done hdone (h.split.trans (List.append_assoc ..))
  have hbs' := (Lexeme.all_eq_append hall).2
  rw [hbs] at hbs'
  obtain ⟨gs, ls, hgs, rfl⟩ := Lexeme.all_gap (Position.origin.after (Lexeme.texts as)) hgap hblank
  have hls : ls ≠ [] := by
    rintro rfl
    exact h.ne_nil rfl
  obtain ⟨l, ls, rfl⟩ := List.exists_cons_of_ne_nil hls
  rw [hgs] at hbs'
  rw [hbs', ← List.append_assoc] at hall
  have hstands := Lexeme.stands_of_append hall
  obtain ⟨hwhole, -⟩ := Lexeme.all_eq_append hgs
  rw [Lexeme.texts_append, ← List.append_cancel_right hwhole] at hstands
  refine ⟨l, by simp [hall], Lexeme.texts ls, hstands, rfl, ?_⟩
  exact hstands.isGap_iff.mpr ⟨h.not_blank, h.not_comment⟩

/-- A token is the longest word where it stands. -/
theorem munches_of_mem (h : t ∈ (scan names source).tokens.dropLast) :
    ∃ before text after, source.toList = before ++ text ++ after ∧
      t.Munches (scan names source).names before text after := by
  obtain ⟨m, hm, hspan, hword⟩ := exists_word h
  rw [dropLast_scan] at h
  obtain ⟨l, hl, hspan', table, hread, hwithin⟩ := exists_lexeme h
  obtain rfl : l = m := Lexeme.eq_of_start hl hm (by rw [← hspan', hspan])
  obtain ⟨before, after, hstands⟩ := Lexeme.exists_stands hl
  have hlexical := hstands.cuts.lexical hword
  have hmeans : Lexeme.Means (scan names source).names l.cls l.text t.kind :=
    hstands.cuts.means hread hwithin
  have hgap : l.cls.isGap = false := Lexeme.isGap_eq_false.mpr (.inl hword)
  exact ⟨before, l.text, after, hstands.split, {
    start := by rw [hspan, hstands.origin_start]
    stop := by rw [hspan, hstands.origin_stop]
    word := ⟨l.cls, hlexical, hmeans⟩
    longest := fun _ _ hw hfront => (hstands.cuts.longest hgap hw hfront).2
    keyword := hmeans.keyword_iff hlexical
    underscore := hmeans.underscore_iff hlexical
    number := fun v hv => (hv ▸ hmeans).isNaN_eq_false }⟩

namespace Resumes

variable {before rest : List Char}

/-- What stands where scanning resumes is a word if a word starts there. -/
theorem exists_place (h : (scan names source).Resumes source before rest) :
    ∃ l ∈ Lexeme.all .origin source.toList, l.span.start = Text.byteLength before ∧
      l.cls.isGap = false ∧ (l.cls.isWord = true ↔ Lexeme.Starts rest) := by
  obtain ⟨l, hl, after, hstands, rfl, hgap⟩ := h.exists_stands
  refine ⟨l, hl, hstands.origin_start, hgap, fun hword => ?_, ?_⟩
  · exact ⟨l.cls, l.text, hstands.cuts.lexical hword, List.prefix_append _ _⟩
  · rintro ⟨k, w, hw, hfront⟩
    exact (hstands.cuts.longest hgap hw hfront).1

theorem token_iff (h : (scan names source).Resumes source before rest) :
    (∃ t ∈ (scan names source).tokens.dropLast, t.span.start = Text.byteLength before) ↔
      Lexeme.Starts rest := by
  obtain ⟨l, hl, hstart, -, hword⟩ := h.exists_place
  rw [← hword]
  constructor
  · rintro ⟨t, ht, hplace⟩
    obtain ⟨m, hm, hspan, hm'⟩ := exists_word ht
    obtain rfl : l = m := Lexeme.eq_of_start hl hm (by rw [hstart, ← hplace, hspan])
    exact hm'
  · intro hl'
    have hmem : l.span ∈ (scan names source).tokens.dropLast.map Token.span := by
      rw [dropLast_scan, spans_ofLexemes]
      exact List.mem_map_of_mem (List.mem_filter.mpr ⟨hl, hl'⟩)
    obtain ⟨t, ht, hspan⟩ := List.mem_map.mp hmem
    exact ⟨t, ht, by rw [hspan, hstart]⟩

theorem error_iff (h : (scan names source).Resumes source before rest) :
    (∃ e ∈ (scan names source).errors, e.span.start = Text.byteLength before) ↔
      ¬ Lexeme.Starts rest := by
  obtain ⟨l, hl, hstart, hgap, hword⟩ := h.exists_place
  rw [← hword, Bool.not_eq_true]
  constructor
  · rintro ⟨e, he, hplace⟩
    obtain ⟨m, hm, hfault⟩ := exists_fault he
    obtain ⟨hspan, hm'⟩ := Lexeme.of_fault? hfault
    obtain rfl : l = m := Lexeme.eq_of_start hl hm (by rw [hstart, ← hplace, hspan])
    exact hm'
  · intro hl'
    have hfault := (Lexeme.isGap_eq_false.mp hgap).resolve_left (Bool.eq_false_iff.mp hl')
    obtain ⟨e, he⟩ := Option.isSome_iff_exists.mp hfault
    refine ⟨e, ?_, by rw [(Lexeme.of_fault? he).1, hstart]⟩
    rw [errors_scan]
    exact List.mem_filterMap.mpr ⟨l, hl, he⟩

end Resumes

end Scan

/-- Scanning any text takes the longest word at each place, with any table of names. -/
theorem tokens_are_longest_words (names : Interner) (source : String) :
    (scan names source).Munches source where
  tokens _ ht := Scan.munches_of_mem ht
  starts a ha := by
    obtain ⟨l, hl, rfl, hgap⟩ := Scan.mem_spans ha
    obtain ⟨as, bs, hall⟩ := List.append_of_mem hl
    exact ⟨_, _, Scan.resumes_of_append hall hgap, (Lexeme.stands_of_append hall).origin_start⟩
  words _ _ h := h.token_iff
  errors _ _ h := h.error_iff

end TreeWalk
