import TreeWalk.Proofs.JoinedText
import TreeWalk.Proofs.Parser.Progress
import TreeWalk.Proofs.Parser.Sites
import TreeWalk.Proofs.Scan.Munch

/-!
# Locations

Every place that reading a text hands out is right: a node of the program stands where the text has
the word it is reported at, a name where the text has that name, and an error at the token that did
not fit.
-/

namespace TreeWalk

/-! ## The statement -/

/-- A token stands at this place, and its source text is `text`. -/
structure Scan.Reads (found : Scan) (source : String) (span : Span) (text : List Char) : Prop where
  token : ∃ t ∈ found.tokens, t.span = span
  chars : span.chars? source = some text

section

variable (source : String) (found : Scan)

/-- The name stands where the text has it. -/
def Ident.Located (x : Ident) : Prop :=
  ∃ text, found.Reads source x.span text ∧ found.names.Knows x.name text

/-- The place reaches from one token to a later one, which have these texts. -/
structure Span.Joins (span : Span) (first last : List Char) : Prop where
  ends : ∃ a b, found.Reads source a first ∧ found.Reads source b last ∧ a.stop ≤ b.start ∧
    span = .merge a b
  chars : ∃ inner, span.chars? source = some (first ++ inner ++ last)

/-- The place of a unit reads `nil`, or reaches from a `(` to a `)`. -/
def Span.LocatesUnit (span : Span) : Prop :=
  found.Reads source span "nil".toList ∨ span.Joins source found ['('] [')']

/-- The place is that of a number token of this value. -/
def Span.LocatesNumber (span : Span) (v : Number) : Prop :=
  ∃ text, found.Reads source span text ∧ Lexeme.Means found.names .number text (.number v)

def Literal.Located (span : Span) : Literal → Prop
  | .number v => span.LocatesNumber source found v
  | .str x => ∃ text, found.Reads source span ('"' :: text ++ ['"']) ∧ found.names.Knows x text
  | .bool b => found.Reads source span (if b then "true" else "false").toList
  | .nil => span.LocatesUnit source found

/-- The place at which the expression is reported reads as it should. -/
def Expr.Located : Expr → Prop
  | .literal value span => value.Located source found span
  | .unary op _ span => found.Reads source span op.text.toList
  | .binary _ op _ span => found.Reads source span op.text.toList
  | .call _ _ span | .grouping _ span | .tuple _ span => found.Reads source span "(".toList
  | .vector _ span => found.Reads source span "[".toList
  | .letIn _ _ _ span => found.Reads source span "let".toList
  | .seq _ span => found.Reads source span "do".toList
  | .cond _ _ _ span => found.Reads source span "if".toList
  | .case _ _ span => found.Reads source span "case".toList
  | .this span => found.Reads source span "this".toList
  | .super _ span => found.Reads source span "super".toList
  | .var x | .assign x _ | .get _ x | .set _ x _ => x.Located source found

/-- The place at which the pattern is reported reads as it should. A negative number reaches from
its `-` to the end of its digits. -/
def Pattern.Located : Pattern → Prop
  | .unit span => span.LocatesUnit source found
  | .literal (.number v) span =>
    if v.isNegative then
      ∃ text, span.Joins source found ['-'] text ∧
        Lexeme.Means found.names .number text (.number v.neg)
    else span.LocatesNumber source found v
  | .literal value span => value.Located source found span
  | .wild span => found.Reads source span "_".toList
  | .tuple _ span => found.Reads source span "(".toList
  | .vector _ span => found.Reads source span "[".toList
  | .var x | .named x _ => x.Located source found

/-- The place at which the statement is reported reads as it should. -/
def Stmt.Located : Stmt → Prop
  | .print _ span => found.Reads source span "print".toList
  | .block _ span => found.Reads source span "\x7b".toList
  | .ret _ span => found.Reads source span "return".toList
  | .whileLoop _ _ span => found.Reads source span "while".toList
  | .forever _ span => found.Reads source span "loop".toList
  | .forLoop _ _ _ _ span => found.Reads source span "for".toList
  | .varDecl x _ | .classDecl x _ _ => x.Located source found
  | .fnDecl decl => decl.name.Located source found
  | .expr _ => True

/-- All nodes of the program and all names in it stand where they say. -/
structure Program.Located (p : Program) : Prop where
  idents : ∀ x, p.ContainsIdent x → x.Located source found
  stmts : ∀ s, p.Contains s → s.Located source found
  exprs : ∀ e, p.ContainsExpr e → e.Located source found
  patterns : ∀ q, p.ContainsPattern q → q.Located source found

/-- The error stands at a token. What it shows is the source text of that token, and it shows
nothing just at the end of the input. -/
def ParseError.Located (e : ParseError) : Prop :=
  ∃ t ∈ found.tokens, e.span = t.span ∧
    ∀ text ∈ e.found?, t.span.chars? source = some text.toList ∧ (text = "" ↔ t.kind = .eof)

/-- What reading a single expression answers with, and what it noted on the way, is where it
says. -/
structure Parser.Reply.Located (reply : Parser.Reply Expr) : Prop where
  value : ∀ e s, reply = .ok e s → Program.Located source found ⟨[.expr e]⟩
  error : ∀ e s, reply = .fail e s → e.Located source found
  noted : ∀ e ∈ reply.state.errors, e.Located source found

end

/-! ## Names of sited nodes -/

theorem Pattern.Sited.idents {p : Pattern} (h : p.Sited tokens) :
    ∀ x ∈ p.idents, x.Sited tokens := by
  cases p with
  | var x | named x _ => exact List.forall_mem_singleton.mpr h
  | _ => exact fun x hx => absurd hx List.not_mem_nil

theorem Expr.Sited.idents {e : Expr} (h : e.Sited tokens) : ∀ x ∈ e.idents, x.Sited tokens := by
  cases e with
  | var x | assign x _ | get _ x | set _ x _ => exact List.forall_mem_singleton.mpr h
  | super x _ | letIn x _ _ _ => exact List.forall_mem_singleton.mpr h.2
  | _ => exact fun x hx => absurd hx List.not_mem_nil

theorem FunctionDecl.Sited.idents {decl : FunctionDecl} (h : decl.Sited tokens) :
    ∀ x ∈ decl.idents, x.Sited tokens :=
  List.forall_mem_cons.mpr h

theorem Stmt.Sited.idents {s : Stmt} (h : s.Sited tokens) : ∀ x ∈ s.idents, x.Sited tokens := by
  cases s with
  | varDecl x _ => exact List.forall_mem_singleton.mpr h
  | fnDecl decl => exact FunctionDecl.Sited.idents h
  | classDecl x sup methods =>
    obtain ⟨hx, hsup, hmethods⟩ := h
    refine List.forall_mem_cons.mpr ⟨hx,
      List.forall_mem_append.mpr ⟨Parser.forall_mem_toList hsup, ?_⟩⟩
    intro y hy
    obtain ⟨decl, hdecl, hy⟩ := List.mem_flatMap.mp hy
    exact (hmethods decl hdecl).idents y hy
  | _ => exact fun x hx => absurd hx List.not_mem_nil

/-! ## Texts of tokens -/

section

variable {names : Interner} {source : String}

/-- Every token but the end mark is a word of the text. -/
theorem Scan.exists_reads (h : ⟨kind, span⟩ ∈ words names source) :
    ∃ k text, text ≠ [] ∧ Lexeme.Means (scan names source).names k text kind ∧
      (scan names source).Reads source span text := by
  have hmem : ⟨kind, span⟩ ∈ (scan names source).tokens.dropLast := by
    rw [dropLast_scan]
    exact h
  obtain ⟨before, text, after, hsplit, hmunches⟩ := munches_of_mem hmem
  obtain ⟨k, hlexical, hmeans⟩ := hmunches.word
  obtain ⟨c, cs, hcs, -⟩ := hlexical.opens
  refine ⟨k, text, hcs ▸ List.cons_ne_nil c cs, hmeans, ⟨_, List.dropLast_subset _ hmem, rfl⟩, ?_⟩
  have hslice := Text.slice?_append before text after
  rw [Span.chars?, hmunches.start, hmunches.stop, hsplit]
  exact hslice

theorem Scan.reads_punct (h : ⟨.punct m, span⟩ ∈ words names source) :
    (scan names source).Reads source span m.text.toList := by
  obtain ⟨k, text, -, hmeans, hreads⟩ := exists_reads h
  cases hmeans with
  | mark => exact hreads
  | underscore => exact hreads

theorem Scan.reads_keyword (h : ⟨.keyword w, span⟩ ∈ words names source) :
    (scan names source).Reads source span w.text.toList := by
  obtain ⟨k, text, -, hmeans, hreads⟩ := exists_reads h
  cases hmeans
  exact hreads

theorem Ident.Sited.located {x : Ident} (h : x.Sited (Scan.words names source)) :
    x.Located source (scan names source) := by
  obtain ⟨k, text, -, hmeans, hreads⟩ := Scan.exists_reads h
  cases hmeans with
  | ident _ _ hknows => exact ⟨text, hreads, hknows⟩

theorem Span.locatesNumber (h : ⟨.number v, span⟩ ∈ Scan.words names source) :
    span.LocatesNumber source (scan names source) v := by
  obtain ⟨k, text, -, hmeans, hreads⟩ := Scan.exists_reads h
  cases hmeans with
  | whole hds hnear => exact ⟨_, hreads, .whole hds hnear⟩
  | pointed hds hes hnear => exact ⟨_, hreads, .pointed hds hes hnear⟩

/-! ## From one token to another -/

theorem Text.of_splitAtByte? (h : splitAtByte? n cs = some (front, back)) :
    cs = front ++ back ∧ n = byteLength front := by
  induction n, cs using splitAtByte?.induct generalizing front back with
  | case1 cs =>
    rw [splitAtByte?] at h
    cases h
    exact ⟨rfl, rfl⟩
  | case2 n =>
    rw [splitAtByte?] at h
    cases h
  | case3 n c cs hle ih =>
    rw [splitAtByte?, if_pos hle] at h
    obtain ⟨parts, hparts, heq⟩ := Option.map_eq_some_iff.mp h
    obtain ⟨hcs, hn⟩ := ih hparts
    cases heq
    rw [byteLength_cons, ← hn]
    exact ⟨congrArg (c :: ·) hcs, by omega⟩
  | case4 n c cs hlt =>
    rw [splitAtByte?, if_neg hlt] at h
    cases h

/-- A stretch of a text that has characters stands behind what comes before it. -/
theorem Span.split_of_chars? {a : Span} (h : a.chars? source = some text) :
    ∃ before after, source.toList = before ++ text ++ after ∧ a.start = Text.byteLength before ∧
      a.stop = Text.byteLength before + Text.byteLength text := by
  unfold Span.chars? Text.slice? at h
  split at h
  · next hle =>
    obtain ⟨front, hfront, h⟩ := Option.bind_eq_some_iff.mp h
    obtain ⟨back, hback, h⟩ := Option.bind_eq_some_iff.mp h
    obtain ⟨hsource, hstart⟩ := Text.of_splitAtByte? hfront
    obtain ⟨hrest, hstop⟩ := Text.of_splitAtByte? hback
    obtain rfl : back.1 = text := Option.some.inj h
    refine ⟨front.1, back.2, by rw [hsource, hrest, List.append_assoc], hstart, by omega⟩
  · cases h

/-- What comes first in a text up to one place comes first up to a later one. -/
theorem Text.prefix_of_byteLength_le {cs ds cs' ds' : List Char} (h : cs ++ ds = cs' ++ ds')
    (hle : byteLength cs ≤ byteLength cs') : cs <+: cs' := by
  rcases List.prefix_or_prefix_of_prefix (List.prefix_append cs ds) (h ▸
      List.prefix_append cs' ds') with hpre | hpre
  · exact hpre
  · obtain ⟨more, rfl⟩ := hpre
    have hmore : more = [] := by
      apply Classical.byContradiction
      intro hne
      have hpos := byteLength_pos hne
      rw [byteLength_append] at hle
      omega
    exact ⟨[], by rw [hmore, List.append_nil, List.append_nil]⟩

/-- From the start of one stretch of a text to the end of a later one. -/
theorem Span.chars?_merge {a b : Span} (ha : a.chars? source = some first)
    (hb : b.chars? source = some last) (hle : a.stop ≤ b.start) :
    ∃ inner, (Span.merge a b).chars? source = some (first ++ inner ++ last) := by
  obtain ⟨before, after, hsource, hstart, hstop⟩ := split_of_chars? ha
  obtain ⟨before', after', hsource', hstart', hstop'⟩ := split_of_chars? hb
  have hsame : before ++ first ++ after = before' ++ (last ++ after') := by
    rw [← hsource, hsource', List.append_assoc]
  have hlength : Text.byteLength (before ++ first) ≤ Text.byteLength before' := by
    rw [Text.byteLength_append]
    omega
  obtain ⟨inner, rfl⟩ := Text.prefix_of_byteLength_le hsame hlength
  have hslice := Text.slice?_append before (first ++ inner ++ last) after'
  have hwhole : before ++ (first ++ inner ++ last) ++ after' = source.toList := by
    rw [hsource']
    simp only [List.append_assoc]
  have hlength : b.stop = Text.byteLength before + Text.byteLength (first ++ inner ++ last) := by
    rw [hstop']
    simp only [Text.byteLength_append]
    omega
  refine ⟨inner, ?_⟩
  rw [hwhole, ← hlength, ← hstart] at hslice
  exact hslice

theorem mem_of_infix {t u : Token} (h : [t, u] <:+: tokens) : t ∈ tokens ∧ u ∈ tokens :=
  ⟨h.subset List.mem_cons_self, h.subset (List.mem_cons_of_mem t List.mem_cons_self)⟩

/-- Two tokens that stand next to each other are joined by the place that reaches from one to the
other. -/
theorem Span.joins_of_infix {t u : Token} (h : [t, u] <:+: Scan.words names source)
    (ht : (scan names source).Reads source t.span first)
    (hu : (scan names source).Reads source u.span last) :
    (Span.merge t.span u.span).Joins source (scan names source) first last := by
  have hpairwise := Scan.pairwise_tokens names source
  rw [Scan.dropLast_scan] at hpairwise
  have hle : t.span.stop ≤ u.span.start := by simpa using hpairwise.sublist h.sublist
  exact ⟨⟨t.span, u.span, ht, hu, hle, rfl⟩, chars?_merge ht.chars hu.chars hle⟩

theorem UnitSited.located (h : UnitSited (Scan.words names source) span) :
    span.LocatesUnit source (scan names source) := by
  cases h with
  | word h => exact .inl (Scan.reads_keyword h)
  | parens h =>
    obtain ⟨hopening, hclose⟩ := mem_of_infix h
    exact .inr (Span.joins_of_infix h (Scan.reads_punct hopening) (Scan.reads_punct hclose))

/-! ## Nodes -/

theorem Literal.Sited.located {value : Literal} (h : value.Sited (Scan.words names source) span) :
    value.Located source (scan names source) span := by
  cases value with
  | number v => exact Span.locatesNumber h
  | str x =>
    obtain ⟨k, text, -, hmeans, hreads⟩ := Scan.exists_reads h
    cases hmeans with
    | string hknows => exact ⟨_, hreads, hknows⟩
  | bool b => cases b <;> exact Scan.reads_keyword h
  | nil => exact UnitSited.located h

/-- A token has no sign of its own, so that the sign of a number in a pattern tells how it was
written. -/
theorem NumberSited.located (h : NumberSited (Scan.words names source) v span) :
    (Pattern.literal (.number v) span).Located source (scan names source) := by
  have hunsigned : ∀ {w place}, ⟨.number w, place⟩ ∈ Scan.words names source →
      w.isNegative = false := by
    intro w place hw
    exact (TokenKind.isUnsigned_number.mp (Scan.ofLexemes_unsigned names _ _ hw)).1
  cases h with
  | plain h => exact (if_neg (by simp [hunsigned h])).mpr (Span.locatesNumber h)
  | @negative sign digits w h =>
    obtain ⟨hminus, hmem⟩ := mem_of_infix h
    have hnegative : w.neg.isNegative = true := by rw [Number.isNegative_neg, hunsigned hmem]; rfl
    obtain ⟨text, hreads, hmeans⟩ := Span.locatesNumber hmem
    refine (if_pos hnegative).mpr ⟨text, ?_, by rwa [Number.neg_neg]⟩
    exact Span.joins_of_infix h (Scan.reads_punct hminus) hreads

theorem Pattern.Sited.located {p : Pattern} (h : p.Sited (Scan.words names source)) :
    p.Located source (scan names source) := by
  cases p with
  | unit span => exact UnitSited.located h
  | var x | named x _ => exact Ident.Sited.located h
  | wild span | tuple _ span | vector _ span => exact Scan.reads_punct h
  | literal value span =>
    -- All constants but numbers are sited in patterns as they are in expressions.
    cases value with
    | number v => exact NumberSited.located h
    | str x => exact (show (Literal.str x).Sited (Scan.words names source) span from h).located
    | bool b => exact (show (Literal.bool b).Sited (Scan.words names source) span from h).located
    | nil => exact UnitSited.located h

theorem Expr.Sited.located {e : Expr} (h : e.Sited (Scan.words names source)) :
    e.Located source (scan names source) := by
  cases e with
  | literal value span => exact Literal.Sited.located h
  | grouping _ span | call _ _ span | tuple _ span | vector _ span => exact Scan.reads_punct h
  | unary op _ span => exact Scan.reads_punct h
  | binary _ op _ span =>
    cases op with
    | and | or => exact Scan.reads_keyword h
    | _ => exact Scan.reads_punct h
  | var x | assign x _ | get _ x | set _ x _ => exact Ident.Sited.located h
  | this span | seq _ span | cond _ _ _ span | case _ _ span => exact Scan.reads_keyword h
  | super _ span | letIn _ _ _ span => exact Scan.reads_keyword h.1

theorem Stmt.Sited.located {s : Stmt} (h : s.Sited (Scan.words names source)) :
    s.Located source (scan names source) := by
  cases s with
  | expr _ => trivial
  | block _ span => exact Scan.reads_punct h
  | print _ span | ret _ span | whileLoop _ _ span | forever _ span | forLoop _ _ _ _ span =>
    exact Scan.reads_keyword h
  | varDecl x _ => exact Ident.Sited.located h
  | fnDecl decl | classDecl x _ _ => exact Ident.Sited.located h.1

theorem Program.located_of_placed {p : Program}
    (h : ∀ s ∈ p.statements, s.Everywhere (Stmt.Placed (Scan.words names source))) :
    p.Located source (scan names source) := by
  have hstmt : ∀ s, p.Contains s → s.Placed (Scan.words names source) := by
    intro s hs
    obtain ⟨top, htop, hs⟩ := hs
    exact h top htop s hs
  have hexpr : ∀ e, p.ContainsExpr e → e.Placed (Scan.words names source) := by
    intro e he
    obtain ⟨s, hs, top, htop, he⟩ := he
    exact (hstmt s hs).2 top htop e he
  have hpattern : ∀ q, p.ContainsPattern q → q.Sited (Scan.words names source) := by
    intro q hq
    obtain ⟨e, he, top, htop, hq⟩ := hq
    exact (hexpr e he).2 top htop q hq
  refine ⟨fun x hx => ?_, fun s hs => (hstmt s hs).1.located, fun e he => (hexpr e he).1.located,
    fun q hq => (hpattern q hq).located⟩
  rcases hx with ⟨s, hs, hx⟩ | ⟨e, he, hx⟩ | ⟨q, hq, hx⟩
  · exact ((hstmt s hs).1.idents x hx).located
  · exact ((hexpr e he).1.idents x hx).located
  · exact ((hpattern q hq).idents x hx).located

/-! ## Errors -/

/-- All that can be next while a text is read are its tokens. -/
theorem Parser.marked_words :
    (Context.ofTokens source (scan names source).tokens).marked (Scan.words names source) =
      (scan names source).tokens := by
  rw [Context.marked, Context.ofTokens, finishOf_scan]
  rfl

theorem Scan.chars?_endMark (source : String) : (endMark source).span.chars? source = some [] := by
  have hend := (Position.origin.after_eq source.toList).1
  rw [Position.origin, Nat.zero_add] at hend
  have hslice := Text.slice?_append source.toList [] []
  simp only [List.append_nil, Text.byteLength_nil, Nat.add_zero] at hslice
  rw [← hend] at hslice
  exact hslice

theorem ParseError.Sited.located {e : ParseError} (h : e.Sited source (scan names source).tokens) :
    e.Located source (scan names source) := by
  obtain ⟨t, ht, hspan, hfound⟩ := h
  refine ⟨t, ht, hspan, fun shown hshown => ?_⟩
  have hshown : shown = String.ofList ((t.span.chars? source).getD []) := hfound shown hshown
  rcases List.mem_append.mp ht with hword | hend
  · obtain ⟨k, text, hne, hmeans, hreads⟩ := Scan.exists_reads hword
    obtain rfl : shown = String.ofList text := by rw [hshown, hreads.chars]; rfl
    have hkind := Scan.words_ne_eof names source t hword
    refine ⟨by rw [hreads.chars, String.toList_ofList], fun h =>
      absurd (String.ofList_eq_empty_iff.mp h) hne, fun h => absurd h hkind⟩
  · obtain rfl := List.mem_singleton.mp hend
    have hchars := Scan.chars?_endMark source
    rw [hchars] at hshown
    exact ⟨by rw [hchars, hshown]; rfl, fun _ => rfl, fun _ => hshown⟩

/-! ## Runs -/

variable (names source)

/-- What a parser answers with when it reads the tokens of a text. -/
theorem Parser.Sites.run {α : Type} {p : Parser α} {P : α → Prop}
    (h : ∀ {cx}, Sites cx (Scan.words names source) p P) :
    (p.run source (scan names source).tokens).Sited (.ofTokens source (scan names source).tokens)
      (Scan.words names source) P := by
  rw [Parser.run, Scan.takeWhile_scan]
  exact h _ List.suffix_rfl

variable {names source}

theorem Parser.State.Sited.located {s : State}
    (h : s.Sited (.ofTokens source (scan names source).tokens) (Scan.words names source)) :
    ∀ e ∈ s.errors, e.Located source (scan names source) := by
  intro e he
  obtain ⟨note, hnote, hnoted⟩ := List.mem_filterMap.mp he
  cases note with
  | error e' =>
    cases hnoted
    exact ParseError.Sited.located (marked_words ▸ h.notes e hnote)
  | resumed span => cases hnoted

theorem Parser.Reply.Sited.located {reply : Reply Expr}
    (h : reply.Sited (.ofTokens source (scan names source).tokens) (Scan.words names source)
      (·.Everywhere (Expr.Placed (Scan.words names source)))) : reply.Located source
        (scan names source) where
  value e s hreply := by
    subst hreply
    apply Program.located_of_placed
    exact List.forall_mem_singleton.mpr
      (Stmt.everywhere_of_exprs trivial rfl (List.forall_mem_singleton.mpr h.value))
  error e s hreply := by
    subst hreply
    exact ParseError.Sited.located (marked_words ▸ h.error)
  noted := h.state.located

/-- A program that was read, and all that was wrong with it. -/
theorem readSource_placed (names : Interner) (source : String) :
    (∀ s ∈ (readSource names source).program.statements,
        s.Everywhere (Stmt.Placed (Scan.words names source))) ∧
      ∀ e ∈ (readSource names source).parsed.errors, e.Located source (scan names source) := by
  have hprogram := Parser.Sites.run names source Parser.Sites.programBody
  obtain ⟨program, s, hrun, -⟩ := Parser.run_programBody source (scan names source).tokens
  have hparsed : (readSource names source).parsed = ⟨program, s.notes⟩ := by
    change parse source (scan names source).tokens = _
    unfold parse
    rw [hrun]
  rw [hrun] at hprogram
  rw [SourceRead.program, hparsed]
  exact ⟨hprogram.value, hprogram.state.located⟩

/-- An expression that was read. -/
theorem readExpression_placed (h : (readExpression names source).expr? = some e) :
    e.Everywhere (Expr.Placed (Scan.words names source)) := by
  have hreply := Parser.Sites.run names source Parser.Sites.completeExpression
  unfold ExprRead.expr? at h
  split at h
  · next e' s hrun =>
    change Parser.completeExpression.run source (scan names source).tokens = .ok e' s at hrun
    rw [hrun] at hreply
    split at h
    · cases h
      exact hreply.value
    · cases h
  · cases h

end

/-- Every place that reading a text hands out is right, whether the text is read as a program or as
a single expression, with whatever names there were before and whatever is wrong with the text. -/
theorem read_places_are_right (names : Interner) (source : String) :
    (readSource names source).program.Located source (scan names source) ∧
      (∀ e ∈ (readSource names source).parsed.errors, e.Located source (scan names source)) ∧
      ∀ p ∈ [Parser.expression, Parser.completeExpression],
        (p.run source (scan names source).tokens).Located source (scan names source) := by
  obtain ⟨hprogram, herrors⟩ := readSource_placed names source
  refine ⟨Program.located_of_placed hprogram, herrors,
    List.forall_mem_cons.mpr ⟨?_, List.forall_mem_singleton.mpr ?_⟩⟩
  · exact (Parser.Sites.run names source Parser.Sites.expression).located
  · exact (Parser.Sites.run names source Parser.Sites.completeExpression).located

end TreeWalk
