import TreeWalk.Proofs.Session.ErrorPlaces

/-!
# Lines in place

Lines that are run one after the other all have the line number one. To tell them apart, each may be
run with as many line feeds in front as there were lines before it (`numbered`), so that it has the
number which it has in the input as a whole. The session that runs the lines in place does the same
as the one that runs them as they are. All that differs is the places of errors, and from the number
of its line an error in place tells which line its token was written in, however long ago this line
was run.
-/

namespace TreeWalk

/-! ## Code of several texts -/

/-- The rule that the code of some texts keeps to. -/
def CodeRule.ofTexts (P : String → Prop) : CodeRule where
  Allows a := ∃ names text, Interner.initial.Extends names ∧ P text ∧
    a.Placed (Scan.words names text)
  tidy := False
  ident := fun ⟨_, _, hnames, _, h⟩ hx => (h.plain hnames).idents _ hx
  pattern := fun ⟨_, _, hnames, _, h⟩ hp => (h.plain hnames).patterns _ hp
  rootless hfalse := hfalse.elim

variable {P : String → Prop}

theorem UnaryOp.span_of_apply {op : UnaryOp} (h : op.apply v span = .error err) :
    err.span = span := by
  cases op <;> cases v <;> cases h <;> rfl

theorem BinaryOp.span_of_apply {op : BinaryOp} (h : op.apply v w span = .error err) :
    err.span = span := by
  cases op with
  | eq | neq | and | or => cases h
  | append =>
    unfold apply at h
    dsimp only at h
    split at h
    · cases h
    · cases h
      rfl
  | add | sub | mul | div | lt | gt | lte | gte =>
    cases error_of_numeric h
    rfl

/-- The error that a piece of code ends with stands at a token of its text. -/
theorem Code.Blames.exists_token {a : Code} (hS : S.Sound rule) (hf : S.Lexical f)
    (hplaced : a.Placed tokens) (h : a.Blames names S f err) : ∃ t ∈ tokens, t.span = err.span := by
  cases h with
  | var | assign | get | property | set | this | case => exact ⟨_, hplaced.1, rfl⟩
  | super => exact ⟨_, hplaced.1.1, rfl⟩
  | superThis hsuper hthis =>
    obtain ⟨k, l, o, j, -, -, hobject, -⟩ := hS.knit.exists_receiver hf hsuper
    cases hthis.symm.trans hobject
  | superClass hsuper hother =>
    obtain ⟨k, l, o, j, rfl, -⟩ := hS.knit.exists_receiver hf hsuper
    exact absurd rfl (hother l)
  | superMethod => exact ⟨_, hplaced.1.2, rfl⟩
  | unary happly => exact ⟨_, hplaced.1, (UnaryOp.span_of_apply happly).symm⟩
  | binary happly => exact ⟨_, hplaced.1, (BinaryOp.span_of_apply happly).symm⟩
  | print => exact ⟨_, hplaced, rfl⟩
  | superclass | notClass => exact ⟨_, hplaced.2.1 _ rfl, rfl⟩

theorem CodeRule.Faults.exists_token (h : (CodeRule.ofTexts P).Faults names err) :
    ∃ names text, P text ∧ ∃ t ∈ Scan.words names text, t.span = err.span := by
  cases h with
  | node ha hS hf hblames =>
    obtain ⟨names, text, -, htext, hplaced⟩ := ha
    exact ⟨names, text, htext, hblames.exists_token hS hf hplaced⟩
  | arity ha | callee ha =>
    obtain ⟨names, text, -, htext, hplaced⟩ := ha
    exact ⟨names, text, htext, _, hplaced.1, rfl⟩
  | ret ha =>
    obtain ⟨names, text, -, htext, hplaced⟩ := ha
    exact ⟨names, text, htext, _, hplaced, rfl⟩

namespace Session

variable {s t u : Session} {source : String}

theorem ofTexts_everywhere (h : s.Sound (.ofTexts P)) (hsource : P source)
    (hstmt : stmt ∈ (readSource s.names source).program.statements) :
    (Code.stmt stmt).Everywhere (CodeRule.ofTexts P).Allows := by
  have hplaced := Code.everywhere_placed ((readSource_placed s.names source).1 stmt hstmt)
  exact fun b hb => ⟨s.names, source, h.initial, hsource, hplaced b hb⟩

theorem Sound.run_ofTexts (h : s.Sound (.ofTexts P)) (hsource : P source)
    (hrun : s.run n source = some u) :
    u.Sound (.ofTexts P) := by
  by_cases hsound : (readSource s.names source).diagnostics = []
  · have hread := (h.still (readSource_extends s.names source) (u := (s.read source).2) rfl rfl).1
    rw [run_eq_interpret s hsound] at hrun
    exact (hread.interpret (fun _ hstmt => ofTexts_everywhere h hsource hstmt) hrun).1
  · obtain ⟨t, ht, hnames, hmachine, -⟩ := s.exists_run_faulty hsound
    obtain rfl : t = u := Option.some.inj ((ht n).symm.trans hrun)
    exact (h.still (hnames ▸ readSource_extends s.names source) (by rw [hmachine])
        (by rw [hmachine])).1

/-- A runtime error stands at a token of one of the texts that were run. -/
theorem Sound.exists_token_of_fault (h : s.Sound (.ofTexts P)) (hsource : P source)
    (hfault : Eval.executeProgram n (readSource s.names source).program.statements
      (readSource s.names source).names
      s.machine = .fault err m) : ∃ names text, P text ∧
        ∃ t ∈ Scan.words names text, t.span = err.span := by
  have hends := (Regime.knit (.ofTexts P)).executeProgram n
    (fun stmt hstmt => h.executes (ofTexts_everywhere h hsource hstmt))
      (readSource s.names source).names
    s.machine rfl (Regime.knit (.ofTexts P)).grows_refl h.store
  rw [hfault] at hends
  exact hends.2.exists_token

end Session

/-! ## Numbered lines -/

/-- A line as it stands in an input, behind `k` other lines. -/
def numbered (k : Nat) (line : String) : String :=
  String.ofList (List.replicate k '\n') ++ line

/-- The place `k` lines further up. -/
def Span.unshift (k : Nat) (a : Span) : Span :=
  ⟨a.start - k, a.stop - k, a.line - k, a.column⟩

theorem Span.unshift_shift (k : Nat) (a : Span) : (a.shift k k).unshift k = a := by
  simp [shift, unshift]

theorem Position.after_feeds (k : Nat) :
    origin.after (List.replicate k '\n') = origin.shift k k := by
  induction k with
  | zero => rfl
  | succ k ih =>
    rw [List.replicate_succ', after_append, ih]
    rfl

section

variable {names : Interner} {line : String}

theorem scan_numbered (names : Interner) (k : Nat) (line : String) :
    Scan.words names (numbered k line) = (Scan.words names line).map (Token.move (.shift k k)) ∧
      (scan names (numbered k line)).names = (scan names line).names ∧
      ((scan names (numbered k line)).errors = [] ↔ (scan names line).errors = []) := by
  have hblank : ∀ c ∈ List.replicate k '\n', Lexeme.isBlank c = true := by
    intro c hc
    rw [List.eq_of_mem_replicate hc]
    rfl
  have htext : (numbered k line).toList = List.replicate k '\n' ++ line.toList := by simp [numbered]
  have hwhole : Scan.ofLexemes names (Lexeme.all .origin (numbered k line).toList) =
      Scan.ofLexemes names ((Lexeme.all .origin line.toList).map (Lexeme.shift k k)) := by
    rw [htext, Scan.ofLexemes_blanks hblank, Position.after_feeds, Lexeme.all_shift]
  obtain ⟨htokens, hnames, herrors⟩ :=
    Scan.ofLexemes_shift k k names (Lexeme.all .origin line.toList)
  rw [← hwhole] at htokens hnames herrors
  exact ⟨htokens, hnames, herrors⟩

theorem endMark_numbered (k : Nat) (line : String) :
    (Scan.endMark (numbered k line)).span = (Scan.endMark line).span.shift k k := by
  have hplace : Position.origin.after (numbered k line).toList =
      (Position.origin.after line.toList).shift k k := by
    rw [numbered, String.toList_append, String.toList_ofList, Position.after_append,
      Position.after_feeds, Position.after_shift]
  rw [Scan.endMark, hplace]
  rfl

/-- A line that is read without errors is read without errors in place, as the same program at other
places. -/
theorem readSource_numbered (h : (readSource names line).diagnostics = []) (k : Nat) :
    (readSource names (numbered k line)).diagnostics = [] ∧
      (readSource names line).program.Linked
        (.entered (readSource names line).names fun a b => (readSource names line).Place a ∧
          b = a.shift k k)
        (readSource names (numbered k line)).program := by
  obtain ⟨hwords, -, herrors⟩ := scan_numbered names k line
  have hfinish := (finishOf_scan names (numbered k line)).trans (endMark_numbered k line)
  obtain ⟨p, hquiet, hlinked⟩ := Parser.quiet_programBody_moved h (.shift k k) (fun _ _ => rfl)
    (.ofTokens (numbered k line) (scan names (numbered k line)).tokens) hfinish
  rw [← hwords, ← Scan.takeWhile_scan] at hquiet
  obtain ⟨hparsed, hprogram⟩ := parse_eq_iff.mp ⟨[], hquiet⟩
  refine ⟨SourceRead.diagnostics_eq_nil.mpr ⟨herrors.mpr (SourceRead.diagnostics_eq_nil.mp h).1,
    hparsed⟩, ?_⟩
  change Program.Linked _ _ (parse _ _).program
  rw [hprogram]
  exact hlinked

/-- What is read without errors in place is read without errors as it is. -/
theorem sound_of_numbered (h : (readSource names (numbered k line)).diagnostics = []) :
    (readSource names line).diagnostics = [] := by
  obtain ⟨hwords, -, herrors⟩ := scan_numbered names k line
  have hback : Token.move (.unshift k) ∘ Token.move (.shift k k) = id := by
    funext t
    exact congrArg (Token.mk t.kind) (Span.unshift_shift k t.span)
  have hfinish : Parser.finishOf (scan names line).tokens =
      (Scan.endMark (numbered k line)).span.unshift k := by
    rw [finishOf_scan, endMark_numbered, Span.unshift_shift]
  obtain ⟨p, hquiet, -⟩ := Parser.quiet_programBody_moved h (.unshift k) (fun _ _ => rfl)
    (.ofTokens line (scan names line).tokens) hfinish
  rw [hwords, List.map_map, hback, List.map_id, ← Scan.takeWhile_scan] at hquiet
  exact SourceRead.diagnostics_eq_nil.mpr
    ⟨herrors.mp (SourceRead.diagnostics_eq_nil.mp h).1, (parse_eq_iff.mp ⟨[], hquiet⟩).1⟩

theorem names_numbered (names : Interner) (k : Nat) (line : String) :
    (readSource names (numbered k line)).names = (readSource names line).names :=
  (scan_numbered names k line).2.1

end

/-! ## Two sessions -/

/-- The text is a line of the input, in place. -/
def IsLineOf (input : List String) (text : String) : Prop :=
  ∃ k line, input[k]? = some line ∧ text = numbered k line

/-- A place in a line of the input, and where it is in the input as a whole. -/
def Span.Renumbered (input : List String) (a b : Span) : Prop :=
  ∃ k line names, input[k]? = some line ∧ (readSource names line).Place a ∧ b = a.shift k k

namespace Session

/-- The first session has run lines of the input as they are, and the second one has run them in
place. -/
structure InPlace (input : List String) (s t : Session) : Prop where
  names : s.names = t.names
  machine : s.machine.Linked (.entered s.names (Span.Renumbered input)) t.machine
  sound : t.Sound (.ofTexts (IsLineOf input))

variable {input : List String} {s t s' t' : Session}

theorem inPlace_opened (output : Output) : (opened output).InPlace input (opened output) :=
  ⟨rfl, ⟨.initial, rfl, rfl⟩, sound_opened _ output⟩

/-- The two programs end alike. -/
theorem InPlace.outcome (h : s.InPlace input t) (hk : input[k]? = some line)
    (hsound : (readSource s.names line).diagnostics = []) (n : Nat) :
    ∃ K : Lockstep, K.toLink = .entered (readSource s.names line).names (Span.Renumbered input) ∧
      ¬ K.rightShort ∧ Outcome.Linked K Eq
        (Eval.executeProgram n (readSource s.names line).program.statements
          (readSource s.names line).names s.machine)
        (Eval.executeProgram n (readSource t.names (numbered k line)).program.statements
          (readSource t.names (numbered k line)).names t.machine) := by
  have hextends := readSource_extends s.names line
  have hinitial : Interner.initial.Extends s.names := h.names ▸ h.sound.initial
  rw [← h.names, names_numbered]
  let K := Lockstep.entered (readSource s.names line).names (readSource s.names line).names
    (Span.Renumbered input) n n
    (hinitial.trans hextends) (.refl _)
  have hcode : (readSource s.names line).program.Linked K.toLink
      (readSource s.names (numbered k line)).program :=
    Stmt.Linked.monoAll (Link.entered_within (.refl _) fun _ _ hab => ⟨k, line, s.names, hk, hab⟩)
      (readSource_numbered hsound k).2
  have hstore : s.machine.store.Linked K.toLink t.machine.store :=
    h.machine.store.mono (Link.entered_within hextends fun _ _ => id)
  exact ⟨K, rfl, Nat.lt_irrefl n,
    K.executeProgram n n id id hcode s.machine t.machine ⟨hstore, h.machine.current,
      h.machine.output⟩⟩

/-- Where two runs end alike, the sessions go on from linked states, and both report an error or
none does. -/
theorem ends_alike {K : Lockstep} {names names' : Interner} {sink sink' : Sink}
    (ho : Outcome.Linked K Eq o o') (h : Ended names sink o s') (h' : Ended names' sink' o' t') :
    s'.machine.Linked K.toLink t'.machine ∧
      (s'.sink = sink ∨ ∃ e e' m', o' = .fault e' m' ∧ e.Linked K.toLink e' ∧
        s'.sink = sink.reportRuntime (RuntimeError.diagnostic e) ∧
        t'.sink = sink'.reportRuntime (RuntimeError.diagnostic e')) := by
  cases h with
  | ok _ hmachine hsink =>
    cases h' with
    | ok _ hmachine' =>
      cases ho with
      | ok _ hm =>
        rw [hmachine, hmachine']
        exact ⟨⟨hm.store, hm.current, hm.output⟩, .inl hsink⟩
    | fault => cases ho
  | fault _ hmachine hsink =>
    cases h' with
    | ok => cases ho
    | fault _ hmachine' hsink' =>
      cases ho with
      | fault he hm =>
        rw [hmachine, hmachine']
        exact ⟨⟨hm.store, hm.current, hm.output⟩, .inr ⟨_, _, _, rfl, he, hsink, hsink'⟩⟩

/-- A line can be run in place where it can be run as it is, and the sessions still do the same. -/
theorem InPlace.run (h : s.InPlace input t) (hk : input[k]? = some line)
    (hrun : s.run n line = some s') :
    ∃ t', t.run n (numbered k line) = some t' ∧ s'.InPlace input t' := by
  have hsafe : ∀ {t'}, t.run n (numbered k line) = some t' → t'.Sound (.ofTexts (IsLineOf input)) :=
    h.sound.run_ofTexts ⟨k, line, hk, rfl⟩
  have hnames : s'.names = (readSource t.names (numbered k line)).names := by
    rw [run_names hrun, names_numbered, h.names]
  by_cases hsound : (readSource s.names line).diagnostics = []
  · have hsound' := (readSource_numbered hsound k).1
    rw [h.names] at hsound'
    obtain ⟨K, hlink, hshort, ho⟩ := h.outcome hk hsound n
    have hended := run_ended hsound hrun
    obtain ⟨t', ht'⟩ := exists_run hsound' (Lockstep.ends_right ho hshort hended.ne_exhausted)
    have hmachine := (ends_alike ho hended (run_ended hsound' ht')).1
    rw [hlink, ← run_names hrun] at hmachine
    exact ⟨t', ht', hnames.trans (run_names ht').symm, hmachine, hsafe ht'⟩
  · have hfaulty : (readSource t.names (numbered k line)).diagnostics ≠ [] := by
      rw [← h.names]
      exact fun hnone => hsound (sound_of_numbered hnone)
    obtain ⟨u, hu, hunames, hmachine, -⟩ := s.exists_run_faulty hsound
    obtain rfl : u = s' := Option.some.inj ((hu n).symm.trans hrun)
    obtain ⟨t', ht', hnames', hmachine', -⟩ := t.exists_run_faulty hfaulty
    refine ⟨t', ht' n, hnames.trans hnames'.symm, ?_, hsafe (ht' n)⟩
    rw [hunames, hmachine, hmachine']
    exact ⟨h.machine.store.mono
      (Link.entered_within (readSource_extends s.names line) fun _ _ => id), h.machine.current,
      h.machine.output⟩

/-- A line that fails, fails in place with the same error. In the input both errors have the same
place, and this is that of a token. -/
theorem InPlace.failure (h : s.InPlace input t) (hk : input[k]? = some line)
    (hrun : s.run n line = some s') (hrun' : t.run n (numbered k line) = some t') (hs : s.sink = {})
    (ht : t.sink = {}) (hd : d ∈ s'.sink.diagnostics.toList) (hruntime : d.isRuntime = true) :
    ∃ e e' : RuntimeError, s'.sink = Sink.reportRuntime {} e.diagnostic ∧
      t'.sink = Sink.reportRuntime {} e'.diagnostic ∧
      e.Linked (.entered s'.names (Span.Renumbered input)) e' ∧
      ∃ names text, IsLineOf input text ∧ ∃ w ∈ Scan.words names text, w.span = e'.span := by
  have hsound : (readSource s.names line).diagnostics = [] := by
    by_contra hfaulty
    obtain ⟨u, hu, -, -, hsink⟩ := s.exists_run_faulty hfaulty
    obtain rfl : u = s' := Option.some.inj ((hu n).symm.trans hrun)
    rw [hsink, (Sink.reportSyntax_all _ _).1, hs] at hd
    cases (Diagnostic.not_isRuntime hd).symm.trans hruntime
  have hsound' := (readSource_numbered hsound k).1
  rw [h.names] at hsound'
  obtain ⟨K, hlink, -, ho⟩ := h.outcome hk hsound n
  have hreport := (ends_alike ho (run_ended hsound hrun) (run_ended hsound' hrun')).2
  rw [hlink, ← run_names hrun, hs, ht] at hreport
  rcases hreport with hsink | ⟨e, e', m', hfault, he, hsink, hsink'⟩
  · rw [hsink] at hd
    exact absurd hd List.not_mem_nil
  · exact ⟨e, e', hsink, hsink', he, h.sound.exists_token_of_fault ⟨k, line, hk, rfl⟩ hfault⟩

/-- What is left of a session when all it has to tell was taken out. -/
def settled (s : Session) : Session :=
  s.takeOutput.2.takeLog.2.takeDiagnostics.2.resetSink

theorem InPlace.settled (h : s.InPlace input t) : s.settled.InPlace input t.settled where
  names := h.names
  machine := ⟨h.machine.store, h.machine.current, congrArg Output.emptied h.machine.output⟩
  sound := ⟨h.sound.initial, h.sound.store, h.sound.current, h.sound.globals⟩

end Session

end TreeWalk
