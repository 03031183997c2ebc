import TreeWalk.Proofs.Session.Texts

/-!
# Where runtime errors stand

A text that is run in a new session ends with at most one runtime error, and this stands at the
token at fault. The code that ends with the error may have been stored in a function or class long
before, so what is kept up is that all code of the store is code of the text.
-/

namespace TreeWalk

/-! ## The statement -/

/-- The codes of runtime errors. -/
def RuntimeError.codes : List String :=
  ["E0301", "E0302", "E0303", "E0304", "E0305", "E0306", "E0307", "E0308", "E0309", "E0310",
    "E0311", "E0312", "E0313"]

/-- The diagnostic has the code of a runtime error. -/
def Diagnostic.isRuntime (d : Diagnostic) : Bool :=
  d.code.any RuntimeError.codes.contains

section

variable (source : String) (found : Scan)

/-- The name stands where the text has it, and is shown as `name`. This is its text as long as there
are symbols to tell all texts apart. -/
def Ident.ShownAs (x : Ident) (name : String) (span : Span) : Prop :=
  x.span = span ∧ name = found.names.nameOf x.name ∧ ∃ text, found.Reads source span text ∧
    found.names.Knows x.name text ∧ (found.names.size ≤ Symbol.bound → name.toList = text)

/-- The error stands at the token of the program that is at fault. -/
def RuntimeError.Points (p : Program) : RuntimeError → Prop
  | .unboundVariable name span =>
    (∃ x, p.ContainsIdent x ∧ x.ShownAs source found name span) ∨
      ∃ w ∈ [Keyword.this, .super], name = w.text ∧ found.Reads source span w.text.toList
  | .numberOperand op _ span =>
    (∃ e, p.ContainsExpr (.unary op e span)) ∧ found.Reads source span op.text.toList
  | .numberOperands op _ _ span =>
    (∃ l r, p.ContainsExpr (.binary l op r span)) ∧ found.Reads source span op.text.toList
  | .booleanOperand _ span =>
    (∃ e, p.ContainsExpr (.unary .not e span)) ∧ found.Reads source span "!".toList
  | .stringOperands _ _ span =>
    (∃ l r, p.ContainsExpr (.binary l .append r span)) ∧ found.Reads source span "++".toList
  | .arityMismatch _ _ _ span | .notCallable _ span =>
    (∃ e args, p.ContainsExpr (.call e args span)) ∧ found.Reads source span "(".toList
  | .nonExhaustiveMatch _ span =>
    (∃ e arms, p.ContainsExpr (.case e arms span)) ∧ found.Reads source span "case".toList
  | .notAnInstance _ span =>
    ∃ x name, ((∃ e, p.ContainsExpr (.get e x)) ∨ ∃ e value, p.ContainsExpr (.set e x value)) ∧
      x.ShownAs source found name span
  | .undefinedProperty name span =>
    ∃ x, ((∃ e, p.ContainsExpr (.get e x)) ∨ ∃ place, p.ContainsExpr (.super x place)) ∧
      x.ShownAs source found name span
  | .superclassNotClass name span =>
    ∃ x cls methods, p.Contains (.classDecl cls (some x) methods) ∧ x.ShownAs source found name span
  | .returnOutsideFunction span =>
    (∃ e, p.Contains (.ret e span)) ∧ found.Reads source span "return".toList
  | .output _ span => (∃ e, p.Contains (.print e span)) ∧ found.Reads source span "print".toList

end

/-! ## Code of a text -/

/-- The piece of code is one of the program's. -/
def Code.Of (p : Program) : Code → Prop
  | .expr e => p.ContainsExpr e
  | .stmt s => p.Contains s

/-- The rule that the code of one text keeps to. -/
def CodeRule.ofText (source : String) : CodeRule where
  Allows a := a.Placed (Scan.words .initial source) ∧ a.Of (readSource .initial source).program
  tidy := False
  ident h hx := (h.1.plain (.refl _)).idents _ hx
  pattern h hp := (h.1.plain (.refl _)).patterns _ hp
  rootless hfalse := hfalse.elim

theorem CodeRule.ofText_everywhere {s : Stmt}
    (hs : s ∈ (readSource .initial source).program.statements) :
    (Code.stmt s).Everywhere (CodeRule.ofText source).Allows := by
  refine Code.everywhere_stmt fun t ht => ?_
  have hplaced := (readSource_placed .initial source).1 s hs t ht
  refine ⟨⟨hplaced.1, s, hs, ht⟩, fun e he d hd => ⟨hplaced.2 e he d hd, t, ⟨s, hs, ht⟩, e, he, hd⟩⟩

section

variable {source : String} {x : Ident}

theorem Ident.Sited.shownAs (h : x.Sited (Scan.words .initial source)) :
    x.ShownAs source (scan .initial source)
      ((scan .initial source).names.nameOf x.name) x.span := by
  obtain ⟨text, hreads, hknows⟩ := h.located
  refine ⟨rfl, rfl, text, hreads, hknows, fun hsize => ?_⟩
  rw [Interner.nameOf_of_get? hknows.1 hsize, String.toList_ofList]

theorem Code.Placed.located_stmt {s : Stmt} (h : (Code.stmt s).Placed (Scan.words names source)) :
    s.Located source (scan names source) :=
  Stmt.Sited.located h

theorem Interner.nameOf_of_initial {names : Interner} (hnames : Interner.initial.Extends names)
    (h : Interner.initial.resolve? s = some text) : names.nameOf s = text := by
  rw [Table.nameOf, hnames h]
  rfl

theorem UnaryOp.points_of_apply {op : UnaryOp} (h : op.apply v span = .error err)
    (hnode : p.ContainsExpr (.unary op e span)) (hreads : found.Reads source span op.text.toList) :
    err.Points source found p := by
  cases op with
  | neg =>
    cases v <;> cases h <;> exact ⟨⟨e, hnode⟩, hreads⟩
  | not =>
    cases v <;> cases h <;> exact ⟨⟨e, hnode⟩, hreads⟩

theorem BinaryOp.error_of_numeric {op : BinaryOp} (h : op.numeric f v w span = .error err) :
    err = .numberOperands op v.typeName w.typeName span := by
  unfold numeric at h
  split at h
  · cases h
  · cases h
    rfl

theorem BinaryOp.points_of_apply {op : BinaryOp} (h : op.apply v w span = .error err)
    (hnode : p.ContainsExpr (.binary l op r span))
    (hreads : found.Reads source span op.text.toList) :
    err.Points source found p := by
  cases op with
  | eq | neq | and | or => cases h
  | append =>
    unfold apply at h
    dsimp only at h
    split at h
    · cases h
    · cases h
      exact ⟨⟨l, r, hnode⟩, hreads⟩
  | add | sub | mul | div | lt | gt | lte | gte =>
    cases error_of_numeric h
    exact ⟨⟨l, r, hnode⟩, hreads⟩

/-- The error that a node of the text ends with stands at the token of that node. -/
theorem Code.Blames.points {a : Code} (ha : (CodeRule.ofText source).Allows a)
    (hS : S.Sound (.ofText source)) (hf : S.Lexical f)
    (h : a.Blames (scan .initial source).names S f err) :
    err.Points source (scan .initial source) (readSource .initial source).program := by
  have hnames : Interner.initial.Extends (scan .initial source).names :=
    Session.readSource_extends .initial source
  obtain ⟨hplaced, hof⟩ := ha
  cases h with
  | var | assign =>
    exact .inl ⟨_, .inr (.inl ⟨_, hof, List.mem_singleton_self _⟩), Ident.Sited.shownAs hplaced.1⟩
  | this =>
    exact .inr ⟨.this, by decide, Interner.nameOf_of_initial hnames (by decide +kernel),
      hplaced.1.located⟩
  | super =>
    exact .inr ⟨.super, by decide, Interner.nameOf_of_initial hnames (by decide +kernel),
      hplaced.1.located⟩
  | superThis hsuper hthis =>
    -- Where there is a `super` there is a receiver.
    obtain ⟨k, l, o, j, -, -, hobject, -⟩ := hS.knit.exists_receiver hf hsuper
    cases hthis.symm.trans hobject
  | superClass hsuper hother =>
    obtain ⟨k, l, o, j, rfl, -⟩ := hS.knit.exists_receiver hf hsuper
    exact absurd rfl (hother l)
  | superMethod => exact ⟨_, .inr ⟨_, hof⟩, Ident.Sited.shownAs hplaced.1.2⟩
  | unary happly => exact UnaryOp.points_of_apply happly hof hplaced.1.located
  | binary happly => exact BinaryOp.points_of_apply happly hof hplaced.1.located
  | get => exact ⟨_, _, .inl ⟨_, hof⟩, Ident.Sited.shownAs hplaced.1⟩
  | property => exact ⟨_, .inl ⟨_, hof⟩, Ident.Sited.shownAs hplaced.1⟩
  | set => exact ⟨_, _, .inr ⟨_, _, hof⟩, Ident.Sited.shownAs hplaced.1⟩
  | case => exact ⟨⟨_, _, hof⟩, hplaced.1.located⟩
  | print => exact ⟨⟨_, hof⟩, hplaced.located_stmt⟩
  | superclass =>
    exact .inl ⟨_, .inl ⟨_, hof, List.mem_cons_of_mem _ List.mem_cons_self⟩,
      Ident.Sited.shownAs (hplaced.2.1 _ rfl)⟩
  | notClass => exact ⟨_, _, _, hof, Ident.Sited.shownAs (hplaced.2.1 _ rfl)⟩

theorem CodeRule.Faults.points
    (h : (CodeRule.ofText source).Faults (scan .initial source).names err) :
    err.Points source (scan .initial source) (readSource .initial source).program := by
  cases h with
  | node ha hS hf hblames => exact hblames.points ha hS hf
  | arity ha | callee ha => exact ⟨⟨_, _, ha.2⟩, ha.1.1.located⟩
  | ret ha => exact ⟨⟨_, ha.2⟩, ha.1.located_stmt⟩

end

/-! ## Runs -/

theorem RuntimeError.isRuntime_diagnostic (e : RuntimeError) : e.diagnostic.isRuntime = true := by
  cases e <;> rfl

theorem Diagnostic.not_isRuntime {es : List ScanError} {fs : List ParseError}
    (h : d ∈ es.map ScanError.diagnostic ++ fs.map ParseError.diagnostic) :
    d.isRuntime = false := by
  rcases List.mem_append.mp h with h | h
  · obtain ⟨e, -, rfl⟩ := List.mem_map.mp h
    cases e <;> rfl
  · obtain ⟨e, -, rfl⟩ := List.mem_map.mp h
    cases e <;> rfl

theorem Sink.reportSyntax_all (s : Sink) (ds : List Diagnostic) :
    (ds.foldl reportSyntax s).diagnostics.toList = s.diagnostics.toList ++ ds ∧
      (ds.foldl reportSyntax s).hadRuntimeError = s.hadRuntimeError := by
  induction ds generalizing s with
  | nil => exact ⟨(List.append_nil _).symm, rfl⟩
  | cons d ds ih =>
    obtain ⟨hds, hflag⟩ := ih (s.reportSyntax d)
    refine ⟨?_, hflag⟩
    rw [List.foldl_cons, hds]
    simp [reportSyntax, push]

namespace Session

variable {output : Output} {source : String} {n : Nat} {t : Session}

/-- A text with nothing wrong in it ends well, or with an error that stands at the token at
fault. -/
theorem sink_of_run (hclean : (readSource .initial source).diagnostics = [])
    (h : (opened output).run n source = some t) :
    t.sink = {} ∨ ∃ e : RuntimeError, t.sink = Sink.reportRuntime {} e.diagnostic ∧
      e.Points source (scan .initial source) (readSource .initial source).program := by
  have hended : Ended (readSource .initial source).names {} (Eval.executeProgram n
      (readSource .initial source).program.statements (readSource .initial source).names
        (opened output).machine) t :=
    run_ended hclean h
  have hsound := sound_opened (.ofText source) output
  have hends := (Regime.knit (.ofText source)).executeProgram n
    (fun stmt hstmt => hsound.executes (CodeRule.ofText_everywhere hstmt))
      (readSource .initial source).names
    (opened output).machine rfl (Regime.knit (.ofText source)).grows_refl hsound.store
  generalize Eval.executeProgram n (readSource .initial source).program.statements _ _ =
    o at hended hends
  cases hended with
  | ok _ _ hsink => exact .inl hsink
  | fault _ _ hsink => exact .inr ⟨_, hsink, hends.2.points⟩

/-- A text with something wrong in it does not run, and all that is reported is what was wrong. -/
theorem sink_of_faulty (hfaulty : (readSource .initial source).diagnostics ≠ [])
    (h : (opened output).run n source = some t) :
    t.sink.hadRuntimeError = false ∧ ∀ d ∈ t.sink.diagnostics.toList, d.isRuntime = false := by
  obtain ⟨u, hu, -, -, hsink⟩ := (opened output).exists_run_faulty hfaulty
  obtain rfl : u = t := Option.some.inj ((hu n).symm.trans h)
  obtain ⟨hall, hflag⟩ :=
    Sink.reportSyntax_all (opened output).sink (readSource .initial source).diagnostics
  change u.sink = (readSource .initial source).diagnostics.foldl Sink.reportSyntax
    (opened output).sink at hsink
  rw [hsink, hflag, hall]
  exact ⟨rfl, fun d hd => Diagnostic.not_isRuntime hd⟩

/-- A text that is run in a new session reports at most one runtime error, and this stands at the
token at fault. -/
theorem runtime_errors_point_at_their_cause (output : Output) (source : String) (n : Nat)
    (t : Session) (h : (opened output).run n source = some t) :
    (t.sink.diagnostics.toList.filter Diagnostic.isRuntime).length =
      (if t.sink.hadRuntimeError then 1 else 0) ∧
    ∀ d ∈ t.sink.diagnostics.toList, d.isRuntime = true → ∃ e : RuntimeError, d = e.diagnostic ∧
      e.Points source (scan .initial source) (readSource .initial source).program := by
  by_cases hclean : (readSource .initial source).diagnostics = []
  · rcases sink_of_run hclean h with hsink | ⟨e, hsink, hpoints⟩
    · rw [hsink]
      exact ⟨rfl, fun d hd => absurd hd List.not_mem_nil⟩
    · rw [hsink]
      refine ⟨?_, fun d hd _ => ⟨e, List.mem_singleton.mp hd, hpoints⟩⟩
      change ([e.diagnostic].filter Diagnostic.isRuntime).length = 1
      rw [List.filter_cons_of_pos e.isRuntime_diagnostic]
      rfl
  · obtain ⟨hflag, hnone⟩ := sink_of_faulty hclean h
    refine ⟨?_, fun d hd hruntime => absurd hruntime (Bool.eq_false_iff.mp (hnone d hd))⟩
    rw [List.filter_eq_nil_iff.mpr fun d hd => Bool.eq_false_iff.mp (hnone d hd), hflag]
    rfl

/-- A method that was stored in a variable fails in its body, at an operator between its own
parameters. -/
theorem error_in_stored_method_points_at_operator :
    let source :=
      "class A \x7b add(x, y) \x7b return x + y; \x7d \x7d var f = A().add; print 1; f(2, nil);"
    ∃ t d e, (opened {}).run 20 source = some t ∧ t.sink.diagnostics.toList = [d] ∧
      d.code = some "E0303" ∧ d = RuntimeError.diagnostic e ∧
      e.Points source (scan .initial source) (readSource .initial source).program := by
  intro source
  have hall : ((opened {}).run 20 source).any (fun t =>
      t.sink.diagnostics.toList.map Diagnostic.code = [some "E0303"]) = true := by
    decide +kernel
  obtain ⟨t, ht, hall⟩ := (Option.any_eq_true _ _).mp hall
  obtain ⟨d, hd, hcode⟩ := List.map_eq_singleton_iff.mp (of_decide_eq_true hall)
  have hruntime : d.isRuntime = true := by
    rw [Diagnostic.isRuntime, hcode]
    rfl
  obtain ⟨e, he, hpoints⟩ :=
    (runtime_errors_point_at_their_cause {} source 20 t ht).2 d
      (hd ▸ List.mem_singleton_self d) hruntime
  exact ⟨t, d, e, ht, hd, hcode, he, hpoints⟩

end Session

end TreeWalk
