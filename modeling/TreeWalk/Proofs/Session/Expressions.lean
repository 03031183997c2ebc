import TreeWalk.Proofs.Eval.Fuel
import TreeWalk.Proofs.Parser.SoleExpression
import TreeWalk.Proofs.Session.Endings

/-!
# Evaluating a text and running it

A text can be evaluated as a single expression, and it can be run as a program. Both accept the same
texts as expressions, but for a `;` at the end, and then come to the same end: with the same error
or without one, and in the same state.
-/

namespace TreeWalk

/-! ## The statement -/

/-- The text was read without errors as a single expression statement, which does not end with
`;`. -/
structure SourceRead.IsExpression (r : SourceRead) (e : Expr) : Prop where
  sound : r.diagnostics = []
  statements : r.program.statements = [.expr e]
  unclosed : (r.scan.tokens.takeWhile (!·.isEof)).getLast?.map Token.kind ≠ some (.punct .semicolon)

namespace Session

/-- Both sessions have the same names, and the same frames, functions, classes, objects and
output. -/
structure SameState (t u : Session) : Prop where
  names : t.names = u.names
  machine : t.machine = u.machine

/-- The text is run to an end, and whatever fuel is spent on it `P` holds of that end. -/
def RunsTo (s : Session) (source : String) (P : Session → Prop) : Prop :=
  (∃ t, s.Runs source t) ∧ ∀ t, s.Runs source t → P t

/-- Evaluating the text in this session agrees with running it. -/
structure EvaluatesAsRun (s : Session) (source : String) : Prop where
  /-- If there is a value, running the text reports nothing. -/
  value : ∀ n v u, s.evaluate n source = some (some v, u) →
    s.RunsTo source fun t => t.sink = s.sink ∧ t.SameState u
  /-- If just a runtime error is reported, running the text reports that error. -/
  error : ∀ n u (e : RuntimeError), s.evaluate n source = some (none, u) →
    u.sink = s.sink.reportRuntime e.diagnostic → s.RunsTo source fun t =>
      t.sink = u.sink ∧ t.SameState u
  /-- What is run as an expression can be evaluated. -/
  accepted : ∀ e, (readSource s.names source).IsExpression e →
    (readExpression s.names source).diagnostics = [] ∧
    (∀ n r u, s.evaluate n source = some (r, u) → u.sink.hadSyntaxError = s.sink.hadSyntaxError) ∧
    ((∃ t, s.Runs source t) → ∃ n r, s.evaluate n source = some r)

end Session

/-! ## Reading -/

section

variable {names : Interner} {source : String}

theorem ExprRead.expr?_eq_some {r : ExprRead} :
    r.expr? = some e ↔ r.scan.errors = [] ∧ ∃ rest, r.reply.quiet = some (e, rest) := by
  unfold expr? diagnostics parseErrors
  cases r.reply with
  | fail e' s => simp [Parser.Reply.quiet]
  | ok e' s =>
    rw [Parser.Reply.quiet_ok]
    by_cases hscan : r.scan.errors = [] <;> by_cases hparse : s.errors = [] <;> simp [hscan, hparse]

/-- A text is read as an expression just if running it accepts it as one, with no `;` at its end. -/
theorem readExpression_eq_some :
    (readExpression names source).expr? = some e ↔ (readSource names source).IsExpression e := by
  have hreply : (readExpression names source).reply =
      Parser.completeExpression (.ofTokens source (scan names source).tokens)
        (Scan.words names source) := by
    rw [← Scan.takeWhile_scan]
    rfl
  rw [ExprRead.expr?_eq_some, hreply]
  change _ ∧ (∃ rest, Parser.completeExpression.quiet _ _ = _) ↔ _
  rw [Parser.quiet_completeExpression (Scan.words_ne_eof names source)]
  have hlast : Parser.EndsClosed (Scan.words names source) ↔
      ((scan names source).tokens.takeWhile (!·.isEof)).getLast?.map Token.kind =
        some (.punct .semicolon) := by
    rw [Scan.takeWhile_scan, Parser.EndsClosed, List.getLast?_map]
  constructor
  · rintro ⟨hscan, hprogram, hopen⟩
    obtain ⟨herrors, heq⟩ := parse_eq_iff.mp ⟨[], by rw [Scan.takeWhile_scan]; exact hprogram⟩
    exact ⟨SourceRead.diagnostics_eq_nil.mpr ⟨hscan, herrors⟩, congrArg Program.statements heq,
      mt hlast.mpr hopen⟩
  · rintro ⟨hsound, hstatements, hopen⟩
    refine ⟨(SourceRead.diagnostics_eq_nil.mp hsound).1, ?_, mt hlast.mp hopen⟩
    rw [Parser.quiet_programBody_scan hsound, ← hstatements]

end

/-! ## Running -/

/-- The outcome with its value left out. -/
def Outcome.valueless {α : Type} : Outcome α → Outcome Unit
  | ok _ m => ok () m
  | fault e m => fault e m
  | exhausted => exhausted

namespace Eval

theorem Below.executeProgram (hn : n ≤ n') (ss : List Stmt) :
    Below (executeProgram n ss) (executeProgram n' ss) := by
  induction ss with
  | nil => exact .refl _
  | cons s ss ih =>
    refine .bind ((below_of_le hn).execute s) fun flow => ?_
    cases flow with
    | normal => exact ih
    | returned v span => exact .refl _

/-- A program has one outcome, whatever fuel is spent on it. -/
theorem executeProgram_unique (h : executeProgram n ss names m ≠ .exhausted)
    (h' : executeProgram n' ss names m ≠ .exhausted) :
    executeProgram n ss names m = executeProgram n' ss names m := by
  have hmax := Below.executeProgram (Nat.le_max_left n n') ss names m h
  exact hmax.symm.trans (Below.executeProgram (Nat.le_max_right n n') ss names m h')

/-- A program of one expression ends as its evaluation does. -/
theorem executeProgram_expr (n : Nat) (e : Expr) (names : Interner) (m : Machine) :
    executeProgram (n + 1) [.expr e] names m = (evaluate n e names m).valueless := by
  simp only [executeProgram, execute, Bind.bind]
  cases evaluate n e names m <;> rfl

end Eval

namespace Session

variable {s u : Session} {source : String}

/-- Where a program ends once, running its text always ends. -/
theorem runsTo_of_executeProgram {P : Session → Prop}
    (hsound : (readSource s.names source).diagnostics = [])
    (ho : Eval.executeProgram n (readSource s.names source).program.statements
      (readSource s.names source).names
      s.machine = o) (hne : o ≠ .exhausted)
    (hP : ∀ t, Ended (readSource s.names source).names s.sink o t → P t) : s.RunsTo source P := by
  subst ho
  constructor
  · obtain ⟨t, ht⟩ := exists_run hsound hne
    exact ⟨t, n, ht⟩
  · rintro t ⟨k, ht⟩
    have hended := run_ended hsound ht
    rw [Eval.executeProgram_unique hended.ne_exhausted hne] at hended
    exact hP t hended

theorem evaluate_names (h : s.evaluate n source = some (r, u)) :
    u.names = (readSource s.names source).names := by
  unfold evaluate at h
  dsimp only at h
  split at h
  · cases h
    rfl
  · obtain ⟨⟨r', t⟩, hperform, hsettle⟩ := Option.map_eq_some_iff.mp h
    have ht : t.names = (readSource s.names source).names := perform_names hperform
    cases r' <;> cases hsettle <;> exact ht

theorem isExpression_of_reply (hsound : (readExpression s.names source).diagnostics = [])
    (hreply : (readExpression s.names source).reply = .ok e state) :
    (readSource s.names source).IsExpression e := by
  obtain ⟨e', _, hreply', hexpr⟩ := reply_of_sound hsound
  cases hreply.symm.trans hreply'
  exact readExpression_eq_some.mp hexpr

/-- The program of an expression ends as its evaluation does. -/
theorem executeProgram_of_reply (hsound : (readExpression s.names source).diagnostics = [])
    (hreply : (readExpression s.names source).reply = .ok e state)
    (hev : Eval.evaluate n e (readExpression s.names source).names s.machine = o) :
    Eval.executeProgram (n + 1) (readSource s.names source).program.statements
      (readSource s.names source).names
      s.machine = o.valueless := by
  rw [(isExpression_of_reply hsound hreply).statements, Eval.executeProgram_expr]
  exact congrArg Outcome.valueless hev

theorem sound_of_isExpression (he : (readSource s.names source).IsExpression e) :
    (readExpression s.names source).diagnostics = [] := by
  by_contra hfaulty
  have hexpr := readExpression_eq_some.mpr he
  rw [expr?_of_faulty hfaulty] at hexpr
  cases hexpr

/-- An expression whose program comes to an end can be evaluated, with less fuel by one. -/
theorem exists_evaluate (he : (readSource s.names source).IsExpression e) (hrun : s.Runs source u) :
    ∃ n r, s.evaluate n source = some r := by
  obtain ⟨n, hrun⟩ := hrun
  have hne := (run_ended he.sound hrun).ne_exhausted
  cases n with
  | zero =>
    rw [he.statements] at hne
    exact absurd rfl hne
  | succ n =>
    refine ⟨n, Option.isSome_iff_exists.mp (Option.isSome_iff_ne_none.mpr fun hnone => ?_)⟩
    have hends := evaluate_ends n s source
    rw [hnone] at hends
    cases hends with
    | unfinished hsound hreply hev => exact hne (executeProgram_of_reply hsound hreply hev)

/-- In any session, a text that is evaluated to a value is run without a report, a text whose
evaluation raises an error is run up to the same error, and both leave the same state. What is run
as a single expression without `;` can be evaluated. -/
theorem evaluating_agrees_with_running (s : Session) (source : String) :
    s.EvaluatesAsRun source where
  value n v u h := by
    have hends := evaluate_ends n s source
    rw [h] at hends
    cases hends with
    | completed hsound hreply hev hstate =>
      have hr := isExpression_of_reply hsound hreply
      refine runsTo_of_executeProgram hr.sound (executeProgram_of_reply hsound hreply hev)
        (by simp [Outcome.valueless]) fun t ht => ?_
      cases ht with
      | ok hnames hmachine hsink =>
        exact ⟨hsink, hnames.trans (evaluate_names h).symm, hmachine.trans hstate.machine.symm⟩
  error n u e h hreport := by
    have hends := evaluate_ends n s source
    rw [h] at hends
    cases hends with
    | declined _ hdeclines =>
      -- The only report is a runtime error, and there is none among those of reading.
      have hnoted := hdeclines.noted
      rw [hreport, Sink.reportRuntime, Sink.push, Array.toList_push] at hnoted
      have hmem := (List.append_cancel_left hnoted) ▸ List.mem_singleton_self e.diagnostic
      cases (Diagnostic.not_isRuntime hmem).symm.trans e.isRuntime_diagnostic
    | failed hsound hreply hev hstate hsink =>
      have hr := isExpression_of_reply hsound hreply
      refine runsTo_of_executeProgram hr.sound (executeProgram_of_reply hsound hreply hev)
        (by simp [Outcome.valueless]) fun t ht => ?_
      cases ht with
      | fault hnames hmachine hsink' =>
        exact ⟨hsink'.trans hsink.symm, hnames.trans (evaluate_names h).symm,
          hmachine.trans hstate.machine.symm⟩
  accepted e he := by
    have hsound := sound_of_isExpression he
    refine ⟨hsound, fun n r u h => ?_, fun hends => hends.elim fun t ht => exists_evaluate he ht⟩
    have hends := evaluate_ends n s source
    rw [h] at hends
    cases hends with
    | declined hfaulty => exact absurd hsound hfaulty
    | completed _ _ _ _ hsink => rw [hsink]
    | failed _ _ _ _ hsink => rw [hsink]; rfl

/-- A call that prints and then gives a value, and one that prints and then fails at an operator of
the function. -/
theorem printing_calls_are_evaluated_as_run :
    ∃ s v u e error w, (opened {}).run 9 "var a = 1; fn f(x) \x7b print x; return x + a; \x7d" =
      some s ∧ (readSource s.names "f(2)").IsExpression e ∧
      (readExpression s.names "f(2)").diagnostics = [] ∧
      s.evaluate 9 "f(2)" = some (some v, u) ∧
      s.RunsTo "f(2)" (fun t => t.sink = s.sink ∧ t.SameState u) ∧
      s.evaluate 9 "f(nil)" = some (none, w) ∧
      w.sink = s.sink.reportRuntime (RuntimeError.diagnostic error) ∧
      s.RunsTo "f(nil)" (fun t => t.sink = w.sink ∧ t.SameState w) := by
  have hall : ((opened {}).run 9 "var a = 1; fn f(x) \x7b print x; return x + a; \x7d").any
    (fun s =>
      (readExpression s.names "f(2)").expr?.isSome &&
        (s.evaluate 9 "f(2)").any (fun r => r.1.isSome) &&
        (s.evaluate 9 "f(nil)").any fun r => r.1.isNone && !r.2.sink.hadSyntaxError) = true := by
    decide +kernel
  obtain ⟨s, hs, hall⟩ := (Option.any_eq_true _ _).mp hall
  simp only [Bool.and_eq_true] at hall
  obtain ⟨⟨hexpr, hvalue⟩, herror⟩ := hall
  obtain ⟨e, he⟩ := Option.isSome_iff_exists.mp hexpr
  obtain ⟨⟨v?, u⟩, hu, hsome⟩ := (Option.any_eq_true _ _).mp hvalue
  obtain ⟨v, rfl⟩ := Option.isSome_iff_exists.mp hsome
  obtain ⟨⟨none?, w⟩, hw, hnone⟩ := (Option.any_eq_true _ _).mp herror
  simp only [Bool.and_eq_true, Option.isNone_iff_eq_none, Bool.not_eq_true'] at hnone
  obtain ⟨rfl, hsyntax⟩ := hnone
  have hends := evaluate_ends 9 s "f(nil)"
  rw [hw] at hends
  cases hends with
  | declined _ hdeclines =>
    rw [hdeclines.syntaxError] at hsyntax
    cases hsyntax
  | @failed _ _ error _ _ _ _ _ _ hsink =>
    have hr := readExpression_eq_some.mp he
    exact ⟨s, v, u, e, error, w, hs, hr, ((evaluating_agrees_with_running s _).accepted e hr).1, hu,
      (evaluating_agrees_with_running s _).value 9 v u hu, hw, hsink,
      (evaluating_agrees_with_running s _).error 9 w error hw hsink⟩

end Session

end TreeWalk
