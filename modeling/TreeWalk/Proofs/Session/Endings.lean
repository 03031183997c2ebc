import TreeWalk.Console
import TreeWalk.Proofs.Eval.Refusal
import TreeWalk.Proofs.Session.ErrorPlaces

/-!
# How texts and scripts end

A text with something wrong in it does nothing but note what that is (`Session.Declines`), whatever
was noted before. All other texts are run up to their end or their first error. The exit of a script
says which of these it was.
-/

namespace TreeWalk

/-! ## Programs, statement by statement -/

namespace Eval

section

variable (names : Interner) (n : Nat)

/-- With `n` units of fuel, all statements are executed one after the other, from `m` to `m'`. -/
inductive Finishes : List Stmt → Machine → Machine → Prop
  | nil : Finishes [] m m
  | cons : execute n s names m = .ok .normal m₁ → Finishes ss m₁ m' → Finishes (s :: ss) m m'

/-- With `n` units of fuel, executing the statement raises an error in `m'`. That a statement
outside of all functions returns is an error too. -/
inductive Raises (s : Stmt) (m : Machine) : RuntimeError → Machine → Prop
  | fault : execute n s names m = .fault e m' → Raises s m e m'
  | returned : execute n s names m = .ok (.returned v span) m' →
      Raises s m (.returnOutsideFunction span) m'

/-- With `n` units of fuel, executing one statement after the other comes to one that raises an
error in `m'`. -/
def Fails (ss : List Stmt) (m : Machine) (e : RuntimeError) (m' : Machine) : Prop :=
  ∃ s p, InStmts names n ss m s p ∧ Raises names n s p e m'

end

variable {names : Interner} {n : Nat} {s : Stmt} {ss : List Stmt} {m m' : Machine}
  {e : RuntimeError}

theorem executeProgram_of_normal (h : execute n s names m = .ok .normal m₁) :
    executeProgram n (s :: ss) names m = executeProgram n ss names m₁ := by
  simp only [executeProgram, Bind.bind, h]

/-- The first error ends the program. -/
theorem executeProgram_of_raises (h : Raises names n s m e m') :
    executeProgram n (s :: ss) names m = .fault e m' := by
  cases h with
  | fault h => simp only [executeProgram, Bind.bind, h]
  | returned h => simp only [executeProgram, Bind.bind, h, raise]

theorem executeProgram_of_exhausted (h : execute n s names m = .exhausted) :
    executeProgram n (s :: ss) names m = .exhausted := by
  simp only [executeProgram, Bind.bind, h]

/-- What executing a statement of a program can come to. -/
theorem execute_cases (n : Nat) (s : Stmt) (names : Interner) (m : Machine) :
    (∃ m', execute n s names m = .ok .normal m') ∨ (∃ e m', Raises names n s m e m') ∨
      execute n s names m = .exhausted := by
  cases h : execute n s names m with
  | ok flow m' =>
    cases flow with
    | normal => exact .inl ⟨m', rfl⟩
    | returned v span => exact .inr (.inl ⟨_, m', .returned h⟩)
  | fault e m' => exact .inr (.inl ⟨e, m', .fault h⟩)
  | exhausted => exact .inr (.inr rfl)

/-- A program ends without an error just if all its statements do. -/
theorem executeProgram_eq_ok_iff :
    executeProgram n ss names m = .ok () m' ↔ Finishes names n ss m m' := by
  constructor
  · intro h
    induction ss generalizing m with
    | nil => cases h; exact .nil
    | cons s ss ih =>
      rcases execute_cases n s names m with ⟨m₁, hs⟩ | ⟨e, m₁, hs⟩ | hs
      · rw [executeProgram_of_normal hs] at h
        exact .cons hs (ih h)
      · rw [executeProgram_of_raises hs] at h
        cases h
      · rw [executeProgram_of_exhausted hs] at h
        cases h
  · intro h
    induction h with
    | nil => rfl
    | cons hs _ ih => rw [executeProgram_of_normal hs, ih]

/-- It fails just if one of them fails and all before it end. -/
theorem executeProgram_eq_fault_iff :
    executeProgram n ss names m = .fault e m' ↔ Fails names n ss m e m' := by
  constructor
  · intro h
    induction ss generalizing m with
    | nil => cases h
    | cons s ss ih =>
      rcases execute_cases n s names m with ⟨m₁, hs⟩ | ⟨e', m₁, hs⟩ | hs
      · rw [executeProgram_of_normal hs] at h
        obtain ⟨t, p, hin, hraises⟩ := ih h
        exact ⟨t, p, .later hs hin, hraises⟩
      · rw [executeProgram_of_raises hs] at h
        cases h
        exact ⟨s, m, .here, hs⟩
      · rw [executeProgram_of_exhausted hs] at h
        cases h
  · intro h
    obtain ⟨t, p, hin, hraises⟩ := h
    induction hin with
    | here => exact executeProgram_of_raises hraises
    | later hs _ ih => rw [executeProgram_of_normal hs, ih hraises]

theorem Finishes.not_fails (h : Finishes names n ss m m') : ¬ Fails names n ss m e m₁ := by
  intro hfails
  have hok := executeProgram_eq_ok_iff.mpr h
  rw [executeProgram_eq_fault_iff.mpr hfails] at hok
  cases hok

/-- The three ends of a program exclude each other. -/
theorem executeProgram_cases (n : Nat) (ss : List Stmt) (names : Interner) (m : Machine) :
    (∃ m', executeProgram n ss names m = .ok () m' ∧ Finishes names n ss m m') ∨
    (∃ e m', executeProgram n ss names m = .fault e m' ∧ Fails names n ss m e m') ∨
    (executeProgram n ss names m = .exhausted ∧ (∀ m', ¬ Finishes names n ss m m') ∧
      ∀ e m', ¬ Fails names n ss m e m') := by
  cases h : executeProgram n ss names m with
  | ok u m' => exact .inl ⟨m', rfl, executeProgram_eq_ok_iff.mp h⟩
  | fault e m' => exact .inr (.inl ⟨e, m', rfl, executeProgram_eq_fault_iff.mp h⟩)
  | exhausted =>
    refine .inr (.inr ⟨rfl, fun m' hm' => ?_, fun e m' hm' => ?_⟩)
    · rw [executeProgram_eq_ok_iff.mpr hm'] at h
      cases h
    · rw [executeProgram_eq_fault_iff.mpr hm'] at h
      cases h

/-- What was written when a statement was reached stays. -/
theorem InStmts.continues (h : InStmts names n ss m s p)
    (hend : (executeProgram n ss names m).machine? = some m') :
    p.output.Continues m'.output := by
  induction h with
  | here =>
    exact ((tracksWith n).executeProgram (T := fun _ _ _ _ => True) fun _ _ _ _ _ => trivial).adds
      _ _ _ hend
  | later hs _ ih =>
    rw [executeProgram_of_normal hs] at hend
    exact ih hend

end Eval

/-! ## Texts -/

theorem Sink.hadSyntaxError_foldl (s : Sink) (ds : List Diagnostic) :
    (ds.foldl reportSyntax s).hadSyntaxError = (s.hadSyntaxError || !ds.isEmpty) := by
  induction ds generalizing s with
  | nil => simp
  | cons d ds ih => rw [List.foldl_cons, ih]; simp [reportSyntax]

namespace Session

/-- From `s` to `t` a text was declined. Its names were entered, and what was found wrong with it
was noted behind what had been noted before. -/
structure Declines (s : Session) (found : List Diagnostic) (t : Session) : Prop where
  machine : t.machine = s.machine
  names : s.names.Extends t.names
  noted : t.sink.diagnostics.toList = s.sink.diagnostics.toList ++ found
  syntaxError : t.sink.hadSyntaxError = true
  runtimeError : t.sink.hadRuntimeError = s.sink.hadRuntimeError

/-- From `s` to `t` code was run that ended in the state `m`. -/
structure Resumes (s : Session) (m : Machine) (t : Session) : Prop where
  machine : t.machine = { m with events := #[] }
  names : s.names.Extends t.names

/-- What running a text comes to. -/
inductive RunEnds (n : Nat) (s : Session) (source : String) : Option Session → Prop
  | declined : (readSource s.names source).diagnostics ≠ [] →
      s.Declines ((scan s.names source).errors.map ScanError.diagnostic ++
        (parse source (scan s.names source).tokens).errors.map ParseError.diagnostic) t →
      RunEnds n s source (some t)
  | completed : (readSource s.names source).diagnostics = [] →
      Eval.Finishes (readSource s.names source).names n
        (readSource s.names source).program.statements s.machine m →
      s.Resumes m t → t.sink = s.sink → RunEnds n s source (some t)
  | failed : (readSource s.names source).diagnostics = [] →
      Eval.Fails (readSource s.names source).names n (readSource s.names source).program.statements
        s.machine e m →
      s.Resumes m t → t.sink = s.sink.reportRuntime e.diagnostic → RunEnds n s source (some t)
  | unfinished : (readSource s.names source).diagnostics = [] →
      (∀ m, ¬ Eval.Finishes (readSource s.names source).names n
        (readSource s.names source).program.statements
        s.machine m) →
      (∀ e m, ¬ Eval.Fails (readSource s.names source).names n
        (readSource s.names source).program.statements
        s.machine e m) → RunEnds n s source none

/-- What evaluating a text comes to. The parser's own errors are those that it went on after and the
one that stopped it. -/
inductive EvaluationEnds (n : Nat) (s : Session) (source : String) :
    Option (Option Value × Session) → Prop
  | declined : (readExpression s.names source).diagnostics ≠ [] →
      s.Declines ((scan s.names source).errors.map ScanError.diagnostic ++
        (readExpression s.names source).parseErrors.map ParseError.diagnostic) t →
      EvaluationEnds n s source (some (none, t))
  | completed : (readExpression s.names source).diagnostics = [] →
      (readExpression s.names source).reply = .ok e state → Eval.evaluate n e
      (readExpression s.names source).names s.machine = .ok v m → s.Resumes m t → t.sink = s.sink →
      EvaluationEnds n s source (some (some v, t))
  | failed : (readExpression s.names source).diagnostics = [] →
      (readExpression s.names source).reply = .ok e state → Eval.evaluate n e
      (readExpression s.names source).names s.machine = .fault error m → s.Resumes m t →
      t.sink = s.sink.reportRuntime error.diagnostic → EvaluationEnds n s source (some (none, t))
  | unfinished : (readExpression s.names source).diagnostics = [] →
      (readExpression s.names source).reply = .ok e state →
      Eval.evaluate n e (readExpression s.names source).names s.machine = .exhausted →
      EvaluationEnds n s source none

variable {s t : Session} {source : String}

theorem declines_of_foldl (hfound : found ≠ []) (hmachine : t.machine = s.machine)
    (hnames : s.names.Extends t.names) (hsink : t.sink = found.foldl Sink.reportSyntax s.sink) :
    s.Declines found t where
  machine := hmachine
  names := hnames
  noted := by rw [hsink]; exact (Sink.reportSyntax_all s.sink found).1
  syntaxError := by rw [hsink, Sink.hadSyntaxError_foldl]; simp [hfound]
  runtimeError := by rw [hsink]; exact (Sink.reportSyntax_all s.sink found).2

/-- Every run is in one of the cases. -/
theorem run_ends (n : Nat) (s : Session) (source : String) :
    RunEnds n s source (s.run n source) := by
  by_cases hsound : (readSource s.names source).diagnostics = []
  · have hextends := readSource_extends s.names source
    cases hrun : s.run n source with
    | some t =>
      have hended := run_ended hsound hrun
      rcases Eval.executeProgram_cases n (readSource s.names source).program.statements
          (readSource s.names source).names s.machine with ⟨m, ho, hm⟩ | ⟨e, m, ho, hm⟩ | ⟨ho, -⟩
      · rw [ho] at hended
        cases hended with
        | ok hnames hmachine hsink => exact .completed hsound hm ⟨hmachine, hnames ▸ hextends⟩ hsink
      · rw [ho] at hended
        cases hended with
        | fault hnames hmachine hsink => exact .failed hsound hm ⟨hmachine, hnames ▸ hextends⟩ hsink
      · exact absurd ho hended.ne_exhausted
    | none =>
      have hunfinished : ∀ {o}, Eval.executeProgram n (readSource s.names source).program.statements
          (readSource s.names source).names s.machine = o → o = .exhausted := by
        intro o ho
        by_contra hne
        obtain ⟨t, ht⟩ := exists_run hsound (ho ▸ hne)
        rw [ht] at hrun
        cases hrun
      refine .unfinished hsound (fun m hm => ?_) (fun e m hm => ?_)
      · cases hunfinished (Eval.executeProgram_eq_ok_iff.mpr hm)
      · cases hunfinished (Eval.executeProgram_eq_fault_iff.mpr hm)
  · obtain ⟨t, ht, hnames, hmachine, hsink⟩ := s.exists_run_faulty hsound
    rw [ht n]
    exact .declined hsound
      (declines_of_foldl hsound hmachine (hnames ▸ readSource_extends s.names source) hsink)

/-- Without errors there is an expression. -/
theorem reply_of_sound {r : ExprRead} (h : r.diagnostics = []) :
    ∃ e state, r.reply = .ok e state ∧ r.expr? = some e := by
  cases hreply : r.reply with
  | ok e state => exact ⟨e, state, rfl, by simp [ExprRead.expr?, hreply, h]⟩
  | fail e state => simp [ExprRead.diagnostics, ExprRead.parseErrors, hreply] at h

theorem expr?_of_faulty {r : ExprRead} (h : r.diagnostics ≠ []) : r.expr? = none := by
  cases hreply : r.reply with
  | ok e state => simp [ExprRead.expr?, hreply, h]
  | fail e state => simp [ExprRead.expr?, hreply]

/-- The same for the evaluation of an expression. -/
theorem evaluate_ends (n : Nat) (s : Session) (source : String) :
    EvaluationEnds n s source (s.evaluate n source) := by
  have hextends : s.names.Extends (readExpression s.names source).names :=
    readSource_extends s.names source
  by_cases hsound : (readExpression s.names source).diagnostics = []
  · obtain ⟨e, state, hreply, hexpr⟩ := reply_of_sound hsound
    simp only [evaluate, hexpr, perform, absorb, tell, hsound, List.foldl_nil]
    generalize ho : Eval.evaluate n e (readExpression s.names source).names s.machine = o
    cases o with
    | ok v m => exact .completed hsound hreply ho ⟨rfl, hextends⟩ rfl
    | fault error m => exact .failed hsound hreply ho ⟨rfl, hextends⟩ rfl
    | exhausted => exact .unfinished hsound hreply ho
  · simp only [evaluate, expr?_of_faulty hsound]
    exact .declined hsound (declines_of_foldl hsound rfl hextends rfl)

end Session

end TreeWalk
