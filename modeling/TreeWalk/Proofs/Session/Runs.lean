import TreeWalk.Session

/-!
# Runs of a session

Running a text either notes what is wrong with it and runs nothing, or takes the session to where
its program ends.
-/

namespace TreeWalk

theorem SourceRead.hasErrors_eq_false {r : SourceRead} :
    r.hasErrors = false ↔ r.diagnostics = [] := by
  simp [hasErrors]

namespace Session

/-- The text is run to its end, with some fuel. -/
def Runs (s : Session) (source : String) (t : Session) : Prop :=
  ∃ fuel, s.run fuel source = some t

/-- The program is run to its end, with some fuel. -/
def Interprets (s : Session) (p : Program) (t : Session) : Prop :=
  ∃ fuel, s.interpret fuel p = some t

/-- How a session goes on from the outcome of a program. -/
inductive Ended (names : Interner) (sink : Sink) : Outcome Unit → Session → Prop where
  | ok : t.names = names → t.machine = { m with events := #[] } → t.sink = sink →
      Ended names sink (.ok () m) t
  | fault : t.names = names → t.machine = { m with events := #[] } →
      t.sink = sink.reportRuntime e.diagnostic → Ended names sink (.fault e m) t

variable {s t : Session} {n : Nat}

theorem Ended.names_eq {names : Interner} {sink : Sink} (h : Ended names sink o t) :
    t.names = names := by
  cases h with
  | ok hnames => exact hnames
  | fault hnames => exact hnames

/-- A session that was left did not run out of fuel. -/
theorem Ended.ne_exhausted {names : Interner} {sink : Sink} (h : Ended names sink o t) :
    o ≠ .exhausted := by
  rintro rfl
  cases h

/-- Without a runtime error nothing was reported. -/
theorem Ended.sink_eq {names : Interner} {sink : Sink} (h : Ended names sink o t)
    (hnone : t.sink.hadRuntimeError = false) : t.sink = sink := by
  cases h with
  | ok _ _ hsink => exact hsink
  | fault _ _ hsink =>
    rw [hsink] at hnone
    cases hnone

/-- What a session is left as follows from the outcome of the program. -/
theorem interpret_ended (h : s.interpret n p = some t) :
    Ended s.names s.sink (Eval.executeProgram n p.statements s.names s.machine) t := by
  unfold interpret perform at h
  cases ho : Eval.executeProgram n p.statements s.names s.machine with
  | ok a m =>
    rw [ho] at h
    cases h
    exact .ok rfl rfl rfl
  | fault e m =>
    rw [ho] at h
    cases h
    exact .fault rfl rfl rfl
  | exhausted =>
    rw [ho] at h
    cases h

/-- With fuel enough there is a session afterwards. -/
theorem exists_interpret (h : Eval.executeProgram n p.statements s.names s.machine ≠ .exhausted) :
    ∃ t, s.interpret n p = some t := by
  unfold interpret perform
  cases ho : Eval.executeProgram n p.statements s.names s.machine with
  | ok a m => exact ⟨_, rfl⟩
  | fault e m => exact ⟨_, rfl⟩
  | exhausted => exact absurd ho h

/-! ## Texts with something wrong in them -/

/-- A text with something wrong in it is run with any fuel. Only names and what was wrong are taken
from it. -/
theorem exists_run_faulty (s : Session) (h : (readSource s.names source).diagnostics ≠ []) :
    ∃ t, (∀ n, s.run n source = some t) ∧ t.names = (readSource s.names source).names ∧
      t.machine = s.machine ∧
      t.sink = (readSource s.names source).diagnostics.foldl Sink.reportSyntax s.sink := by
  have hfaulty : (s.read source).1.hasErrors = true := by
    rw [← Bool.not_eq_false, SourceRead.hasErrors_eq_false]
    exact h
  refine ⟨(s.read source).2.tell [⟨.debug, .evaluator, "skipping execution: syntax errors"⟩],
    fun n => ?_, rfl, rfl, rfl⟩
  exact if_pos hfaulty

/-! ## Texts with nothing wrong in them -/

/-- A sound text is run by interpreting its program. -/
theorem run_eq_interpret (s : Session)
    (h : (readSource s.names source).diagnostics = []) (n : Nat) :
    s.run n source = (s.read source).2.interpret n (readSource s.names source).program := by
  have hsound : (s.read source).1.hasErrors = false := SourceRead.hasErrors_eq_false.mpr h
  exact if_neg (Bool.eq_false_iff.mp hsound)

theorem runs_eq_interprets (h : (readSource s.names source).diagnostics = []) :
    s.Runs source = (s.read source).2.Interprets (readSource s.names source).program := by
  funext t
  simp only [Runs, Interprets, run_eq_interpret s h]

theorem read_sink (s : Session) (h : (readSource s.names source).diagnostics = []) :
    (s.read source).2.sink = s.sink := by
  change (readSource s.names source).diagnostics.foldl Sink.reportSyntax s.sink = s.sink
  rw [h]
  rfl

/-- The end of a sound text is that of its program. -/
theorem run_ended (h : (readSource s.names source).diagnostics = [])
    (hrun : s.run n source = some t) :
    Ended (readSource s.names source).names s.sink
      (Eval.executeProgram n (readSource s.names source).program.statements
        (readSource s.names source).names s.machine)
      t := by
  rw [run_eq_interpret s h] at hrun
  have hended := interpret_ended hrun
  rw [read_sink s h] at hended
  exact hended

/-- The names of a text are entered whatever becomes of its run. -/
theorem run_names (hrun : s.run n source = some t) :
    t.names = (readSource s.names source).names := by
  by_cases h : (readSource s.names source).diagnostics = []
  · exact (run_ended h hrun).names_eq
  · obtain ⟨u, hu, hnames, -⟩ := s.exists_run_faulty h
    obtain rfl : u = t := Option.some.inj ((hu n).symm.trans hrun)
    exact hnames

theorem exists_run (h : (readSource s.names source).diagnostics = [])
    (ho : Eval.executeProgram n (readSource s.names source).program.statements
      (readSource s.names source).names
      s.machine ≠ .exhausted) : ∃ t, s.run n source = some t := by
  rw [run_eq_interpret s h]
  exact exists_interpret ho

end Session

end TreeWalk
