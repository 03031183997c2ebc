import TreeWalk.Proofs.Eval.Refusal
import TreeWalk.Proofs.Session.CanonicalRuns
import TreeWalk.Proofs.Session.ErrorPlaces
import TreeWalk.Proofs.Session.ParsedCode

/-!
# Runs on an output that breaks

Where an output refuses everything from some byte on, a run either never notices or is cut short at
the `print` statement to which the refused text belongs. Up to there it is the run without limits,
and what was written is a part of what that run writes, to the byte.
-/

namespace TreeWalk

/-- With `n` units of fuel, executing the statements from `m` on comes to a `print` statement, has
its value, and is then in the state `q`. -/
def Eval.Prints (names : Interner) (n : Nat) (ss : List Stmt) (m : Machine) (e : Expr)
    (span : Span) (v : Value) (q : Machine) : Prop :=
  ∃ stmt m₀ k p, InStmts names n ss m stmt m₀ ∧
    Visits names n (.execute stmt) m₀ (k + 1) (.execute (.print e span)) p ∧
    evaluate k e names p = .ok v q

/-- The statement stands in a function of the store, or in a method of one of its classes. -/
def Store.HasStmt (S : Store) (s : Stmt) : Prop :=
  ∃ decl, S.HasCode decl ∧ ∃ top ∈ decl.body, s.Inside top

namespace Session

/-- The session with the limits of its output lifted. -/
def freed (s : Session) : Session :=
  { s with machine := s.machine.freed }

/-- From `s` to `t` more was reported, none of which is that a text could not be written. -/
def ReportsNoOutput (s t : Session) : Prop :=
  ∃ new, t.sink.diagnostics.toList = s.sink.diagnostics.toList ++ new ∧
    ∀ d ∈ new, d.code ≠ some "E0313"

/-- Running the text from `s` to `t` was cut short at a `print` statement with the value `v`, in the
state `q`. -/
structure CutShort (n : Nat) (s : Session) (source : String) (t : Session) (e : Expr)
    (span : Span) (v : Value) (q : Machine) : Prop where
  sound : (readSource s.names source).diagnostics = []
  prints : Eval.Prints (readSource s.names source).names n
    (readSource s.names source).program.statements s.machine e span v q
  /-- Without limits, the run comes to the same statement in the same state. -/
  freed : Eval.Prints (readSource s.names source).names n
    (readSource s.names source).program.statements s.machine.freed e span v q.freed
  /-- What was written when the text was refused is what was written at the end. -/
  refused : q.output.writeAll (q.store.pieces v ++ ["\n"]) = (false, t.machine.output)
  closed : ∀ text, t.machine.output.write text = (text.isEmpty, t.machine.output)
  /-- All that is reported is the answer of the output, at the statement. -/
  reported : t.sink =
    s.sink.reportRuntime (RuntimeError.output s.machine.output.refusal span).diagnostic
  /-- The statement is one of the text or of code that was there before. -/
  origin : (readSource s.names source).program.Contains (.print e span) ∧
      (scan s.names source).Reads source span "print".toList ∨
    s.machine.store.HasStmt (.print e span)
  /-- In a session of parsed code, the error stands at the keyword in the text from which the
  statement was read. -/
  keyword : ∀ output, Relation.ReflTransGen ParsedStep (opened output) s →
    ∃ names text, (scan names text).Reads text span "print".toList
  /-- Without limits, the statement writes all of its text. -/
  part : ∃ all, q.freed.output.writeAll (q.store.pieces v ++ ["\n"]) = (true, all) ∧
    t.machine.output.Continues all
  /-- However the run without limits ends, if it does, it has written more. -/
  partOfAll : ∀ k u, s.freed.run k source = some u → t.machine.output.Continues u.machine.output

end Session

/-! ## More fuel -/

namespace Eval

variable {names : Interner} {m : Machine} {ss : List Stmt}

/-- Two runs of one program with different fuel. -/
theorem executeProgram_linked (n k : Nat) (ss : List Stmt) (names : Interner) (m : Machine) :
    Outcome.Linked (.anywhere names n k) Eq (executeProgram n ss names m)
      (executeProgram k ss names m) :=
  (Lockstep.anywhere names n k).executeProgram n k id id
    (Stmt.linked_selfAll Link.reflexive_anywhere ss) m m
    ⟨.self Link.reflexive_anywhere _, rfl, rfl⟩

/-- With more fuel, a program that has ended ends with the same text written. -/
theorem output_of_more (h : (executeProgram n ss names m).machine? = some m') (hn : n ≤ k) :
    ∃ m₁, (executeProgram k ss names m).machine? = some m₁ ∧ m₁.output = m'.output := by
  have hlinked := executeProgram_linked n k ss names m
  generalize executeProgram n ss names m = o at h hlinked
  generalize executeProgram k ss names m = o' at hlinked
  cases hlinked with
  | ok _ hm => cases h; exact ⟨_, rfl, hm.output.symm⟩
  | fault _ hm => cases h; exact ⟨_, rfl, hm.output.symm⟩
  | exhausted => cases h
  | left => cases h
  | right hshort => exact absurd hshort (Nat.not_lt.mpr hn)

theorem fault_of_more (h : executeProgram n ss names m = .fault e m') (hn : n ≤ k) :
    ∃ e' m₁, executeProgram k ss names m = .fault e' m₁ ∧ e'.code = e.code ∧
      m₁.output = m'.output := by
  have hlinked := executeProgram_linked n k ss names m
  rw [h] at hlinked
  generalize executeProgram k ss names m = o' at hlinked
  cases hlinked with
  | fault he hm => exact ⟨_, _, rfl, he.code.symm, hm.output.symm⟩
  | right hshort => exact absurd hshort (Nat.not_lt.mpr hn)

/-- Which statement of a program comes next, as a relation between tasks. -/
def Next (n : Nat) (ss : List Stmt) (names : Interner) (m : Machine) (t : Task)
    (p : Machine) : Prop :=
  ∃ s, t = .execute s ∧ InStmts names n ss m s p

theorem tracks_executeProgram (n : Nat) (ss : List Stmt) :
    Tracks (Next n ss) n (executeProgram n ss) :=
  (tracksWith n).executeProgram fun _ _ s _ hin => ⟨s, rfl, hin⟩

/-- What was written before a refusal is the beginning of what the run without limits writes,
whatever its fuel. -/
theorem continues_of_refused (h : executeProgram n ss names m = .fault e m')
    (he : e.isOutput = true) (k : Nat) :
    ∀ m'', (executeProgram k ss names m.freed).machine? = some m'' →
      m'.output.Continues m''.output := by
  intro m'' hfree
  obtain ⟨e', m₁, hlimited, hcode, houtput⟩ := fault_of_more h (Nat.le_max_left n k)
  obtain ⟨m₂, hm₂, houtput'⟩ := output_of_more hfree (Nat.le_max_right n k)
  have htracked := (tracks_executeProgram (max n k) ss).tracked names m
  rw [hlimited] at htracked
  rw [← houtput, ← houtput']
  generalize executeProgram (max n k) ss names m.freed = o at htracked hm₂
  cases htracked with
  | fault hother =>
    rw [← RuntimeError.code_eq_output_iff, ← hcode, RuntimeError.code_eq_output_iff] at he
    exact absurd he (Bool.eq_false_iff.mp hother)
  | refused _ _ _ hmore => exact hmore m₂ hm₂

theorem Refused.prints {p : Machine} (h : Refused names n t p e o) (hnext : Next n ss names m t p)
    (hnext' : Next n ss names m.freed t p.freed) :
    ∃ d span v q, Prints names n ss m d span v q ∧ Prints names n ss m.freed d span v q.freed ∧
      q.output.writeAll (q.store.pieces v ++ ["\n"]) = (false, o) ∧
      e = .output q.output.refusal span := by
  obtain ⟨s, rfl, hin⟩ := hnext
  obtain ⟨s', hs', hin'⟩ := hnext'
  cases hs'
  cases h with
  | print hvisits hvisits' hv hv' hwrite =>
    exact ⟨_, _, _, _, ⟨_, _, _, _, hin, hvisits, hv⟩, ⟨_, _, _, _, hin', hvisits', hv'⟩, hwrite,
      rfl⟩

/-- The form of all code that runs is the form of the `print` statements to which a program
comes. -/
theorem Prints.allows {form : CodeForm} (h : Prints names n ss m e span v q)
    (hS : m.store.Written form) (hss : ∀ s ∈ ss, (Code.stmt s).Everywhere form.Allows) :
    form.Allows (.stmt (.print e span)) := by
  obtain ⟨s, m₀, k, p, hin, hvisits, -⟩ := h
  have hstart :=
    Regime.leads_inStmts (R := .written form) hin (fun s hs => .of_own trivial (hss s hs)) hS
  exact (Regime.Leads.visits hvisits hstart.good hstart.fit).fit.runs.self

end Eval

/-! ## Where the statement comes from -/

/-- The statements of a program, and of the functions and methods of a store. -/
def CodeForm.known (S : Store) (p : Program) : CodeForm where
  Allows a := ∀ s, a = .stmt s → p.Contains s ∨ S.HasStmt s
  width := 0
  tuple _ := Nat.zero_le _

theorem CodeForm.known_everywhere {top : Stmt}
    (h : ∀ s : Stmt, s.Inside top → p.Contains s ∨ S.HasStmt s) :
    (Code.stmt top).Everywhere (known S p).Allows := by
  refine Code.everywhere_stmt fun t ht => ⟨fun s hs => ?_, fun e _ d _ s hs => ?_⟩
  · cases hs
    exact h t ht
  · cases hs

theorem CodeForm.written_known (S : Store) (p : Program) : S.Written (known S p) := by
  refine ⟨fun v _ vs _ => Nat.zero_le _, fun decl hdecl top htop => ?_⟩
  exact known_everywhere fun s hs => .inr ⟨decl, hdecl, top, htop, hs⟩

/-- Code that stands in some text. -/
def CodeForm.placed : CodeForm where
  Allows a := ∃ names source, a.Placed (Scan.words names source)
  width := 0
  tuple _ := Nat.zero_le _

theorem CodeForm.coversTexts_placed : CodeForm.placed.CoversTexts where
  program {names source s} hs := by
    have hplaced := Code.everywhere_placed ((readSource_placed names source).1 s hs)
    exact fun b hb => ⟨names, source, hplaced b hb⟩
  expression {names source e} he := by
    refine Code.everywhere_expr fun d hd => ⟨names, source, ?_⟩
    exact readExpression_placed he d hd
  width := Nat.zero_le 2

/-! ## Runs -/

theorem SourceRead.code_ne_output {r : SourceRead} (h : d ∈ r.diagnostics) :
    d.code ≠ some "E0313" := by
  intro hcode
  have hruntime := Diagnostic.not_isRuntime h
  rw [Diagnostic.isRuntime, hcode] at hruntime
  cases hruntime

namespace Session

variable {s t : Session} {n : Nat} {source : String}

/-- A text with something wrong in it does not run, so the output plays no part. -/
theorem freed_run_faulty (h : (readSource s.names source).diagnostics ≠ [])
    (hrun : s.run n source = some t) :
    s.freed.run n source = some t.freed ∧ s.ReportsNoOutput t := by
  have hfaulty : (readSource s.names source).hasErrors = true := by
    rw [← Bool.not_eq_false, SourceRead.hasErrors_eq_false]
    exact h
  have hsink : t.sink = (readSource s.names source).diagnostics.foldl Sink.reportSyntax s.sink := by
    obtain ⟨u, hu, -, -, hsink⟩ := s.exists_run_faulty h
    obtain rfl : u = t := Option.some.inj ((hu n).symm.trans hrun)
    exact hsink
  refine ⟨?_, (readSource s.names source).diagnostics, ?_, fun d hd => SourceRead.code_ne_output hd⟩
  · obtain rfl := Option.some.inj ((if_pos hfaulty).symm.trans hrun)
    exact if_pos hfaulty
  · rw [hsink]
    exact (Sink.reportSyntax_all s.sink _).1

theorem Ended.output {names : Interner} {before : Sink} (h : Ended names before o t) :
    ∃ m, o.machine? = some m ∧ t.machine.output = m.output := by
  cases h with
  | ok _ hmachine _ => exact ⟨_, rfl, by rw [hmachine]⟩
  | fault _ hmachine _ => exact ⟨_, rfl, by rw [hmachine]⟩

/-- Where a text that runs was cut short. -/
theorem cutShort_of_refused (h : (readSource s.names source).diagnostics = [])
    (hrun : s.run n source = some t)
    (hfault : Eval.executeProgram n (readSource s.names source).program.statements
      (readSource s.names source).names s.machine = .fault (.output q.output.refusal span) m)
    (hprints : Eval.Prints (readSource s.names source).names n
      (readSource s.names source).program.statements s.machine e span v q)
    (hfreed : Eval.Prints (readSource s.names source).names n
      (readSource s.names source).program.statements s.machine.freed e span v q.freed)
    (hwrite : q.output.writeAll (q.store.pieces v ++ ["\n"]) = (false, m.output)) :
    s.CutShort n source t e span v q := by
  have hended := run_ended h hrun
  have hadds :=
    (Eval.tracks_executeProgram n (readSource s.names source).program.statements).adds _ s.machine m
      (by rw [hfault]; rfl)
  rw [hfault] at hended
  obtain ⟨⟨all, hall, hpart⟩, hmore, hclosed⟩ := Output.writeAll_refused hwrite
  have hsink : t.sink =
      s.sink.reportRuntime (RuntimeError.output s.machine.output.refusal span).diagnostic := by
    rw [← hadds.refusal, hmore.refusal]
    cases hended with
    | fault _ _ hsink => exact hsink
  obtain ⟨m', hm', houtput⟩ := hended.output
  cases hm'
  rw [← houtput] at hwrite hpart hclosed
  have hknown :=
    hprints.allows (CodeForm.written_known s.machine.store (readSource s.names source).program)
      fun top htop => CodeForm.known_everywhere fun stmt hstmt => .inl ⟨top, htop, hstmt⟩
  refine ⟨h, hprints, hfreed, hwrite, hclosed, hsink, ?_, fun output hsteps => ?_,
    ⟨all, hall, hpart⟩, fun k u hu => ?_⟩
  · rcases hknown _ rfl with ⟨top, htop, hin⟩ | hstored
    · have hplaced := (readSource_placed s.names source).1 top htop _ hin
      exact .inl ⟨⟨top, htop, hin⟩, Stmt.Sited.located hplaced.1⟩
    · exact .inr hstored
  · have hwritten := (ofTexts_of_parsedSteps CodeForm.coversTexts_placed hsteps).2
    obtain ⟨names, text, hplaced⟩ := hprints.allows hwritten fun top htop =>
      CodeForm.coversTexts_placed.program htop
    exact ⟨names, text, hplaced.located_stmt⟩
  · obtain ⟨m', hm', houtput'⟩ := (run_ended (s := s.freed) h hu).output
    rw [houtput, houtput']
    exact Eval.continues_of_refused hfault rfl k m' hm'

theorem interpret_of_ok (h : Eval.executeProgram n p.statements s.names s.machine = .ok () m) :
    s.interpret n p = some (s.resume m) := by
  unfold interpret perform
  rw [h]
  rfl

theorem interpret_of_fault (h : Eval.executeProgram n p.statements s.names s.machine = .fault e m) :
    s.interpret n p = some (((s.resume m).tell
      [⟨.debug, .evaluator, "runtime error: " ++ e.message⟩]).reportRuntime e) := by
  unfold interpret perform
  rw [h]
  rfl

/-- **A broken output only truncates.** A run on an output with limits that ends either is the run
without limits, with nothing refused, or it was cut short at the `print` statement whose text was
refused. -/
theorem broken_output_only_truncates (n : Nat) (s : Session) (source : String) (t : Session)
    (h : s.run n source = some t) :
    (s.freed.run n source = some t.freed ∧ s.ReportsNoOutput t) ∨
      ∃ e span v q, s.CutShort n source t e span v q := by
  by_cases hsound : (readSource s.names source).diagnostics = []
  · have hlimited := run_eq_interpret s hsound n
    have hfree : s.freed.run n source = (s.read source).2.freed.interpret n _ :=
      run_eq_interpret s.freed hsound n
    have hsink := read_sink s hsound
    have htracked :=
      (Eval.tracks_executeProgram n (readSource s.names source).program.statements).tracked
        (readSource s.names source).names s.machine
    generalize hout : Eval.executeProgram n _ _ s.machine = o at htracked
    generalize hout' : Eval.executeProgram n _ _ s.machine.freed = o' at htracked
    cases htracked with
    | @ok u m =>
      rw [hlimited, interpret_of_ok (s := (s.read source).2) hout] at h
      obtain rfl := Option.some.inj h
      refine .inl ⟨hfree.trans (interpret_of_ok (s := (s.read source).2.freed) hout'), [], ?_,
        by simp⟩
      exact (congrArg (fun sink => sink.diagnostics.toList) hsink).trans (List.append_nil _).symm
    | @fault e m he =>
      rw [hlimited, interpret_of_fault (s := (s.read source).2) hout] at h
      obtain rfl := Option.some.inj h
      refine .inl ⟨hfree.trans (interpret_of_fault (s := (s.read source).2.freed) hout'),
        [e.diagnostic], ?_, ?_⟩
      · have hpush :=
          congrArg (fun sink => (sink.reportRuntime e.diagnostic).diagnostics.toList) hsink
        exact hpush.trans (Array.toList_push ..)
      · intro d hd hcode
        rw [List.mem_singleton.mp hd] at hcode
        have houtput := (RuntimeError.code_eq_output_iff e).mp (Option.some.inj hcode)
        exact absurd houtput (Bool.eq_false_iff.mp he)
    | refused hnext hnext' hrefused _ =>
      obtain ⟨e, span, v, q, hprints, hprints', hwrite, rfl⟩ := hrefused.prints hnext hnext'
      exact .inr ⟨e, span, v, q, cutShort_of_refused hsound h hout hprints hprints' hwrite⟩
    | exhausted =>
      rw [hlimited] at h
      exact absurd hout (interpret_ended h).ne_exhausted
  · exact .inl (freed_run_faulty hsound h)

/-- A loop that never stops printing ends where a write is refused, here inside of the first
character of its second line, and with the message of its output. -/
theorem endless_loop_is_cut_short : ∃ t e span v q,
    (opened { room := some 4, refusal := "disk full" }).run 20 "loop \x7b print \"é\"; \x7d" =
      some t ∧ t.machine.output.text = "é\n" ∧ t.machine.output.torn = [0xc3] ∧
      (opened { room := some 4, refusal := "disk full" }).CutShort 20 "loop \x7b print \"é\"; \x7d"
        t e span v q := by
  have hrun : ((opened { room := some 4, refusal := "disk full" }).run 20
      "loop \x7b print \"é\"; \x7d").any
      (fun t => t.machine.output.text == "é\n" && t.machine.output.torn == [0xc3] &&
        t.sink.diagnostics.toList.map (·.code) == [some "E0313"]) = true := by
    decide +kernel
  rw [Option.any_eq_true] at hrun
  obtain ⟨t, ht, hends⟩ := hrun
  rw [Bool.and_eq_true, Bool.and_eq_true, beq_iff_eq, beq_iff_eq, beq_iff_eq] at hends
  rcases broken_output_only_truncates _ _ _ t ht with ⟨-, new, hnew, hother⟩ | ⟨e, span, v, q, hcut⟩
  · obtain rfl : t.sink.diagnostics.toList = new := hnew
    rcases List.map_eq_singleton_iff.mp hends.2 with ⟨d, hd, hcode⟩
    exact absurd hcode (hother d (by rw [hd]; exact List.mem_singleton_self d))
  · exact ⟨t, e, span, v, q, ht, hends.1.1, hends.1.2, hcut⟩

/-- A number is written in pieces, and the point is a piece of its own. -/
example :
    ((opened { writes := some 1 }).run 9 "print 1.5;").map (·.machine.output.text) = some "1" := by
  decide +kernel

end Session

end TreeWalk
