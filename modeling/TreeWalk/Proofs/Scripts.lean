import TreeWalk.Proofs.Console
import TreeWalk.Proofs.Session.Endings

/-!
# Scripts and their exits

A script is run in a new session. Its exit says whether something was wrong with its text, whether
it failed, or neither of these (`Console.ScriptEnds`).
-/

namespace TreeWalk

/-! ## The log -/

/-- The record tells of nothing that a user should be warned of. -/
def Log.Record.Minor (r : Record) : Prop :=
  Level.warn.less r.level = true

theorem Log.Logger.lines_append (l : Logger) (rs rs' : List Record) :
    l.lines (rs ++ rs') = l.lines rs ++ l.lines rs' := by
  simp [lines, String.join_append]

theorem SourceRead.minor_of_mem_log {r : SourceRead} (h : record ∈ r.log) : record.Minor := by
  have hparser : ∀ note : Parser.Note, note.record.Minor := by
    intro note
    cases note <;> rfl
  simp only [log, Scan.log, Parsed.log, List.mem_append, List.mem_map, List.mem_singleton] at h
  rcases h with (((⟨e, -, rfl⟩ | rfl) | ⟨e, -, rfl⟩) | (⟨note, -, rfl⟩ | rfl)) | ⟨e, -, rfl⟩
  · rfl
  · rfl
  · rfl
  · exact hparser note
  · rfl
  · rfl

namespace Session

/-- All records of the log are minor. -/
def Discreet (s : Session) : Prop :=
  ∀ r ∈ s.log.toList, r.Minor

variable {s t : Session} {source : String}

theorem Discreet.tell (h : s.Discreet) (hrecords : ∀ r ∈ records, r.Minor) :
    (s.tell records).Discreet := by
  intro r hr
  simp only [Session.tell, Array.toList_appendList, List.mem_append] at hr
  rcases hr with hr | hr
  · exact h r hr
  · exact hrecords r hr

theorem Discreet.read (h : s.Discreet) (source : String) : (s.read source).2.Discreet :=
  h.tell fun _ hr => SourceRead.minor_of_mem_log hr

theorem Discreet.resume (h : s.Discreet) (m : Machine) : (s.resume m).Discreet := by
  apply h.tell
  intro r hr
  obtain ⟨event, -, rfl⟩ := List.mem_map.mp hr
  cases event <;> rfl

theorem Discreet.interpret (h : s.Discreet) (ht : s.interpret n p = some t) : t.Discreet := by
  unfold Session.interpret perform at ht
  generalize Eval.executeProgram n p.statements s.names s.machine = o at ht
  cases o with
  | ok u m => cases ht; exact h.resume m
  | fault e m =>
    cases ht
    have htold :
        ((s.resume m).tell [⟨.debug, .evaluator, "runtime error: " ++ e.message⟩]).Discreet :=
      (h.resume m).tell (List.forall_mem_singleton.mpr rfl)
    exact htold.tell (List.forall_mem_singleton.mpr rfl)
  | exhausted => cases ht

theorem Discreet.run (h : s.Discreet) (ht : s.run n source = some t) : t.Discreet := by
  by_cases hsound : (readSource s.names source).diagnostics = []
  · rw [run_eq_interpret s hsound] at ht
    exact (h.read source).interpret ht
  · have hfaulty : (readSource s.names source).hasErrors = true := by
      rw [← Bool.not_eq_false, SourceRead.hasErrors_eq_false]
      exact hsound
    obtain rfl := Option.some.inj ((if_pos hfaulty).symm.trans ht)
    exact (h.read source).tell (List.forall_mem_singleton.mpr rfl)

end Session

/-! ## Consoles -/

namespace Console

/-- From `c` to `c'` a text was printed, and behind minor log records some diagnostics about
`source` were shown. -/
structure Shows (c : Console) (source printed : String) (found : List Diagnostic)
    (c' : Console) : Prop where
  stdout : c'.stdout = c.stdout ++ printed
  stderr : ∃ records : List Log.Record, (∀ r ∈ records, r.Minor) ∧
    c'.stderr = c.stderr ++ c.logger.lines records ++ Diagnostic.renderAll c.colors source found

/-- From `c` to `c'` nothing was run. At most new names were entered. -/
structure Idle (c c' : Console) : Prop where
  machine : c'.session.machine = c.session.machine
  names : c.session.names.Extends c'.session.names

/-- How a script ends whose text is `source`. -/
inductive ScriptEnds (n : Nat) (c : Console) (source : String) : Option (Exit × Console) → Prop
  | declined : c.dump = none → (readSource c.session.names source).diagnostics ≠ [] → c.Idle c' →
      c.Shows source "" ((scan c.session.names source).errors.map ScanError.diagnostic ++
        (parse source (scan c.session.names source).tokens).errors.map ParseError.diagnostic) c' →
      ScriptEnds n c source (some (.badSyntax, c'))
  | completed : c.dump = none → (readSource c.session.names source).diagnostics = [] →
      Eval.Finishes (readSource c.session.names source).names n
        (readSource c.session.names source).program.statements
        c.session.machine m →
      c.Shows source m.output.text [] c' → ScriptEnds n c source (some (.success, c'))
  | failed : c.dump = none → (readSource c.session.names source).diagnostics = [] →
      Eval.Fails (readSource c.session.names source).names n
        (readSource c.session.names source).program.statements
        c.session.machine e m →
      -- Nothing that was printed before the error is lost.
      (∀ s p, Eval.InStmts (readSource c.session.names source).names n
        (readSource c.session.names source).program.statements c.session.machine s p →
          p.output.Continues m.output) →
      c.Shows source m.output.text [e.diagnostic] c' → ScriptEnds n c source (some (.failure, c'))
  | unfinished : c.dump = none → (readSource c.session.names source).diagnostics = [] →
      (∀ m, ¬ Eval.Finishes (readSource c.session.names source).names n
        (readSource c.session.names source).program.statements c.session.machine m) →
      (∀ e m, ¬ Eval.Fails (readSource c.session.names source).names n
        (readSource c.session.names source).program.statements c.session.machine e m) →
          ScriptEnds n c source none
  | dumped {x : Exit} : c.dump = some format → c.Idle c' →
      c.Shows source (dumpText (readSource c.session.names source).names
        (readSource c.session.names source).program format)
        ((scan c.session.names source).errors.map ScanError.diagnostic ++
          (parse source (scan c.session.names source).tokens).errors.map ParseError.diagnostic) c' →
      x = (if (readSource c.session.names source).diagnostics = [] then .success else .badSyntax) →
      ScriptEnds n c source (some (x, c'))

variable {c : Console} {s : Session} {source : String}

theorem shows_report (c : Console) (source : String) (hrecord : Log.Record.Minor record)
    (hs : s.Discreet) :
    c.Shows source s.machine.output.text s.sink.diagnostics.toList
      ({ c.writeLog [record] with session := s }.report source) where
  stdout := rfl
  stderr := by
    refine ⟨record :: s.log.toList, List.forall_mem_cons.mpr ⟨hrecord, hs⟩, ?_⟩
    have hlines := c.logger.lines_append [record] s.log.toList
    rw [List.singleton_append] at hlines
    rw [hlines, ← String.append_assoc]
    rfl

theorem exit_report (c : Console) (s : Session) (source : String) :
    ({ c with session := s }.report source).exit =
    if s.sink.hadSyntaxError then .badSyntax else if s.sink.hadRuntimeError then .failure
      else .success :=
  rfl

theorem idle_report (h : c.session = {}) (c₁ : Console) (source : String)
    (hmachine : s.machine = c.session.machine) (hnames : c.session.names.Extends s.names) :
    c.Idle ({ c₁ with session := s }.report source) where
  machine := by
    change { s.machine with output := s.machine.output.emptied } = c.session.machine
    rw [hmachine, h]
    rfl
  names := hnames

/-- A script that is run in a new session. -/
theorem ends_of_undumped (h : c.session = {}) (hdump : c.dump = none)
    (hrecord : Log.Record.Minor record) (n : Nat) (source : String) :
    c.ScriptEnds n source (((c.writeLog [record]).run n source).map fun c => (c.exit, c)) := by
  have hdiscreet : c.session.Discreet := by
    rw [h]
    exact fun r hr => absurd hr List.not_mem_nil
  have hsink : c.session.sink = {} := by rw [h]
  have hends := Session.run_ends n c.session source
  rw [run_of_undumped (c := c.writeLog [record]) hdump]
  change c.ScriptEnds n source (Option.map _ (Option.map _ (c.session.run n source)))
  cases hrun : c.session.run n source with
  | none =>
    rw [hrun] at hends
    cases hends with
    | unfinished hsound hfinishes hfails => exact .unfinished hdump hsound hfinishes hfails
  | some t =>
    have hshows := shows_report c source hrecord (hdiscreet.run hrun)
    simp only [Option.map_some, exit_report (c.writeLog [record]) t source]
    rw [hrun] at hends
    cases hends with
    | declined hfaulty ht =>
      rw [ht.noted, ht.machine, hsink] at hshows
      rw [ht.syntaxError]
      refine .declined hdump hfaulty (idle_report h _ source ht.machine ht.names) ?_
      rw [h] at hshows ⊢
      exact hshows
    | completed hsound hm ht hquiet =>
      rw [hquiet, ht.machine, hsink] at hshows
      rw [hquiet, hsink]
      exact .completed hdump hsound hm hshows
    | failed hsound hm ht hfault =>
      rw [hfault, ht.machine, hsink] at hshows
      rw [hfault, hsink]
      refine .failed hdump hsound hm (fun s p hin => ?_) hshows
      exact hin.continues (by rw [Eval.executeProgram_eq_fault_iff.mpr hm]; rfl)

theorem Shows.of_print (h : (c.print text).Shows source "" found c') :
    c.Shows source text found c' where
  stdout := by rw [h.stdout, String.append_empty]; rfl
  stderr := h.stderr

/-- What is in the sink when a text has been read in a new session. -/
theorem sink_read (h : c.session = {}) (source : String) :
    (c.session.read source).2.sink.diagnostics.toList =
      (readSource c.session.names source).diagnostics ∧
      (c.session.read source).2.sink.hadSyntaxError =
        !(readSource c.session.names source).diagnostics.isEmpty ∧
      (c.session.read source).2.sink.hadRuntimeError = false := by
  have hsink : c.session.sink = {} := by rw [h]
  obtain ⟨hnoted, hruntime⟩ :=
    Sink.reportSyntax_all c.session.sink (readSource c.session.names source).diagnostics
  have hwrong :=
    Sink.hadSyntaxError_foldl c.session.sink (readSource c.session.names source).diagnostics
  refine ⟨hnoted.trans ?_, hwrong.trans ?_, hruntime.trans ?_⟩
  · rw [hsink]
    exact List.nil_append _
  · rw [hsink]
    exact Bool.false_or _
  · rw [hsink]

/-- A script that is read in a new session and dumped. -/
theorem ends_of_dumped (h : c.session = {}) (hdump : c.dump = some format)
    (hrecord : Log.Record.Minor record) (n : Nat) (source : String) :
    c.ScriptEnds n source (((c.writeLog [record]).run n source).map fun c => (c.exit, c)) := by
  have hdiscreet : c.session.Discreet := by
    rw [h]
    exact fun r hr => absurd hr List.not_mem_nil
  obtain ⟨hfound, hwrong, hruntime⟩ := sink_read h source
  have hempty : (c.session.read source).2.machine.output.text = "" := by
    change c.session.machine.output.text = ""
    rw [h]
  obtain ⟨text, htext⟩ : ∃ text, text = dumpText (readSource c.session.names source).names
    (readSource c.session.names source).program format := ⟨_, rfl⟩
  -- Printing the program and writing the log record can change places.
  have hrun : (c.writeLog [record]).run n source =
      some ({ (c.print text).writeLog [record] with
        session := (c.session.read source).2 }.report source) := by
    rw [run_of_dumped (c := c.writeLog [record]) hdump, htext]
    rfl
  have hshows := shows_report (c.print text) source hrecord (hdiscreet.read source)
  rw [hempty, hfound] at hshows
  have hexit := exit_report ((c.print text).writeLog [record]) (c.session.read source).2 source
  have hidle :=
    idle_report h ((c.print text).writeLog [record]) source (s := (c.session.read source).2) rfl
      (Session.readSource_extends c.session.names source)
  rw [hrun]
  have hdumped := hshows.of_print
  subst htext
  refine .dumped hdump hidle hdumped (hexit.trans ?_)
  rw [hwrong, hruntime]
  cases (readSource c.session.names source).diagnostics with
  | nil => rfl
  | cons d ds => rfl

theorem runScript_ends (h : c.session = {}) (hsource : contents.bind decode = .ok source) (n : Nat)
    (path : String) :
    c.ScriptEnds n source (c.runScript n path contents) := by
  have hrecord : Log.Record.Minor ⟨.info, .program, "running " ++ path⟩ := rfl
  simp only [runScript, hsource]
  cases hdump : c.dump with
  | none => exact ends_of_undumped h hdump hrecord n source
  | some format => exact ends_of_dumped h hdump hrecord n source

/-! ## Exit codes -/

theorem ScriptEnds.code {x : Exit} (h : c.ScriptEnds n source (some (x, c'))) :
    (x.code = 65 ↔ (readSource c.session.names source).diagnostics ≠ []) ∧
    (x.code = 70 ↔ c.dump = none ∧ (readSource c.session.names source).diagnostics = [] ∧
      ∃ e m, Eval.Fails (readSource c.session.names source).names n
        (readSource c.session.names source).program.statements c.session.machine e m) ∧
    (x.code = 0 ↔ (readSource c.session.names source).diagnostics = [] ∧ (c.dump = none →
      ∃ m, Eval.Finishes (readSource c.session.names source).names n
        (readSource c.session.names source).program.statements c.session.machine m)) := by
  cases h with
  | declined hdump hfaulty => simp [Exit.code, hfaulty]
  | completed hdump hsound hm =>
    refine ⟨by simp [Exit.code, hsound],
      ⟨fun hcode => absurd hcode (by decide), fun hfailure => ?_⟩, ?_⟩
    · obtain ⟨-, -, e, m', hfails⟩ := hfailure
      exact absurd hfails hm.not_fails
    · exact ⟨fun _ => ⟨hsound, fun _ => ⟨_, hm⟩⟩, fun _ => rfl⟩
  | failed hdump hsound hm =>
    refine ⟨by simp [Exit.code, hsound], ⟨fun _ => ⟨hdump, hsound, _, _, hm⟩, fun _ => rfl⟩, ?_⟩
    refine ⟨fun hcode => absurd hcode (by decide), fun hsuccess => ?_⟩
    obtain ⟨m', hm'⟩ := hsuccess.2 hdump
    exact absurd hm hm'.not_fails
  | dumped hdump _ _ hx =>
    by_cases hsound : (readSource c.session.names source).diagnostics = []
    · simp [hx, Exit.code, hsound, hdump]
    · simp [hx, Exit.code, hsound, hdump]

end Console

/-- **Exits tell how scripts ended.** A script with something wrong in its text does nothing but
tell what that is, and exits with 65. All others exit with 70 exactly if they fail, behind all that
they printed, and with 0 if they come to their end. In any session, running and evaluating texts
decides in the same way whether to do anything, whatever was noted before. -/
theorem exits_tell_how_scripts_ended (n : Nat) (env : Surroundings) (o : Options) (path : String)
    (contents : Except ReadError (List UInt8)) (source : String)
    (h : contents.bind decode = .ok source) :
    (Console.start env o).ScriptEnds n source ((Console.start env o).runScript n path contents) ∧
    (∀ x c, (Console.start env o).runScript n path contents = some (x, c) →
      (x.code = 65 ↔ (readSource .initial source).diagnostics ≠ []) ∧
      (x.code = 70 ↔ o.dump = none ∧ (readSource .initial source).diagnostics = [] ∧
        ∃ e m, Eval.Fails (readSource .initial source).names n
          (readSource .initial source).program.statements {} e m) ∧
      (x.code = 0 ↔ (readSource .initial source).diagnostics = [] ∧ (o.dump = none →
        ∃ m, Eval.Finishes (readSource .initial source).names n
          (readSource .initial source).program.statements {} m))) ∧
    (∀ s text, Session.RunEnds n s text (s.run n text)) ∧
    ∀ s text, Session.EvaluationEnds n s text (s.evaluate n text) := by
  obtain ⟨hsession, hdump, -⟩ := Console.start_frame env o
  have hnames : (Console.start env o).session.names = .initial := by rw [hsession]
  have hmachine : (Console.start env o).session.machine = {} := by rw [hsession]
  have hends := Console.runScript_ends hsession h n path
  refine ⟨hends, fun x c hx => ?_, Session.run_ends n, Session.evaluate_ends n⟩
  rw [hx] at hends
  have hcode := hends.code
  rw [hnames, hmachine, hdump] at hcode
  exact hcode

/-- A script that prints a line and then fails. -/
theorem script_fails_behind_its_output : ∃ c e m,
    (Console.start {} {}).runScript 20 "calls.wox" (.ok "print 7; nil(); print 8;".toUTF8.toList) =
      some (.failure, c) ∧ c.stdout = "7\n" ∧
      Eval.Fails (readSource .initial "print 7; nil(); print 8;").names 20
        (readSource .initial "print 7; nil(); print 8;").program.statements {} e m := by
  have hrun : ((Console.start {} {}).runScript 20 "calls.wox"
      (.ok "print 7; nil(); print 8;".toUTF8.toList)).any
      (fun r => r.1 == .failure && r.2.stdout == "7\n") = true := by
    decide +kernel
  rw [Option.any_eq_true] at hrun
  obtain ⟨⟨x, c⟩, hrun, hends⟩ := hrun
  rw [Bool.and_eq_true, beq_iff_eq, beq_iff_eq] at hends
  obtain ⟨rfl, hprinted⟩ := hends
  obtain ⟨-, hcodes, -⟩ :=
    exits_tell_how_scripts_ended 20 {} {} "calls.wox" _ "print 7; nil(); print 8;"
      (show (Except.ok "print 7; nil(); print 8;".toUTF8.toList).bind decode = _ by decide +kernel)
  obtain ⟨-, -, e, m, hfails⟩ := (hcodes .failure c hrun).2.1.mp rfl
  exact ⟨c, e, m, hrun, hprinted, hfails⟩

end TreeWalk
