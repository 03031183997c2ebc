import TreeWalk.Proofs.CanonicalNames
import TreeWalk.Proofs.Eval.Scope
import TreeWalk.Proofs.Session.SameRuns

/-!
# Running canonical text

The canonical text of a program does what its source does, in every session. Both are read as one
program but for places, and leave the same table of names. Code that differs in places alone runs in
lockstep, whatever code is in the store, and a place shows nowhere but in an error. So each of the
two runs is the same as that of the program without any places.
-/

namespace TreeWalk

/-- Two runs with one table of names, on code that differs in places alone. -/
def Lockstep.anywhere (names : Interner) (n n' : Nat) : Lockstep where
  toLink := .anywhere
  left := names
  right := names
  leftShort := n < n'
  rightShort := n' < n
  text := by
    rintro x _ rfl
    rfl
  oneToOne := by
    rintro x _ x' _ rfl rfl
    rfl
  this := rfl
  super := rfl
  init := rfl

theorem Link.bare_within : Link.bare.Within .anywhere :=
  ⟨id, fun _ => trivial⟩

/-- A program that was read, and the same without its places. -/
theorem Parser.program_bare (h : (readSource names source).diagnostics = []) :
    (readSource names source).program.Linked .anywhere (readSource names source).program.bare := by
  let cx := Context.ofTokens source (scan names source).tokens
  have halike := (Alike.programBody (P := .bare cx)).quiet (Nat.lt_succ_self _)
    (linked_map_bare (Scan.words names source))
  change Option.Rel _ (programBody.quiet cx _) _ at halike
  rw [quiet_programBody_scan h] at halike
  generalize programBody.quiet _ _ = o at halike
  cases halike with
  | some hlinked =>
    rw [← hlinked.1.eq_bare]
    exact Stmt.Linked.monoAll Link.bare_within hlinked.1

namespace Session

variable {s s' : Session} {p q : Program}

/-- Programs that differ in places alone run alike from states with the same names and the same
store. -/
theorem SameRuns.of_code (hnames : s'.names = s.names) (hmachine : s'.machine = s.machine)
    (hsink : s'.sink = s.sink) (hcode : p.Linked .anywhere q) :
    SameRuns (fun _ _ => True) s.sink (s.Interprets p) (s'.Interprets q) := by
  have houtcome : ∀ n n', Outcome.Linked (.anywhere s.names n n') Eq
      (Eval.executeProgram n p.statements s.names s.machine)
      (Eval.executeProgram n' q.statements s'.names s'.machine) := by
    intro n n'
    rw [hnames, hmachine]
    exact (Lockstep.anywhere s.names n n').executeProgram n n' id id hcode s.machine s.machine
      ⟨.self Link.reflexive_anywhere _, rfl, rfl⟩
  refine ⟨⟨?_, ?_⟩, ?_⟩
  · rintro ⟨t, n, ht⟩
    obtain ⟨t', ht'⟩ := exists_interpret
      (Lockstep.ends_right (houtcome n n) (Nat.lt_irrefl n) (interpret_ended ht).ne_exhausted)
    exact ⟨t', n, ht'⟩
  · rintro ⟨t', n, ht'⟩
    obtain ⟨t, ht⟩ := exists_interpret
      (Lockstep.ends_left (houtcome n n) (Nat.lt_irrefl n) (interpret_ended ht').ne_exhausted)
    exact ⟨t, n, ht⟩
  · rintro t t' ⟨n, ht⟩ ⟨n', ht'⟩
    have hended' := interpret_ended ht'
    rw [hsink, hnames] at hended'
    have ho := houtcome n n'
    rw [hnames] at ho
    exact .of_ended rfl (fun _ _ => rfl) ho (interpret_ended ht) hended'

/-- A text that is read without errors runs as its program does without its places. -/
theorem SameRuns.bare (h : (readSource s.names source).diagnostics = []) :
    SameRuns (fun _ _ => True) s.sink (s.Runs source)
      ({ s with names := (readSource s.names source).names }.Interprets
          (readSource s.names source).program.bare) := by
  have hsame : SameRuns _ _ ((s.read source).2.Interprets (readSource s.names source).program)
      ({ s with names := (readSource s.names source).names }.Interprets
          (readSource s.names source).program.bare) :=
    of_code rfl rfl (s.read_sink h).symm (Parser.program_bare h)
  rw [s.read_sink h, ← runs_eq_interprets h] at hsame
  exact hsame

end Session

/-- A text and the canonical text of its program do the same in every session, if the text is read
without errors and all numbers in it are finite: one comes to an end if and only if the other does.
At the end the output and the table of names are the same, the same globals are bound, to values
that print the same, and either no error is raised or errors with the same code and message, at
whatever places. Any blanks will do as the indent. Symbols are 32-bit words, so that there can be no
more than `Symbol.bound` names to tell apart. -/
theorem canonical_text_runs_alike (s : Session) (source indent : String)
    (hdiagnostics : (readSource s.names source).diagnostics = [])
    (hfinite : ∀ t ∈ (readSource s.names source).scan.tokens, t.kind.isFinite = true)
    (hindent : Layout.Blank indent)
    (hsize : (readSource s.names source).names.size ≤ Symbol.bound) :
    let r := readSource s.names source
    Session.SameRuns (fun _ _ => True) s.sink (s.Runs source)
      (s.Runs (r.program.text r.names indent)) := by
  intro r
  obtain ⟨hagain, hprogram, hnames⟩ := readSource_canonical hdiagnostics hfinite hsize hindent
  have htext := Session.SameRuns.bare hagain
  rw [hprogram, hnames] at htext
  exact (Session.SameRuns.bare hdiagnostics).trans (fun _ _ _ _ _ => trivial)
    (htext.symm fun _ _ _ => trivial)

/-- A function that the session has is called with unit, which is written `nil` in canonical text,
and then a name is not found. -/
theorem call_with_unit_runs_alike :
    let source := "var a=();f(a)print b"
    ∃ s t, (Session.opened {}).Runs "fn f(x) \x7b print x; \x7d" s ∧
      let r := readSource s.names source
      r.diagnostics = [] ∧ (∀ t ∈ r.scan.tokens, t.kind.isFinite = true) ∧
        Layout.Blank Layout.defaultIndent ∧ r.names.size ≤ Symbol.bound ∧ s.Runs source t ∧
        t.sink.hadRuntimeError = true ∧
        Session.SameRuns (fun _ _ => True) s.sink (s.Runs source)
          (s.Runs (r.program.text r.names Layout.defaultIndent)) := by
  intro source
  have hall : (((Session.opened {}).run 9 "fn f(x) \x7b print x; \x7d").any fun s =>
      (readSource s.names source).diagnostics.isEmpty &&
      (readSource s.names source).scan.tokens.all (fun t => t.kind.isFinite) &&
      (readSource s.names source).names.size ≤ Symbol.bound &&
      (s.run 9 source).any fun t => t.sink.hadRuntimeError) = true := by
    decide +kernel
  obtain ⟨s, hs, hall⟩ := (Option.any_eq_true _ _).mp hall
  simp only [Bool.and_eq_true, List.isEmpty_iff, List.all_eq_true, decide_eq_true_eq] at hall
  obtain ⟨⟨⟨hdiagnostics, hfinite⟩, hsize⟩, hrun⟩ := hall
  obtain ⟨t, ht, herror⟩ := (Option.any_eq_true _ _).mp hrun
  have hindent : Layout.Blank Layout.defaultIndent := by
    simp [Layout.Blank, Layout.defaultIndent, Lexeme.isBlank]
  exact ⟨s, t, ⟨9, hs⟩, hdiagnostics, hfinite, hindent, hsize, ⟨9, ht⟩, herror,
    canonical_text_runs_alike s source Layout.defaultIndent hdiagnostics hfinite hindent hsize⟩

end TreeWalk
