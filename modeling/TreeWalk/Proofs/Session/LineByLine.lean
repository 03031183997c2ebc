import TreeWalk.Proofs.JoinedText
import TreeWalk.Proofs.Session.Entered
import TreeWalk.Proofs.Session.SameRuns

/-!
# Line by line and all at once

Two texts that are run one after the other do what the text made of both does, with a line break
between them, if the first one raises no error and nothing of the second can belong to its last
statement. While the first text runs, the longer table of names makes no difference, since all names
in the code have been entered before. While the second one runs, its code stands at other places,
and these show in the places of errors only.
-/

namespace TreeWalk

/-! ## Programs one behind the other -/

theorem Eval.executeProgram_append (n : Nat) (ss ts : List Stmt) :
    executeProgram n (ss ++ ts) = executeProgram n ss >>= fun _ => executeProgram n ts := by
  induction ss with
  | nil => rfl
  | cons s ss ih =>
    rw [List.cons_append, executeProgram, executeProgram, bind_assoc]
    congr 1
    funext flow
    cases flow with
    | normal => exact ih
    | returned v span => rfl

namespace Session

variable {s t : Session} {Q : Span → Prop}

theorem run_ok (hsound : (readSource s.names source).diagnostics = [])
    (hrun : s.run n source = some t) (hsink : t.sink = s.sink) :
    ∃ m, Eval.executeProgram n (readSource s.names source).program.statements
      (readSource s.names source).names
        s.machine = .ok () m ∧ t.machine = { m with events := #[] } := by
  have hended := run_ended hsound hrun
  generalize Eval.executeProgram n _ _ _ = o at hended
  cases hended with
  | ok _ hmachine => exact ⟨_, rfl, hmachine⟩
  | fault _ _ hreport =>
    have hsize := congrArg (·.diagnostics.size) (hreport.symm.trans hsink)
    simp [Sink.reportRuntime, Sink.push] at hsize

/-! ## Two texts and one -/

/-- A text that raises no error ends in the same state if more names have been entered, unless it is
stopped before. -/
theorem rerun {names : Interner} {s s₁ : Session} (hs : s.Entered Q)
    (hfirst : (readSource s.names first).diagnostics = [])
    (hrun : s.run k first = some s₁) (hsink : s₁.sink = s.sink) (hextends : s₁.names.Extends names)
    (hlong : k ≤ n ∨ Eval.executeProgram n (readSource s.names first).program.statements names
        s.machine ≠ .exhausted) :
    ∃ m, Eval.executeProgram n (readSource s.names first).program.statements names
      s.machine = .ok () m ∧ s₁.machine.Linked
      (.entered s₁.names fun a b => (Q a ∨ (readSource s.names first).Place a) ∧ b = a) m := by
  have hnames : s₁.names = (readSource s.names first).names := run_names hrun
  have hgrown : s.names.Extends s₁.names := hnames ▸ readSource_extends s.names first
  obtain ⟨m, hm, hmachine⟩ := run_ok hfirst hrun hsink
  let K := Lockstep.entered s₁.names names
    (fun a b => (Q a ∨ (readSource s.names first).Place a) ∧ b = a) k n
    (hs.initial.trans hgrown) hextends
  have hown : List.Forall₂ (Stmt.Linked K.toLink) (readSource s.names first).program.statements
      (readSource s.names first).program.statements :=
    Stmt.Linked.monoAll (Link.entered_within (hnames ▸ .refl _) fun _ _ hab => ⟨.inr hab.1, hab.2⟩)
      (Parser.program_entered hfirst)
  have hstore : s.machine.store.Linked K.toLink s.machine.store :=
    hs.store.mono (Link.entered_within hgrown fun _ _ hab => ⟨.inl hab.1, hab.2⟩)
  have ho : Outcome.Linked K Eq
      (Eval.executeProgram k (readSource s.names first).program.statements s₁.names s.machine)
      (Eval.executeProgram n (readSource s.names first).program.statements names s.machine) :=
    K.executeProgram k n id id hown s.machine s.machine ⟨hstore, rfl, rfl⟩
  rw [hnames, hm] at ho
  generalize Eval.executeProgram n _ names s.machine = o at ho hlong
  cases ho with
  | ok _ hend =>
    refine ⟨_, rfl, ?_⟩
    rw [hmachine]
    exact ⟨hend.store, hend.current, hend.output⟩
  | right hshort => exact absurd hshort (Nat.not_lt.mpr (hlong.resolve_right fun h => h rfl))

section

variable {s s₁ : Session} {p q : Program} (hs : s.Entered Q)
  (hfirst : (readSource s.names first).diagnostics = [])
  (hrun : s.run k first = some s₁) (hsink : s₁.sink = s.sink)
  (hnames : (readSource s.names whole).names = (readSource s₁.names second).names)
  (hstatements : (readSource s.names whole).program.statements =
    (readSource s.names first).program.statements ++ p.statements)
  (hcode : q.Linked (.entered (readSource s₁.names second).names R) p)
  (hsame : ∀ a, Q a ∨ (readSource s.names first).Place a → R a a)
include hs hfirst hrun hsink hnames hstatements hcode hsame

/-- A program run behind the first text ends as the text that goes on with a program linked to it,
unless that is stopped within the first text. -/
theorem lines_outcome
    (hlong : k ≤ n' ∨ Eval.executeProgram n' (readSource s.names whole).program.statements
      (readSource s.names whole).names s.machine ≠ .exhausted) (n : Nat) :
    ∃ K : Lockstep, K.toLink = .entered (readSource s₁.names second).names R ∧
      K.leftShort = (n < n') ∧ K.rightShort = (n' < n) ∧
      Outcome.Linked K Eq
        (Eval.executeProgram n q.statements (readSource s₁.names second).names s₁.machine)
        (Eval.executeProgram n' (readSource s.names whole).program.statements
          (readSource s.names whole).names
          s.machine) := by
  have hgrown : s.names.Extends s₁.names := run_names hrun ▸ readSource_extends s.names first
  have hextends : s₁.names.Extends (readSource s₁.names second).names :=
    readSource_extends s₁.names second
  rw [hnames, hstatements, Eval.executeProgram_append] at hlong ⊢
  have hlong : k ≤ n' ∨ Eval.executeProgram n' (readSource s.names first).program.statements
      (readSource s₁.names second).names s.machine ≠ .exhausted :=
    hlong.imp id fun hend hfirstEnd => hend (by simp only [bind, hfirstEnd])
  obtain ⟨m, hm, hmachine⟩ := rerun hs hfirst hrun hsink hextends hlong
  let K :=
    Lockstep.entered (readSource s₁.names second).names (readSource s₁.names second).names R n n'
      ((hs.initial.trans hgrown).trans hextends) (.refl _)
  have hstore : s₁.machine.store.Linked K.toLink m.store := by
    refine hmachine.store.mono (Link.entered_within hextends ?_)
    rintro a _ ⟨ha, rfl⟩
    exact hsame _ ha
  have hboth : (Eval.executeProgram n' (readSource s.names first).program.statements >>= fun _ =>
      Eval.executeProgram n' p.statements) (readSource s₁.names second).names s.machine =
      Eval.executeProgram n' p.statements (readSource s₁.names second).names m := by
    simp only [bind, hm]
  rw [hboth]
  exact ⟨K, rfl, rfl, rfl, K.executeProgram n n' id id hcode s₁.machine m ⟨hstore, hmachine.current,
    hmachine.output⟩⟩

theorem lines_sameRuns (hsecond : (readSource s₁.names second).diagnostics = [])
    (hwhole : (readSource s.names whole).diagnostics = []) :
    SameRuns R s.sink ((s₁.read second).2.Interprets q) (s.Runs whole) where
  ends := by
    constructor
    · rintro ⟨t, n, hnext⟩
      obtain ⟨K, -, -, hshort, ho⟩ :=
        lines_outcome hs hfirst hrun hsink hnames hstatements hcode hsame
          (.inl (Nat.le_max_left k n)) n
      have hfuel : ¬ K.rightShort := by
        rw [hshort]
        exact Nat.not_lt.mpr (Nat.le_max_right k n)
      obtain ⟨u, hu⟩ :=
        exists_run hwhole (Lockstep.ends_right ho hfuel (interpret_ended hnext).ne_exhausted)
      exact ⟨u, max k n, hu⟩
    · rintro ⟨t, n, hboth⟩
      have hend := (run_ended hwhole hboth).ne_exhausted
      obtain ⟨K, -, hshort, -, ho⟩ :=
        lines_outcome hs hfirst hrun hsink hnames hstatements hcode hsame (.inr hend) n
      have hfuel : ¬ K.leftShort := by
        rw [hshort]
        exact Nat.lt_irrefl n
      obtain ⟨u, hu⟩ :=
        exists_interpret (s := (s₁.read second).2) (Lockstep.ends_left ho hfuel hend)
      exact ⟨u, n, hu⟩
  same := by
    rintro t t' ⟨n, hnext⟩ ⟨n', hboth⟩
    have hended := interpret_ended hnext
    have hended' := run_ended hwhole hboth
    obtain ⟨K, hlink, -, -, ho⟩ := lines_outcome hs hfirst hrun hsink hnames hstatements hcode hsame
      (.inr hended'.ne_exhausted) n
    rw [read_sink s₁ hsecond, hsink] at hended
    rw [hnames] at hended' ho
    exact .of_ended hlink (fun _ hx => ⟨rfl, hx⟩) ho hended hended'

end

/-- Where the places of a run of `second` behind `first` are found in a run of both: places of older
code, which satisfy `Q`, and of `first` are the same, and places of `second` are moved. -/
def Moved (Q : Span → Prop) (s s₁ : Session) (first second : String) (a b : Span) : Prop :=
  (Q a ∨ (readSource s.names first).Place a) ∧ b = a ∨ (readSource s₁.names second).Place a ∧
    b = a.behind first

end Session

/-- Two texts do the same line by line and all at once, in every session whose names have been
entered, as they are behind any proper steps of a host (`Session.entered_of_properSteps`). Let the
first text raise no error, and let it end with `;` or the second one start with a word that starts a
declaration. Then the second one, run behind the first, ends if and only if the text of both does,
with a line break between them. At the end the output and the table of names are the same, the same
globals are bound, to values that print the same, and either no error is raised or errors with the
same code and message. Places of the second text are further on by the first text and the line
break, and all others are the same: with its places moved, the program of the second text raises the
very errors of the text of both. -/
theorem lines_run_as_one_text (s s₁ : Session) (Q : Span → Prop) (first second : String)
    (hs : s.Entered Q) (hfirst : (readSource s.names first).diagnostics = [])
    (hsecond : (readSource s₁.names second).diagnostics = [])
    (hapart : (readSource s.names first).ApartFrom (readSource s₁.names second))
    (hrun : s.Runs first s₁) (hsink : s₁.sink = s.sink) :
    Session.SameRuns (Session.Moved Q s s₁ first second) s.sink (s₁.Runs second)
      (s.Runs (first ++ "\n" ++ second)) ∧
      ∃ p, (readSource s₁.names second).program.Linked (.moved (·.behind first)) p ∧
        Session.SameRuns Eq s.sink ((s₁.read second).2.Interprets p)
          (s.Runs (first ++ "\n" ++ second)) := by
  obtain ⟨k, hrun⟩ := hrun
  have hread : s₁.names = (readSource s.names first).names := Session.run_names hrun
  obtain ⟨hwhole, hnames, p, hstatements, hlinked⟩ :=
    readSource_lines hfirst (hread ▸ hsecond) (hread ▸ hapart)
  rw [← hread] at hnames hlinked
  have hself : p.Linked (.entered (readSource s₁.names second).names Eq) p := by
    have hown := Parser.program_entered hwhole
    rw [hnames, Program.Linked, List.forall₂_same, hstatements] at hown
    refine List.forall₂_same.mpr fun stmt hstmt => ?_
    exact (hown stmt (List.mem_append_right _ hstmt)).mono
      (Link.entered_within (.refl _) fun _ _ hab => hab.2.symm)
  have hcode : (readSource s₁.names second).program.Linked
      (.entered (readSource s₁.names second).names (Session.Moved Q s s₁ first second)) p :=
    Stmt.Linked.monoAll (Link.entered_within (.refl _) fun _ _ => .inr) hlinked
  constructor
  · have hruns := Session.lines_sameRuns hs hfirst hrun hsink hnames hstatements hcode
      (fun _ ha => .inl ⟨ha, rfl⟩)
      hsecond hwhole
    rwa [← Session.runs_eq_interprets hsecond] at hruns
  · refine ⟨p, Stmt.Linked.monoAll ⟨And.left, And.right⟩ hlinked, ?_⟩
    exact Session.lines_sameRuns hs hfirst hrun hsink hnames hstatements hself (fun _ _ => rfl)
      hsecond hwhole

/-- The second text calls a function of the first one, and then raises an error on its first line,
which is the third line of both. -/
theorem call_and_unbound_name_run_as_one_text :
    let s := Session.opened {}
    let first := "fn f(x) \x7b print x; \x7d\nvar a = 1;"
    let second := "f(a); print b;"
    s.Entered (fun _ => False) ∧ (readSource s.names first).diagnostics = [] ∧
      ∃ s₁ s₂, (readSource s₁.names second).diagnostics = [] ∧
        (readSource s.names first).ApartFrom (readSource s₁.names second) ∧
        s.Runs first s₁ ∧ s₁.sink = s.sink ∧
        s₁.Runs second s₂ ∧ s₂.sink.hadRuntimeError = true ∧
        Session.SameRuns (Session.Moved (fun _ => False) s s₁ first second) s.sink (s₁.Runs second)
          (s.Runs (first ++ "\n" ++ second)) ∧
        ∃ p, (readSource s₁.names second).program.Linked (.moved (·.behind first)) p ∧
          Session.SameRuns Eq s.sink ((s₁.read second).2.Interprets p)
            (s.Runs (first ++ "\n" ++ second)) := by
  intro s first second
  have hall : (readSource s.names first).diagnostics.isEmpty = true ∧
      ((readSource s.names first).scan.tokens.takeWhile (!·.isEof)).getLast?.map Token.kind =
        some (.punct .semicolon) ∧
      ((s.run 9 first).any fun s₁ => (readSource s₁.names second).diagnostics.isEmpty &&
        !s₁.sink.hadRuntimeError &&
        (s₁.run 9 second).any fun s₂ => s₂.sink.hadRuntimeError) = true := by
    decide +kernel
  obtain ⟨hfirst, hlast, hruns⟩ := hall
  rw [List.isEmpty_iff] at hfirst
  obtain ⟨s₁, hrun, hruns⟩ := (Option.any_eq_true _ _).mp hruns
  simp only [Bool.and_eq_true, List.isEmpty_iff, Bool.not_eq_true'] at hruns
  obtain ⟨⟨hsecond, hnone⟩, hruns⟩ := hruns
  obtain ⟨s₂, hnext, herror⟩ := (Option.any_eq_true _ _).mp hruns
  have hs : s.Entered fun _ => False := Session.entered_opened {}
  have hsink : s₁.sink = s.sink := (Session.run_ended hfirst hrun).sink_eq hnone
  exact ⟨hs, hfirst, s₁, s₂, hsecond, .inl hlast, ⟨9, hrun⟩, hsink, ⟨9, hnext⟩, herror,
    lines_run_as_one_text s s₁ _ first second hs hfirst hsecond (.inl hlast) ⟨9, hrun⟩ hsink⟩

end TreeWalk
