import TreeWalk.Proofs.Eval.Lockstep
import TreeWalk.Proofs.Eval.Scope
import TreeWalk.Proofs.Renaming
import TreeWalk.Proofs.Session.Runs

/-!
# A faulty line is transparent

Whoever types a line with a mistake in it can go on as if it had not been typed. Its names are
entered all the same, so from then on new names get other symbols than they would have got. The two
sessions are compared by a link between symbols of the same text: their stores correspond, and what
is shown does not depend on the numbers.
-/

namespace TreeWalk

/-! ## Sizes of tables -/

namespace Interner

/-- The table after reading one text after the other. -/
def afterReading (names : Interner) (texts : List String) : Interner :=
  texts.foldl (fun names text => (readSource names text).names) names

theorem afterReading_append (names : Interner) (before after : List String) :
    names.afterReading (before ++ after) = (names.afterReading before).afterReading after :=
  List.foldl_append

theorem size_le_afterReading (names : Interner) (texts : List String) :
    names.size ≤ (names.afterReading texts).size := by
  induction texts generalizing names with
  | nil => exact Nat.le_refl _
  | cons text texts ih =>
    exact Nat.le_trans (Scan.size_le_ofLexemes names _) (ih (readSource names text).names)

end Interner

namespace Lockstep

/-- Runs with two tables that both started out as every session's table does. -/
def common (names names' : Interner) (n n' : Nat) (hsize : names.size ≤ Symbol.bound)
    (hsize' : names'.size ≤ Symbol.bound) (h : Interner.initial.Within names)
    (h' : Interner.initial.Within names') : Lockstep where
  toLink := .common names names'
  left := names
  right := names'
  leftShort := n < n'
  rightShort := n' < n
  text := fun ⟨_, hx, hy⟩ =>
    (Interner.resolve?_of_get? hx hsize).trans (Interner.resolve?_of_get? hy hsize').symm
  oneToOne := Interner.common_oneToOne hsize hsize'
  this := ⟨"this", h (by decide +kernel), h' (by decide +kernel)⟩
  super := ⟨"super", h (by decide +kernel), h' (by decide +kernel)⟩
  init := ⟨"init", h (by decide +kernel), h' (by decide +kernel)⟩

end Lockstep

theorem RuntimeError.Linked.diagnostic_eq (h : RuntimeError.Linked (.common names names') e e') :
    e.diagnostic = e'.diagnostic := by
  have hspan : e.span = e'.span := h.span
  simp only [diagnostic, h.code, h.message, h.suggestion, hspan]

/-! ## Names that are bound in one of two stores -/

section

variable {L : Link} {S : Store}

theorem Bindings.get?_eq_none {b : Bindings Value} (h : ∀ p ∈ b.entries, p.1 ≠ x) :
    b.get? x = none := by
  obtain ⟨ps⟩ := b
  change Bindings.valueIn? x ps = none
  induction ps with
  | nil => rfl
  | cons p ps ih =>
    obtain ⟨hp, hps⟩ := List.forall_mem_cons.mp h
    rw [Bindings.valueIn?, if_neg hp, ih hps]

/-- All names in linked bindings are linked. -/
theorem forall₂_sym {ps qs : List (Symbol × Value)}
    (h : List.Forall₂ (fun p q => L.sym p.1 q.1 ∧ p.2 = q.2) ps qs) :
    (∀ p ∈ ps, ∃ y, L.sym p.1 y) ∧ ∀ q ∈ qs, ∃ x, L.sym x q.1 := by
  induction h with
  | nil => exact ⟨fun _ h => absurd h List.not_mem_nil, fun _ h => absurd h List.not_mem_nil⟩
  | cons hpq _ ih =>
    exact ⟨List.forall_mem_cons.mpr ⟨⟨_, hpq.1⟩, ih.1⟩, List.forall_mem_cons.mpr ⟨⟨_, hpq.1⟩, ih.2⟩⟩

theorem Store.lookup?_eq_none (h : ∀ g, ∀ p ∈ (S.bindingsOf g).entries, p.1 ≠ x) (f : FrameId) :
    S.lookup? f x = none := by
  have howner : S.owner? f x = none := by
    unfold owner?
    rw [List.find?_eq_none]
    intro g _
    simp [Bindings.contains, Bindings.get?_eq_none (h g)]
  rw [lookup?, howner]
  rfl

end

namespace Session

/-! ## Twin sessions -/

/-- Two sessions that differ in the numbers of their symbols. -/
structure Twin (s s' : Session) : Prop where
  names : Interner.initial.Within s.names
  names' : Interner.initial.Within s'.names
  machine : s.machine.Linked (.common s.names s'.names) s'.machine
  sink : s.sink = s'.sink

theorem twin_opened (output : Output) : Twin (opened output) (opened output) :=
  ⟨.refl _, .refl _, ⟨.initial, rfl, rfl⟩, rfl⟩

namespace Twin

variable {s s' t t' : Session} {n n' : Nat}

/-- The two runs of a sound text end alike, if they end. -/
theorem outcome (h : Twin s s') (hsize : (readSource s.names source).names.size ≤ Symbol.bound)
    (hsize' : (readSource s'.names source).names.size ≤ Symbol.bound) (n n' : Nat) :
    ∃ K : Lockstep, K.toLink = .common (readSource s.names source).names
      (readSource s'.names source).names ∧ K.leftShort = (n < n') ∧ K.rightShort = (n' < n) ∧
      Outcome.Linked K Eq
        (Eval.executeProgram n (readSource s.names source).program.statements
          (readSource s.names source).names s.machine)
        (Eval.executeProgram n' (readSource s'.names source).program.statements
          (readSource s'.names source).names
          s'.machine) := by
  have hwithin := readSource_within s.names source
  have hwithin' := readSource_within s'.names source
  let K := Lockstep.common _ _ n n' hsize hsize' (h.names.trans hwithin) (h.names'.trans hwithin')
  have hlink := Interner.common_within hwithin hwithin'
  have hprogram := (readSource_common s.names s'.names source).2
  refine ⟨K, rfl, rfl, rfl, K.executeProgram n n' id id hprogram _ _ ?_⟩
  exact ⟨h.machine.store.mono hlink, h.machine.current, h.machine.output⟩

variable (h : Twin s s') (hsize : (readSource s.names source).names.size ≤ Symbol.bound)
  (hsize' : (readSource s'.names source).names.size ≤ Symbol.bound)
include h hsize hsize'

/-- Running one text in both keeps sessions twins, whatever the fuel. -/
theorem run (hrun : s.run n source = some t) (hrun' : s'.run n' source = some t') : Twin t t' := by
  have hdiagnostics := (readSource_common s.names s'.names source).1
  have hwithin := h.names.trans (readSource_within s.names source)
  have hwithin' := h.names'.trans (readSource_within s'.names source)
  by_cases hsound : (readSource s.names source).diagnostics = []
  · obtain ⟨K, hlink, -, -, ho⟩ := h.outcome hsize hsize' n n'
    have hended := run_ended hsound hrun
    have hended' := run_ended (hdiagnostics ▸ hsound) hrun'
    generalize Eval.executeProgram n _ _ _ = o at ho hended
    generalize Eval.executeProgram n' _ _ _ = o' at ho hended'
    cases hended with
    | ok hnames hmachine hsink =>
      cases hended' with
      | ok hnames' hmachine' hsink' =>
        cases ho with
        | ok _ hm =>
          rw [hlink, ← hnames, ← hnames'] at hm
          refine ⟨hnames ▸ hwithin, hnames' ▸ hwithin', ?_, ?_⟩
          · rw [hmachine, hmachine']
            exact ⟨hm.store, hm.current, hm.output⟩
          · rw [hsink, hsink', h.sink]
      | fault => cases ho
    | fault hnames hmachine hsink =>
      cases hended' with
      | ok => cases ho
      | fault hnames' hmachine' hsink' =>
        cases ho with
        | fault he hm =>
          rw [hlink] at he
          rw [hlink, ← hnames, ← hnames'] at hm
          refine ⟨hnames ▸ hwithin, hnames' ▸ hwithin', ?_, ?_⟩
          · rw [hmachine, hmachine']
            exact ⟨hm.store, hm.current, hm.output⟩
          · rw [hsink, hsink', h.sink, he.diagnostic_eq]
  · obtain ⟨u, hu, hnames, hmachine, hsink⟩ := s.exists_run_faulty hsound
    obtain ⟨u', hu', hnames', hmachine', hsink'⟩ := s'.exists_run_faulty (hdiagnostics ▸ hsound)
    obtain rfl : u = t := Option.some.inj ((hu n).symm.trans hrun)
    obtain rfl : u' = t' := Option.some.inj ((hu' n').symm.trans hrun')
    have hlink :=
      Interner.common_within (readSource_within s.names source) (readSource_within s'.names source)
    rw [← hnames, ← hnames'] at hlink
    refine ⟨hnames ▸ hwithin, hnames' ▸ hwithin', ?_, ?_⟩
    · rw [hmachine, hmachine']
      exact ⟨h.machine.store.mono hlink, h.machine.current, h.machine.output⟩
    · rw [hsink, hsink', h.sink, hdiagnostics]

/-- A text that is run to its end in one session is so in its twin. -/
theorem exists_run (hrun : s.run n source = some t) : ∃ t', s'.run n source = some t' := by
  have hdiagnostics := (readSource_common s.names s'.names source).1
  by_cases hsound : (readSource s.names source).diagnostics = []
  · obtain ⟨K, -, -, hshort, ho⟩ := h.outcome hsize hsize' n n
    have hfuel : ¬ K.rightShort := by simp [hshort]
    exact Session.exists_run (hdiagnostics ▸ hsound)
      (Lockstep.ends_right ho hfuel (run_ended hsound hrun).ne_exhausted)
  · obtain ⟨u, hu, -⟩ := s'.exists_run_faulty (hdiagnostics ▸ hsound)
    exact ⟨u, hu n⟩

omit hsize hsize'

/-- Twins bind the same globals to values that print the same. -/
theorem global? (hsize : s.names.size ≤ Symbol.bound) (hsize' : s'.names.size ≤ Symbol.bound)
    (name : String) :
    (s.global? name).map s.machine.store.printed =
      (s'.global? name).map s'.machine.store.printed := by
  have hone := Interner.common_oneToOne hsize hsize'
  have hstore := h.machine.store
  unfold Session.global?
  cases hx : s.names.get? name with
  | none =>
    cases hy : s'.names.get? name with
    | none => rfl
    | some y =>
      have hlookup : s'.machine.store.lookup? Machine.globals y = none := by
        refine Store.lookup?_eq_none (fun g q hq hqy => ?_) _
        obtain ⟨x, text, htext, htext'⟩ := (forall₂_sym (hstore.bindingsOf g)).2 q hq
        obtain rfl := Interner.text_unique hsize' htext' (hqy ▸ hy)
        rw [hx] at htext
        cases htext
      rw [Option.bind_some, hlookup]
      rfl
  | some x =>
    cases hy : s'.names.get? name with
    | none =>
      have hlookup : s.machine.store.lookup? Machine.globals x = none := by
        refine Store.lookup?_eq_none (fun g p hp hpx => ?_) _
        obtain ⟨y, text, htext, htext'⟩ := (forall₂_sym (hstore.bindingsOf g)).1 p hp
        obtain rfl := Interner.text_unique hsize htext (hpx ▸ hx)
        rw [hy] at htext'
        cases htext'
      rw [Option.bind_some, hlookup]
      rfl
    | some y =>
      rw [Option.bind_some, Option.bind_some, hstore.lookup? hone Machine.globals ⟨name, hx, hy⟩]
      congr 1
      funext v
      exact hstore.printed v

end Twin

/-! ## Transcripts -/

/-- What a line of a session shows. -/
structure Shown where
  output : String
  diagnostics : List Diagnostic

/-- What a session has to show. -/
def shown (s : Session) : Shown :=
  ⟨s.takeOutput.1, s.takeDiagnostics.1⟩

/-- The session with everything shown. -/
def afterLine (s : Session) : Session :=
  s.takeOutput.2.resetSink

/-- A session that has nothing to show. -/
structure Fresh (s : Session) : Prop where
  sink : s.sink = {}
  output : s.machine.output = s.machine.output.emptied

theorem fresh_afterLine (s : Session) : s.afterLine.Fresh :=
  ⟨rfl, rfl⟩

/-- The lines are run one after the other, each to its end, and `report` has what each of them
shows. -/
inductive Transcript : Session → List String → List Shown → Session → Prop where
  | nil : Transcript s [] [] s
  | cons {s t u : Session} {line : String} {lines : List String} {report : List Shown} :
      s.Runs line t → Transcript t.afterLine lines report u →
        Transcript s (line :: lines) (t.shown :: report) u

/-- Runs lines one after the other, each with the same fuel. -/
def play (fuel : Nat) (s : Session) : List String → Option (List Shown × Session)
  | [] => some ([], s)
  | line :: lines => do
    let t ← s.run fuel line
    let (report, u) ← t.afterLine.play fuel lines
    return (t.shown :: report, u)

theorem Transcript.of_play {s t : Session} (h : s.play n lines = some (report, t)) :
    Transcript s lines report t := by
  induction lines generalizing s report with
  | nil =>
    cases h
    exact .nil
  | cons line lines ih =>
    obtain ⟨u, hrun, h⟩ := Option.bind_eq_some_iff.mp h
    obtain ⟨⟨rest, v⟩, hrest, h⟩ := Option.bind_eq_some_iff.mp h
    cases h
    exact .cons ⟨n, hrun⟩ (ih hrest)

theorem Transcript.append_iff {s t : Session} {before after : List String} {report : List Shown} :
    Transcript s (before ++ after) report t ↔ ∃ first second mid, report = first ++ second ∧
      first.length = before.length ∧ Transcript s before first mid ∧
      Transcript mid after second t := by
  induction before generalizing s report with
  | nil =>
    constructor
    · exact fun h => ⟨[], report, s, rfl, rfl, .nil, h⟩
    · rintro ⟨first, second, mid, rfl, -, hfirst, hsecond⟩
      cases hfirst
      exact hsecond
  | cons line before ih =>
    constructor
    · intro h
      cases h with
      | cons hrun hrest =>
        obtain ⟨first, second, mid, rfl, hlen, hfirst, hsecond⟩ := ih.mp hrest
        exact ⟨_ :: first, second, mid, rfl, congrArg (· + 1) hlen, .cons hrun hfirst, hsecond⟩
    · rintro ⟨first, second, mid, rfl, hlen, hfirst, hsecond⟩
      cases hfirst with
      | cons hrun hrest =>
        exact .cons hrun (ih.mpr ⟨_, second, mid, rfl, Nat.succ.inj hlen, hrest, hsecond⟩)

theorem Transcript.fresh {s t : Session} (h : Transcript s lines report t) (hs : s.Fresh) :
    t.Fresh := by
  induction h with
  | nil => exact hs
  | cons _ _ ih => exact ih (fresh_afterLine _)

theorem Transcript.names_eq {s t : Session} (h : Transcript s lines report t) :
    t.names = s.names.afterReading lines := by
  induction h with
  | nil => rfl
  | @cons s t u line lines report hrun _ ih =>
    obtain ⟨n, hrun⟩ := hrun
    rw [ih]
    change t.names.afterReading lines = s.names.afterReading (line :: lines)
    rw [run_names hrun]
    rfl

namespace Twin

variable {s s' t t' : Session}

/-- The names of a faulty text do not matter. -/
theorem skip_faulty (h : Twin s s') (hnew : s'.Fresh)
    (hfaulty : (readSource s'.names source).diagnostics ≠ []) (hrun : s'.run n source = some t') :
    Twin s t'.afterLine := by
  obtain ⟨u, hu, hnames, hmachine, -⟩ := s'.exists_run_faulty hfaulty
  obtain rfl : u = t' := Option.some.inj ((hu n).symm.trans hrun)
  have hwithin' := readSource_within s'.names source
  rw [← hnames] at hwithin'
  have hlink := Interner.common_within (Interner.Within.refl s.names) hwithin'
  refine ⟨h.names, h.names'.trans hwithin', ⟨?_, ?_, ?_⟩, h.sink.trans hnew.sink⟩
  · change s.machine.store.Linked (.common s.names u.names) u.machine.store
    rw [hmachine]
    exact h.machine.store.mono hlink
  · change s.machine.current = u.machine.current
    rw [hmachine]
    exact h.machine.current
  · change s.machine.output = u.machine.output.emptied
    rw [hmachine, h.machine.output]
    exact hnew.output

theorem shown_eq (h : Twin s s') : s.shown = s'.shown := by
  unfold shown takeOutput takeDiagnostics
  rw [h.machine.output, h.sink]

theorem afterLine (h : Twin s s') : Twin s.afterLine s'.afterLine :=
  ⟨h.names, h.names', ⟨h.machine.store, h.machine.current, by
    change s.machine.output.emptied = s'.machine.output.emptied
    rw [h.machine.output]⟩, rfl⟩

/-- The same lines show the same in both. -/
theorem transcript (h : Twin s s') (hsize : (s.names.afterReading lines).size ≤ Symbol.bound)
    (hsize' : (s'.names.afterReading lines).size ≤ Symbol.bound)
    (ht : Transcript s lines report t) :
    (∃ report' t', Transcript s' lines report' t') ∧
      ∀ report' t', Transcript s' lines report' t' → report' = report ∧ Twin t t' := by
  induction ht generalizing s' with
  | nil =>
    refine ⟨⟨[], s', .nil⟩, fun report' t' ht' => ?_⟩
    cases ht'
    exact ⟨rfl, h⟩
  | @cons s t u line lines report hrun _ ih =>
    obtain ⟨n, hrun⟩ := hrun
    have hline :=
      Nat.le_trans (Interner.size_le_afterReading (readSource s.names line).names lines) hsize
    have hline' :=
      Nat.le_trans (Interner.size_le_afterReading (readSource s'.names line).names lines) hsize'
    have hnext : ∀ n' t', s'.run n' line = some t' →
        (∃ report' u', Transcript t'.afterLine lines report' u') ∧
        ∀ report' u', Transcript t'.afterLine lines report' u' → report' = report ∧ Twin u u' := by
      intro n' t' hrun'
      have htwin := h.run hline hline' hrun hrun'
      refine ih htwin.afterLine ?_ ?_
      · change (t.names.afterReading lines).size ≤ _
        rw [run_names hrun]
        exact hsize
      · change (t'.names.afterReading lines).size ≤ _
        rw [run_names hrun']
        exact hsize'
    constructor
    · obtain ⟨t', hrun'⟩ := h.exists_run hline hline' hrun
      obtain ⟨report', u', ht'⟩ := (hnext n t' hrun').1
      exact ⟨_, u', .cons ⟨n, hrun'⟩ ht'⟩
    · intro report' u' ht'
      cases ht' with
      | @cons _ t' _ _ _ report' hrun' ht' =>
        obtain ⟨n', hrun'⟩ := hrun'
        obtain ⟨rfl, htwin⟩ := (hnext n' t' hrun').2 report' u' ht'
        exact ⟨by rw [(h.run hline hline' hrun hrun').shown_eq], htwin⟩

/-- Lines behind a faulty one show in the session with it what they show in the session without. -/
theorem transcript_faulty (h : Twin s s') (hnew : s'.Fresh)
    (hfaulty : (readSource s'.names bad).diagnostics ≠ [])
    (hsize : (s.names.afterReading lines).size ≤ Symbol.bound)
    (hsize' : (s'.names.afterReading (bad :: lines)).size ≤ Symbol.bound)
    (ht : Transcript s lines report t) :
    (∃ shown report' t', Transcript s' (bad :: lines) (shown :: report') t') ∧
    ∀ report' t', Transcript s' (bad :: lines) report' t' →
      report'.tail = report ∧ Twin t t' := by
  have hrest : ∀ n u, s'.run n bad = some u →
      (∃ report' t', Transcript u.afterLine lines report' t') ∧
      ∀ report' t', Transcript u.afterLine lines report' t' → report' = report ∧ Twin t t' := by
    intro n u hrun
    refine (h.skip_faulty hnew hfaulty hrun).transcript hsize ?_ ht
    change (u.names.afterReading lines).size ≤ Symbol.bound
    rw [run_names hrun]
    exact hsize'
  constructor
  · obtain ⟨u, hrun, -⟩ := s'.exists_run_faulty hfaulty
    obtain ⟨report', t', ht'⟩ := (hrest 0 u (hrun 0)).1
    exact ⟨_, report', t', .cons ⟨0, hrun 0⟩ ht'⟩
  · intro report' t' ht'
    cases ht' with
    | @cons _ u _ _ _ report' hrun ht' =>
      obtain ⟨n, hrun⟩ := hrun
      exact (hrest n u hrun).2 report' t' ht'

end Twin

end Session

/-- A line with something wrong in it is transparent. Put in anywhere among the lines of a session,
it changes nothing about the other lines: if they run to their end without it, they do so with it,
each prints the same and reports the same, and at the end the same globals are bound, to values that
print the same. The output may be one that closes after some lines. Symbols are 32-bit words, so
that there can be no more than `Symbol.bound` names to tell apart. -/
theorem faulty_line_is_transparent (quota : Option Nat) (before after : List String) (bad : String)
    (hbad : (readSource .initial bad).diagnostics ≠ [])
    (hsession : Session.Transcript (.opened { quota }) (before ++ after) report s)
    (hsize : (Interner.initial.afterReading (before ++ after)).size ≤ Symbol.bound)
    (hsize' : (Interner.initial.afterReading (before ++ bad :: after)).size ≤ Symbol.bound) :
    (∃ report' s', Session.Transcript (.opened { quota }) (before ++ bad :: after) report' s') ∧
      ∀ report' s', Session.Transcript (.opened { quota }) (before ++ bad :: after) report' s' →
        report'.eraseIdx before.length = report ∧
          ∀ name, (s'.global? name).map s'.machine.store.printed =
            (s.global? name).map s.machine.store.printed := by
  have hend := hsession.names_eq
  obtain ⟨first, second, mid, rfl, hlen, hfirst, hsecond⟩ :=
    Session.Transcript.append_iff.mp hsession
  have hbefore : (Interner.initial.afterReading before).size ≤ Symbol.bound :=
    Nat.le_trans (Interner.size_le_afterReading _ after)
      (Interner.afterReading_append _ _ _ ▸ hsize)
  obtain ⟨⟨first', mid', hfirst'⟩, hmid⟩ :=
    (Session.twin_opened { quota }).transcript hbefore hbefore hfirst
  -- The two sessions are twins up to the faulty line, and behind it they are so again.
  have hbehind : ∀ first' mid', Session.Transcript (.opened { quota }) before first' mid' →
      first' = first ∧
        (∃ shown report' s', Session.Transcript mid' (bad :: after) (shown :: report') s') ∧
        ∀ report' s', Session.Transcript mid' (bad :: after) report' s' → report'.tail = second ∧
        s.Twin s' := by
    intro first' mid' hfirst'
    obtain ⟨rfl, htwin⟩ := hmid first' mid' hfirst'
    have hfaulty : (readSource mid'.names bad).diagnostics ≠ [] := by
      rw [(readSource_common mid'.names .initial bad).1]
      exact hbad
    refine ⟨rfl, htwin.transcript_faulty (hfirst'.fresh ⟨rfl, rfl⟩) hfaulty ?_ ?_ hsecond⟩
    · rw [hfirst.names_eq, ← Interner.afterReading_append]
      exact hsize
    · rw [hfirst'.names_eq, ← Interner.afterReading_append]
      exact hsize'
  constructor
  · obtain ⟨rfl, ⟨shown, report', s', hrest'⟩, -⟩ := hbehind first' mid' hfirst'
    exact ⟨_, s', Session.Transcript.append_iff.mpr ⟨first', _, mid', rfl, hlen, hfirst', hrest'⟩⟩
  · intro report' s' hsession'
    have hend' := hsession'.names_eq
    obtain ⟨first', rest', mid', rfl, hlen', hfirst', hrest'⟩ :=
      Session.Transcript.append_iff.mp hsession'
    obtain ⟨rfl, -, hall⟩ := hbehind first' mid' hfirst'
    obtain ⟨rfl, htwin⟩ := hall rest' s' hrest'
    refine ⟨?_, fun name => (htwin.global? (hend ▸ hsize) (hend' ▸ hsize') name).symm⟩
    rw [← hlen', List.eraseIdx_append_of_length_le (Nat.le_refl _), Nat.sub_self,
      List.eraseIdx_zero]

/-- The faulty line enters `c` in front of `b`, so that `b` is declared as another symbol behind
it. -/
theorem unclosed_call_is_transparent :
    let before := ["var a = 1;"]
    let after := ["var b = a + 1; print b;", "print c;"]
    let bad := "print c(b"
    (readSource .initial bad).diagnostics ≠ [] ∧
      (Interner.initial.afterReading (before ++ after)).size ≤ Symbol.bound ∧
      (Interner.initial.afterReading (before ++ bad :: after)).size ≤ Symbol.bound ∧
      ∃ report s, Session.Transcript (.opened { quota := some 1 }) (before ++ after) report s ∧
        (∃ report' s', Session.Transcript (.opened { quota := some 1 }) (before ++ bad :: after)
            report' s') ∧
        ∀ report' s', Session.Transcript (.opened { quota := some 1 }) (before ++ bad :: after)
          report' s' → report'.eraseIdx before.length = report ∧
            ∀ name, (s'.global? name).map s'.machine.store.printed =
              (s.global? name).map s.machine.store.printed := by
  intro before after bad
  have hall : (readSource .initial bad).diagnostics.isEmpty = false ∧
      (Interner.initial.afterReading (before ++ after)).size ≤ Symbol.bound ∧
      (Interner.initial.afterReading (before ++ bad :: after)).size ≤ Symbol.bound ∧
      ((Session.opened { quota := some 1 }).play 9 (before ++ after)).isSome = true := by
    decide +kernel
  obtain ⟨hnone, hsize, hsize', hplay⟩ := hall
  have hbad : (readSource .initial bad).diagnostics ≠ [] := by
    intro h
    rw [h] at hnone
    cases hnone
  obtain ⟨⟨report, s⟩, hplay⟩ := Option.isSome_iff_exists.mp hplay
  have hsession := Session.Transcript.of_play hplay
  exact ⟨hbad, hsize, hsize', report, s, hsession,
    faulty_line_is_transparent (some 1) before after bad hbad hsession hsize hsize'⟩

end TreeWalk
