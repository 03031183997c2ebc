import TreeWalk.Proofs.Eval.Lockstep
import TreeWalk.Proofs.Interner
import TreeWalk.Proofs.Session.Runs

/-!
# Runs with the same end

Two ways to run are the same to an observer if they come to an end in the same cases, with the same
output and the same globals, and raise the same errors, if any. Places of errors may differ, by a
given relation. So runs in lockstep are the same (`SameEnd.of_ended`), and runs that are the same as
a third one.
-/

namespace TreeWalk

/-- Nothing is added to what was reported before, or errors that are the same but for their
places. -/
inductive Sink.SameReport (R : Span → Span → Prop) (before : Sink) : Sink → Sink → Prop where
  | none : SameReport R before before before
  | error {e e' : RuntimeError} :
      e.code = e'.code → e.message = e'.message → e.suggestion? = e'.suggestion? →
      R e.span e'.span →
      SameReport R before (before.reportRuntime e.diagnostic) (before.reportRuntime e'.diagnostic)

namespace Sink

variable {R R' R'' : Span → Span → Prop} {before : Sink}

/-- A report is seen: there is one diagnostic more. -/
theorem reportRuntime_ne (s : Sink) (d : Diagnostic) : s.reportRuntime d ≠ s := by
  intro h
  have hsize := congrArg (·.diagnostics.size) h
  simp [reportRuntime, push] at hsize

theorem reportRuntime_inj {s : Sink} (h : s.reportRuntime d = s.reportRuntime d') : d = d' :=
  (Array.push_eq_push.mp (congrArg Sink.diagnostics h)).1

theorem SameReport.symm (hR : ∀ a b, R a b → R' b a) (h : before.SameReport R u u') :
    before.SameReport R' u' u := by
  cases h with
  | none => exact .none
  | error hcode hmessage hsuggestion hspan =>
    exact .error hcode.symm hmessage.symm hsuggestion.symm (hR _ _ hspan)

/-- The error in the middle is known from its diagnostic. -/
theorem SameReport.trans (hR : ∀ a b c, R a b → R' b c → R'' a c) (h : before.SameReport R u v)
    (h' : before.SameReport R' v' w) (hv : v = v') : before.SameReport R'' u w := by
  cases h with
  | none =>
    cases h' with
    | none => exact .none
    | error => exact absurd hv.symm (reportRuntime_ne _ _)
  | error hcode hmessage hsuggestion hspan =>
    cases h' with
    | none => exact absurd hv (reportRuntime_ne _ _)
    | error hcode' hmessage' hsuggestion' hspan' =>
      injection reportRuntime_inj hv with _ hcode₂ hmessage₂ hspan₂ hsuggestion₂
      refine .error (hcode.trans ((Option.some.inj hcode₂).trans hcode'))
        (hmessage.trans (hmessage₂.trans hmessage'))
        (hsuggestion.trans (Eq.trans ?_ hsuggestion')) (hR _ _ _ hspan (hspan₂ ▸ hspan'))
      simpa using congrArg List.head? hsuggestion₂

end Sink

namespace Session

/-! ## Ends that are the same -/

variable {s t t' : Session} {R : Span → Span → Prop} {before : Sink}

/-- Two sessions that look the same from outside, and whose last runs raised the same error, if
any. -/
structure SameEnd (R : Span → Span → Prop) (before : Sink) (t t' : Session) : Prop where
  output : t.machine.output = t'.machine.output
  names : t.names = t'.names
  globals : ∀ name, (t.global? name).map t.machine.store.printed =
    (t'.global? name).map t'.machine.store.printed
  report : before.SameReport R t.sink t'.sink

/-- Two ways to run that come to an end in the same cases, and then to the same end. -/
structure SameRuns (R : Span → Span → Prop) (before : Sink)
    (runs runs' : Session → Prop) : Prop where
  ends : (∃ t, runs t) ↔ ∃ t, runs' t
  same : ∀ t t', runs t → runs' t' → SameEnd R before t t'

/-- Ends can be compared from either side. -/
theorem SameEnd.symm {R' : Span → Span → Prop} (hR : ∀ a b, R a b → R' b a)
    (h : SameEnd R before t t') :
    SameEnd R' before t' t :=
  ⟨h.output.symm, h.names.symm, fun name => (h.globals name).symm, h.report.symm hR⟩

theorem SameEnd.trans {R' R'' : Span → Span → Prop} (hR : ∀ a b c, R a b → R' b c → R'' a c)
    (h : SameEnd R before t t') (h' : SameEnd R' before t' u) : SameEnd R'' before t u :=
  ⟨h.output.trans h'.output, h.names.trans h'.names, fun name =>
    (h.globals name).trans (h'.globals name), h.report.trans hR h'.report rfl⟩

theorem SameRuns.symm {R' : Span → Span → Prop} (hR : ∀ a b, R a b → R' b a)
    (h : SameRuns R before runs runs') :
    SameRuns R' before runs' runs :=
  ⟨h.ends.symm, fun t t' ht ht' => (h.same t' t ht' ht).symm hR⟩

/-- Runs that end as the same runs do end alike. -/
theorem SameRuns.trans {R' R'' : Span → Span → Prop} (hR : ∀ a b c, R a b → R' b c → R'' a c)
    (h : SameRuns R before runs runs') (h' : SameRuns R' before runs' runs'') :
    SameRuns R'' before runs runs'' := by
  refine ⟨h.ends.trans h'.ends, fun t t'' ht ht'' => ?_⟩
  obtain ⟨t', ht'⟩ := h.ends.mp ⟨t, ht⟩
  exact (h.same t t' ht ht').trans hR (h'.same t' t'' ht' ht'')

/-! ## Runs in lockstep -/

/-- A global name has values that look the same. -/
theorem global?_eq {L : Link} (hL : L.OneToOne)
    (hsym : ∀ x, (t.names.resolve? x).isSome = true → L.sym x x) (hnames : t.names = t'.names)
    (hstore : t.machine.store.Linked L t'.machine.store) (name : String) :
    (t.global? name).map t.machine.store.printed =
      (t'.global? name).map t'.machine.store.printed := by
  unfold global?
  rw [← hnames]
  cases hx : t.names.get? name with
  | none => rfl
  | some x =>
    have hlookup := hstore.lookup? hL Machine.globals (hsym x (Interner.isSome_of_get? hx))
    rw [Option.bind_some, Option.bind_some, hlookup]
    exact congrArg (Option.map · _) (funext hstore.printed)

/-- Linked outcomes leave sessions that end the same. -/
theorem SameEnd.of_ended {names : Interner} {K : Lockstep} {L : Link} (hlink : K.toLink = L)
    (hsym : ∀ x, (names.resolve? x).isSome = true → L.sym x x) (ho : Outcome.Linked K Eq o o')
    (h : Ended names before o t) (h' : Ended names before o' t') : SameEnd L.span before t t' := by
  subst hlink
  have hends : ∀ m m', t.names = names → t'.names = names → t.machine = { m with events := #[] } →
      t'.machine = { m' with events := #[] } → Machine.Linked K.toLink m m' →
      before.SameReport K.span t.sink t'.sink → SameEnd K.span before t t' := by
    intro m m' hnames hnames' hmachine hmachine' hm hreport
    have hstore : t.machine.store.Linked K.toLink t'.machine.store := by
      rw [hmachine, hmachine']
      exact hm.store
    have hsame : t.names = t'.names := hnames.trans hnames'.symm
    refine ⟨?_, hsame, global?_eq K.oneToOne (hnames ▸ hsym) hsame hstore, hreport⟩
    rw [hmachine, hmachine']
    exact hm.output
  cases h with
  | ok hnames hmachine hsink =>
    cases h' with
    | ok hnames' hmachine' hsink' =>
      cases ho with
      | ok _ hm =>
        refine hends _ _ hnames hnames' hmachine hmachine' hm ?_
        rw [hsink, hsink']
        exact .none
    | fault => cases ho
  | fault hnames hmachine hsink =>
    cases h' with
    | ok => cases ho
    | fault hnames' hmachine' hsink' =>
      cases ho with
      | fault he hm =>
        refine hends _ _ hnames hnames' hmachine hmachine' hm ?_
        rw [hsink, hsink']
        exact .error he.code he.message he.suggestion he.span

end Session

end TreeWalk
