import TreeWalk.Proofs.Eval.StoredCode
import TreeWalk.Proofs.Session.Texts

/-!
# Sessions of parsed code

In a session of parsed code (`Session.ParsedStep`) the host brings no code but what was read from
texts, and no values but such as programs can hold. What holds of all code that can be read then
holds of all code in the store, between the steps of the session and inside them.
-/

namespace TreeWalk

/-- The value is one that a program can hold: its places are there, and its tuples have two elements
or more. -/
structure Value.Sound (S : Store) (v : Value) : Prop where
  places : v.In S
  wide : v.Wide 2

/-- The values that a task starts with. -/
def Task.values : Task → List Value
  | .call callee args _ => callee :: args
  | .evaluate _ | .execute _ => []

/-- A use of a session by a host that brings no code but what was read from texts, no values but
such as the programs of the session can hold, and defines no keyword. -/
inductive Session.ParsedStep (s : Session) : Session → Prop where
  | read (source : String) : ParsedStep s (s.read source).2
  | run : s.run n source = some u → ParsedStep s u
  | evaluate : s.evaluate n source = some (v, u) → ParsedStep s u
  | interpret {p : Program} : p.IsRead → s.interpret n p = some u → ParsedStep s u
  | executeEach {p : Program} :
      p.IsRead → stmts ⊆ p.statements → s.executeEach n stmts = some (r, u) → ParsedStep s u
  | call : callee.Sound s.machine.store → (∀ v ∈ args, v.Sound s.machine.store) →
      s.call n callee args span = some (v, u) → ParsedStep s u
  | define : Keyword.ofText? name = none → v.Sound s.machine.store → ParsedStep s (s.define name v)
  | takeOutput : ParsedStep s s.takeOutput.2
  | takeLog : ParsedStep s s.takeLog.2
  | takeDiagnostics : ParsedStep s s.takeDiagnostics.2
  | resetSink : ParsedStep s s.resetSink

/-- All code that is read from texts has the form. -/
structure CodeForm.CoversTexts (form : CodeForm) : Prop where
  program : ∀ {names source s}, s ∈ (readSource names source).program.statements →
    (Code.stmt s).Everywhere form.Allows
  expression : ∀ {names source e}, (readExpression names source).expr? = some e →
    (Code.expr e).Everywhere form.Allows
  width : form.width ≤ 2

theorem CodeForm.CoversTexts.read {form : CodeForm} {p : Program} (h : form.CoversTexts)
    (hread : p.IsRead) (hs : s ∈ p.statements) : (Code.stmt s).Everywhere form.Allows := by
  obtain ⟨names, source, -, rfl⟩ := hread
  exact h.program hs

namespace Session

variable {s u : Session} {form : CodeForm}

theorem written_perform {act : Eval α} {V : Store → α → Prop} (h : s.machine.store.Written form)
    (hact : (Regime.written form).Sound s.machine.store s.machine.current act V)
    (hperform : s.perform act = some (r, u)) : u.machine.store.Written form := by
  have hends := hact s.names s.machine rfl trivial h
  unfold Session.perform at hperform
  cases hout : act s.names s.machine with
  | ok a m =>
    rw [hout] at hends hperform
    cases hperform
    exact hends.1.good
  | fault e m =>
    rw [hout] at hends hperform
    cases hperform
    exact hends.1.good
  | exhausted =>
    rw [hout] at hperform
    cases hperform

theorem settle_machine {r : Except RuntimeError α × Session} (h : Session.settle r = (v, u)) :
    u.machine = r.2.machine := by
  obtain ⟨r, t⟩ := r
  cases r with
  | ok a => cases h; rfl
  | error e => cases h; rfl

theorem written_interpret (h : s.machine.store.Written form)
    (hp : ∀ stmt ∈ p.statements, (Code.stmt stmt).Everywhere form.Allows)
    (hrun : s.interpret n p = some u) :
    u.machine.store.Written form := by
  obtain ⟨⟨r, t⟩, hperform, hrun⟩ := Option.bind_eq_some_iff.mp hrun
  have ht := written_perform h
    ((Regime.written form).executeProgram n fun stmt hstmt => .of_own trivial (hp stmt hstmt))
    hperform
  cases r with
  | ok a => cases hrun; exact ht
  | error e => cases hrun; exact ht

theorem written_executeEach (h : s.machine.store.Written form)
    (hstmts : ∀ stmt ∈ stmts, (Code.stmt stmt).Everywhere form.Allows)
    (hrun : s.executeEach n stmts = some (r, u)) : u.machine.store.Written form := by
  induction stmts generalizing s r with
  | nil => cases hrun; exact h
  | cons stmt stmts ih =>
    obtain ⟨⟨flow, t⟩, hperform, hrun⟩ := Option.bind_eq_some_iff.mp hrun
    obtain ⟨⟨flows, w⟩, hrest, hrun⟩ := Option.bind_eq_some_iff.mp hrun
    cases hrun
    have hstmt := hstmts stmt List.mem_cons_self
    have ht := written_perform h ((Regime.written form).execute n (.of_own trivial hstmt)) hperform
    exact ih ht (fun s hs => hstmts s (List.mem_cons_of_mem _ hs)) hrest

theorem written_evaluate (hform : form.CoversTexts) (h : s.machine.store.Written form)
    (hrun : s.evaluate n source = some (v, u)) :
    u.machine.store.Written form := by
  unfold Session.evaluate at hrun
  dsimp only at hrun
  cases hexpr : (readExpression s.names source).expr? with
  | none =>
    rw [hexpr] at hrun
    cases hrun
    exact h
  | some e =>
    rw [hexpr] at hrun
    obtain ⟨r, hperform, hsettle⟩ := Option.map_eq_some_iff.mp hrun
    rw [settle_machine hsettle]
    refine written_perform ?_ ((Regime.written form).evaluate n trivial (hform.expression hexpr))
      hperform
    exact h

theorem written_call (h : s.machine.store.Written form) (hcallee : callee.Wide form.width)
    (hargs : ∀ v ∈ args, v.Wide form.width) (hrun : s.call n callee args span = some (v, u)) :
    u.machine.store.Written form := by
  obtain ⟨r, hperform, hsettle⟩ := Option.map_eq_some_iff.mp hrun
  rw [settle_machine hsettle]
  exact written_perform h ((Regime.written form).call n s.machine.current hcallee hargs trivial)
    hperform

theorem written_initial (form : CodeForm) : Store.initial.Written form := by
  refine ⟨fun v hv => ?_, fun decl hdecl => ?_⟩
  · cases hv with
    | @binding f x _ hx =>
      cases hf : Store.initial.frames[f]? with
      | none => simp [Store.bindingsOf, hf] at hx
      | some frame =>
        rw [Store.bindingsOf_eq hf, frame_initial hf] at hx
        cases hx
    | @field o x _ hx => cases hx
  · cases hdecl with
    | function hc => exact absurd (Array.getElem?_eq_some_iff.mp hc).1 (Nat.not_lt_zero _)
    | method hc => exact absurd hc.lt (Nat.not_lt_zero _)

/-- Every step of a session of parsed code is a step of a session of texts, and keeps the form of
all code. -/
theorem ParsedStep.kept (hform : form.CoversTexts) (h : s.machine.store.Written form)
    (hstep : s.ParsedStep u) :
    TextStep (fun _ => True) s u ∧ u.machine.store.Written form := by
  cases hstep with
  | read source => exact ⟨.read source, h⟩
  | @run n source _ hrun =>
    refine ⟨.run trivial hrun, ?_⟩
    by_cases hsound : (readSource s.names source).diagnostics = []
    · rw [run_eq_interpret s hsound] at hrun
      refine written_interpret ?_ (fun stmt hstmt => hform.program hstmt) hrun
      exact h
    · obtain ⟨t, ht, -, hmachine, -⟩ := s.exists_run_faulty hsound
      obtain rfl : t = u := Option.some.inj ((ht n).symm.trans hrun)
      rwa [hmachine]
  | evaluate hrun => exact ⟨.evaluate hrun, written_evaluate hform h hrun⟩
  | interpret hread hrun =>
    exact ⟨.interpret hread trivial hrun,
      written_interpret h (fun stmt hstmt => hform.read hread hstmt) hrun⟩
  | executeEach hread hsub hrun =>
    exact ⟨.executeEach hread trivial hsub hrun,
      written_executeEach h (fun stmt hstmt => hform.read hread (hsub hstmt)) hrun⟩
  | call hcallee hargs hrun =>
    exact ⟨.call hcallee.places (fun v hv => (hargs v hv).places) hrun,
      written_call h (hcallee.wide.mono hform.width)
        (fun v hv => (hargs v hv).wide.mono hform.width) hrun⟩
  | define hname hv => exact ⟨.define hname hv.places, h.define (hv.wide.mono hform.width)⟩
  | takeOutput => exact ⟨.takeOutput, h⟩
  | takeLog => exact ⟨.takeLog, h⟩
  | takeDiagnostics => exact ⟨.takeDiagnostics, h⟩
  | resetSink => exact ⟨.resetSink, h⟩

/-- A session of parsed code is a session of texts, and all code in its store has the form of code
that is read. -/
theorem ofTexts_of_parsedSteps (hform : form.CoversTexts)
    (h : Relation.ReflTransGen ParsedStep (opened output) s) :
    s.OfTexts (fun _ => True) ∧ s.machine.store.Written form := by
  induction h with
  | refl => exact ⟨⟨output, .refl⟩, written_initial _⟩
  | tail _ hstep ih =>
    obtain ⟨⟨output, hsteps⟩, hwritten⟩ := ih
    obtain ⟨htext, hwritten'⟩ := hstep.kept hform hwritten
    exact ⟨⟨output, hsteps.tail htext⟩, hwritten'⟩

variable {names : Interner} {k n : Nat} {t t₀ : Task} {m m₀ : Machine}

/-- Every moment inside a step keeps the form of all code, if the host starts it with proper
values. -/
theorem written_visits (hform : form.CoversTexts) (h : s.machine.store.Written form)
    (hstarts : s.Starts (fun _ => True) n names t₀ m₀) (hwide : ∀ v ∈ t₀.values, v.Wide 2)
    (hvisits : Eval.Visits names n t₀ m₀ k t m) : (Regime.written form).Leads s.machine t m := by
  have hstart : (Regime.written form).Leads s.machine t₀ m₀ := by
    cases hstarts with
    | run _ _ hin =>
      exact Regime.leads_inStmts hin (fun stmt hs => .of_own trivial (hform.program hs)) h
    | evaluate hexpr => exact (Regime.Follows.refl h).leads ⟨trivial, hform.expression hexpr⟩
    | interpret hread _ hin =>
      exact Regime.leads_inStmts hin (fun stmt hs => .of_own trivial (hform.read hread hs)) h
    | execute hread _ hs =>
      exact (Regime.Follows.refl h).leads (.of_own trivial (hform.read hread hs))
    | call _ _ =>
      have hwide := fun v hv => (hwide v hv).mono hform.width
      exact (Regime.Follows.refl h).leads
        ⟨hwide _ List.mem_cons_self, fun v hv => hwide v (List.mem_cons_of_mem _ hv), trivial⟩
  exact (Regime.Leads.visits hvisits hstart.good hstart.fit).after hstart.grows

end Session

end TreeWalk
