import Mathlib.Logic.Relation
import TreeWalk.Proofs.Eval.Lockstep
import TreeWalk.Proofs.Eval.Scope
import TreeWalk.Proofs.JoinedText
import TreeWalk.Proofs.Session.Runs

/-!
# Sessions whose names have been entered

The names in the code and the bindings of a session are names of its table, as long as the programs
that a host brings were read with the names of the session. A longer table makes no difference to
such code.
-/

namespace TreeWalk

/-- Runs of the same names with a table of them and with a longer one. -/
def Lockstep.entered (names names' : Interner) (R : Span → Span → Prop) (n n' : Nat)
    (hinitial : Interner.initial.Extends names) (h : names.Extends names') : Lockstep where
  toLink := .entered names R
  left := names
  right := names'
  leftShort := n < n'
  rightShort := n' < n
  text := by
    rintro x _ ⟨rfl, hx⟩
    obtain ⟨text, htext⟩ := Option.isSome_iff_exists.mp hx
    rw [htext, h htext]
  oneToOne := Link.entered_oneToOne
  this := ⟨rfl, hinitial.isSome (by decide +kernel)⟩
  super := ⟨rfl, hinitial.isSome (by decide +kernel)⟩
  init := ⟨rfl, hinitial.isSome (by decide +kernel)⟩

namespace Session

/-- The names in the session's code and bindings are names of its table, and the places in its code
satisfy `Q`. -/
structure Entered (Q : Span → Prop) (s : Session) : Prop where
  initial : Interner.initial.Extends s.names
  store : s.machine.store.Linked (.entered s.names fun a b => Q a ∧ b = a) s.machine.store

theorem entered_opened (output : Output) : (opened output).Entered Q :=
  ⟨.refl _, .initial⟩

variable {s t : Session} {Q : Span → Prop}

theorem Entered.mono (h : s.Entered Q) {Q' : Span → Prop} (hQ : ∀ a, Q a → Q' a) : s.Entered Q' :=
  ⟨h.initial, h.store.mono (Link.entered_within (.refl _) fun a _ hab => ⟨hQ a hab.1, hab.2⟩)⟩

/-- Behind a session whose table has grown. -/
theorem Entered.grown (h : s.Entered Q) (hnames : s.names.Extends t.names)
    (hstore : t.machine.store = s.machine.store) : t.Entered Q := by
  refine ⟨h.initial.trans hnames, ?_⟩
  rw [hstore]
  exact h.store.mono (Link.entered_within hnames fun _ _ => id)

theorem perform_names {act : Eval α} (h : s.perform act = some (r, t)) : t.names = s.names := by
  unfold Session.perform at h
  cases hend : act s.names s.machine with
  | ok a m | fault e m =>
    rw [hend] at h
    cases h
    rfl
  | exhausted =>
    rw [hend] at h
    cases h

theorem readSource_extends (names : Interner) (source : String) :
    names.Extends (readSource names source).names :=
  Scan.ofLexemes_extends names _

namespace Entered

/-- Computations that run in lockstep with themselves bring no other names in. -/
theorem perform {act : Eval α} (h : s.Entered Q)
    (hact : ∀ K : Lockstep, K.toLink = .entered s.names (fun a b => Q a ∧ b = a) →
      ∃ V, K.Agree V act act)
    (hperform : s.perform act = some (r, t)) : t.Entered Q := by
  let K := Lockstep.entered s.names s.names (fun a b => Q a ∧ b = a) 0 0 h.initial (.refl _)
  obtain ⟨V, hagree⟩ := hact K rfl
  have ho : Outcome.Linked K V (act s.names s.machine) (act s.names s.machine) :=
    hagree s.machine s.machine ⟨h.store, rfl, rfl⟩
  unfold Session.perform at hperform
  cases hend : act s.names s.machine with
  | ok a m =>
    rw [hend] at hperform ho
    cases hperform
    cases ho with
    | ok _ hm => exact ⟨h.initial, hm.store⟩
  | fault e m =>
    rw [hend] at hperform ho
    cases hperform
    cases ho with
    | fault _ hm => exact ⟨h.initial, hm.store⟩
  | exhausted =>
    rw [hend] at hperform
    cases hperform

theorem interpret (h : s.Entered Q) (hp : p.Linked (.entered s.names fun a b => Q a ∧ b = a) p)
    (hrun : s.interpret n p = some t) : t.Entered Q := by
  obtain ⟨⟨r, u⟩, hperform, hrun⟩ := Option.bind_eq_some_iff.mp hrun
  have hu : u.Entered Q :=
    h.perform (fun K hK => ⟨_, K.executeProgram n n (fun hlt => absurd hlt (Nat.lt_irrefl n))
      (fun hlt => absurd hlt (Nat.lt_irrefl n)) (by rw [hK]; exact hp)⟩) hperform
  cases r with
  | ok a => cases hrun; exact hu
  | error e => cases hrun; exact ⟨hu.initial, hu.store⟩

theorem settle {r : Except RuntimeError α × Session} (h : r.2.Entered Q)
    (hsettle : Session.settle r = (v, t)) :
    t.Entered Q := by
  obtain ⟨r, u⟩ := r
  cases r with
  | ok a => cases hsettle; exact h
  | error e => cases hsettle; exact ⟨h.initial, h.store⟩

theorem call (h : s.Entered Q) (hspan : Q span) (hcall : s.call n callee args span = some (v, t)) :
    t.Entered Q := by
  obtain ⟨r, hperform, hsettle⟩ := Option.map_eq_some_iff.mp hcall
  have hr : r.2.Entered Q := by
    refine h.perform (fun K hK => ⟨_, (K.agreeWith_self n).call callee args span span ?_⟩) hperform
    rw [hK]
    exact ⟨hspan, rfl⟩
  exact hr.settle hsettle

theorem executeEach (h : s.Entered Q)
    (hstmts : List.Forall₂ (Stmt.Linked (.entered s.names fun a b => Q a ∧ b = a)) stmts stmts)
    (hrun : s.executeEach n stmts = some (r, t)) : t.Entered Q := by
  induction stmts generalizing s r with
  | nil =>
    cases hrun
    exact h
  | cons stmt stmts ih =>
    obtain ⟨⟨flow, u⟩, hperform, hrun⟩ := Option.bind_eq_some_iff.mp hrun
    obtain ⟨⟨flows, w⟩, hrest, hrun⟩ := Option.bind_eq_some_iff.mp hrun
    cases hrun
    cases hstmts with
    | cons hstmt hstmts =>
      have hu : u.Entered Q :=
        h.perform (fun K hK =>
            ⟨_, (K.agreeWith_self n).execute stmt stmt (by rw [hK]; exact hstmt)⟩) hperform
      rw [← perform_names hperform] at hstmts
      exact ih hu hstmts hrest

theorem define (h : s.Entered Q) (name : String) (v : Value) : (s.define name v).Entered Q := by
  have hextends : s.names.Extends (s.names.intern name).2 := Interner.extends_intern s.names name
  have hgrown :=
    h.store.mono (Link.entered_within (R := fun a b => Q a ∧ b = a) hextends fun _ _ => id)
  refine ⟨h.initial.trans hextends, hgrown.define Link.entered_oneToOne Machine.globals ⟨rfl, ?_⟩ v⟩
  exact Interner.isSome_of_get? (Interner.get?_intern s.names name)

/-- Running a text adds its places to those in the session. -/
theorem run (h : s.Entered Q) (hrun : s.run n source = some t) :
    t.Entered fun a => Q a ∨ (readSource s.names source).Place a := by
  by_cases hsound : (readSource s.names source).diagnostics = []
  · rw [run_eq_interpret s hsound] at hrun
    have hread : (s.read source).2.Entered Q := h.grown (readSource_extends s.names source) rfl
    refine (hread.mono fun _ => .inl).interpret ?_ hrun
    exact Stmt.Linked.monoAll (Link.entered_within (.refl _) fun a b hab => ⟨.inr hab.1, hab.2⟩)
      (Parser.program_entered hsound)
  · obtain ⟨u, hu, hnames, hmachine, -⟩ := s.exists_run_faulty hsound
    obtain rfl : u = t := Option.some.inj ((hu n).symm.trans hrun)
    have hextends := readSource_extends s.names source
    rw [← hnames] at hextends
    exact (h.grown hextends (congrArg Machine.store hmachine)).mono fun _ => .inl

/-- Evaluating a text adds its places as running it does. -/
theorem evaluate (h : s.Entered Q) (hrun : s.evaluate n source = some (v, t)) :
    t.Entered fun a => Q a ∨ (readSource s.names source).Place a := by
  have hread : ∀ u : Session, u.names = (readExpression s.names source).names →
      u.machine = s.machine → u.Entered fun a => Q a ∨ (readSource s.names source).Place a := by
    intro u hnames hmachine
    have hextends : s.names.Extends u.names := hnames ▸ readSource_extends s.names source
    exact (h.grown hextends (congrArg Machine.store hmachine)).mono fun _ => .inl
  unfold Session.evaluate at hrun
  dsimp only at hrun
  cases hexpr : (readExpression s.names source).expr? with
  | none =>
    rw [hexpr] at hrun
    cases hrun
    exact hread _ rfl rfl
  | some e =>
    rw [hexpr] at hrun
    obtain ⟨r, hperform, hsettle⟩ := Option.map_eq_some_iff.mp hrun
    have he := (Parser.expr_entered hexpr).mono (Link.entered_within (.refl _)
      fun a b hab => (⟨.inr hab.1, hab.2⟩ : (Q a ∨ (readSource s.names source).Place a) ∧ b = a))
    have hr : r.2.Entered fun a => Q a ∨ (readSource s.names source).Place a := by
      refine perform (hread _ ?_ ?_) (fun K hK => ⟨_, (K.agreeWith_self n).evaluate e e ?_⟩)
        hperform
      · rfl
      · rfl
      · rw [hK]
        exact he
    exact hr.settle hsettle

end Entered

/-! ## What a host does -/

/-- A use of a session by a host that keeps to its names: these are the names in the code it
brings. -/
inductive ProperStep (s : Session) : Session → Prop where
  | read (source : String) : ProperStep s (s.read source).2
  | run : s.run n source = some u → ProperStep s u
  | evaluate : s.evaluate n source = some (v, u) → ProperStep s u
  | interpret : p.Linked (.entered s.names Eq) p → s.interpret n p = some u → ProperStep s u
  | executeEach : List.Forall₂ (Stmt.Linked (.entered s.names Eq)) stmts stmts →
      s.executeEach n stmts = some (r, u) → ProperStep s u
  | call : s.call n callee args span = some (v, u) → ProperStep s u
  | define (name : String) (v : Value) : ProperStep s (s.define name v)
  | takeOutput : ProperStep s s.takeOutput.2
  | takeLog : ProperStep s s.takeLog.2
  | takeDiagnostics : ProperStep s s.takeDiagnostics.2
  | resetSink : ProperStep s s.resetSink

theorem ProperStep.entered (hs : s.Entered fun _ => True) (h : s.ProperStep t) :
    t.Entered fun _ => True := by
  have hwithin : (Link.entered s.names Eq).Within (.entered s.names fun a b => True ∧ b = a) :=
    Link.entered_within (.refl _) fun _ _ hab => ⟨trivial, hab.symm⟩
  cases h with
  | read source => exact hs.grown (readSource_extends s.names source) rfl
  | run h => exact (hs.run h).mono fun _ _ => trivial
  | evaluate h => exact (hs.evaluate h).mono fun _ _ => trivial
  | interpret hp h => exact hs.interpret (Stmt.Linked.monoAll hwithin hp) h
  | executeEach hstmts h => exact hs.executeEach (Stmt.Linked.monoAll hwithin hstmts) h
  | call h => exact hs.call trivial h
  | define name v => exact hs.define name v
  | takeOutput | takeLog | takeDiagnostics | resetSink => exact ⟨hs.initial, hs.store⟩

/-- In every session that such a host can have, all names have been entered. -/
theorem entered_of_properSteps (h : Relation.ReflTransGen ProperStep (opened output) s) :
    s.Entered fun _ => True := by
  induction h with
  | refl => exact entered_opened output
  | tail _ hstep ih => exact hstep.entered ih

end Session

end TreeWalk
