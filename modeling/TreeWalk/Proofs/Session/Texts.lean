import TreeWalk.Proofs.Eval.Receivers
import TreeWalk.Proofs.Locations
import TreeWalk.Proofs.Session.Entered

/-!
# Sessions of texts

A session of texts is one in which all code was read from texts (`Session.TextStep`). Inside its
steps programs run, and each of them comes from moment to moment (`Session.Moment`). In every state
of such a session, between its steps and inside them, the store is closed and knit, and it develops
from there as it should.
-/

namespace TreeWalk

/-! ## Names in texts -/

theorem Interner.plain_of_get? {t : Interner} (hinitial : initial.Extends t)
    (h : t.get? text = some x) (hthis : text ≠ "this") (hsuper : text ≠ "super") : x.Plain := by
  have hother : ∀ {y word}, t.resolve? y = some word → y.id ≠ Symbol.bound - 2 →
      text ≠ word → x ≠ y := by
    intro y word hword hy hne hxy
    subst hxy
    exact hne (Option.some.inj ((resolve?_of_ne h hy).symm.trans hword))
  constructor
  · exact hother (hinitial (show initial.resolve? .this = some "this" by decide +kernel))
      (by decide) hthis
  · exact hother (hinitial (show initial.resolve? .super = some "super" by decide +kernel))
      (by decide) hsuper

/-- A name in a text is no keyword, and so it has not the symbol of one. -/
theorem Ident.Sited.plain {x : Ident} (hnames : Interner.initial.Extends names)
    (h : x.Sited (Scan.words names source)) : x.name.Plain := by
  obtain ⟨k, text, -, hmeans, -⟩ := Scan.exists_reads h
  cases hmeans with
  | ident _ hword hknows =>
    have hextends : names.Extends (scan names source).names :=
      Session.readSource_extends names source
    apply Interner.plain_of_get? (hnames.trans hextends) hknows.1
    · exact fun heq => hword .this (by rw [← String.toList_ofList (l := text), heq]; rfl)
    · exact fun heq => hword .super (by rw [← String.toList_ofList (l := text), heq]; rfl)

namespace Code

/-- The patterns of the arms, where the code is a `case`. -/
def patterns : Code → List Pattern
  | .expr e => e.patterns
  | .stmt _ => []

/-- No name at the piece of code is that of `this` or `super`. -/
structure Plain (a : Code) : Prop where
  idents : ∀ x ∈ a.idents, x.name.Plain
  patterns : ∀ p ∈ a.patterns, p.Everywhere fun q => ∀ x ∈ q.idents, x.name.Plain

/-- The piece of code is sited, and so are its patterns. -/
def Placed (tokens : List Token) : Code → Prop
  | .expr e => e.Placed tokens
  | .stmt s => s.Sited tokens

theorem Placed.plain {a : Code} (hnames : Interner.initial.Extends names)
    (h : a.Placed (Scan.words names source)) :
    a.Plain := by
  cases a with
  | expr e =>
    refine ⟨fun x hx => (Expr.Sited.idents h.1 x hx).plain hnames, fun p hp q hq x hx => ?_⟩
    exact ((h.2 p hp q hq).idents x hx).plain hnames
  | stmt s =>
    exact ⟨fun x hx => (Stmt.Sited.idents h x hx).plain hnames, fun p hp =>
      absurd hp List.not_mem_nil⟩

theorem everywhere_placed {s : Stmt} (h : s.Everywhere (Stmt.Placed tokens)) :
    (Code.stmt s).Everywhere (Placed tokens) :=
  everywhere_stmt h

/-- If the code declares a class with a superclass, no class without one is declared in its
methods. -/
def Tidy : Code → Prop
  | .stmt (.classDecl _ (some _) methods) =>
    ∀ decl ∈ methods, ∀ s ∈ decl.body, (Code.stmt s).Rootless
  | _ => True

end Code

namespace Program

/-- The program was read from a text, with a table of names that starts with the keywords. -/
def IsRead (p : Program) : Prop :=
  ∃ names source, Interner.initial.Extends names ∧ p = (readSource names source).program

/-- Inside a method of a class with a superclass, no class without a superclass is declared. -/
def Tidy (p : Program) : Prop :=
  ∀ x y methods, p.Contains (.classDecl x (some y) methods) → ∀ decl ∈ methods, ∀ s ∈ decl.body,
    ∀ z others, ¬ (Stmt.classDecl z none others).Inside s

end Program

/-- The rule that parsed code keeps to. -/
def CodeRule.parsed (tidy : Prop) : CodeRule where
  Allows a := a.Plain ∧ (tidy → a.Tidy)
  tidy := tidy
  ident h hx := h.1.idents _ hx
  pattern h hp := h.1.patterns _ hp
  rootless htidy h hdecl hs := h.2 htidy _ hdecl _ hs

variable {tidy : Prop}

theorem Code.rootless_of_inside {s : Stmt}
    (h : ∀ z others, ¬ (Stmt.classDecl z none others).Inside s) :
    (Code.stmt s).Rootless := by
  refine Code.everywhere_stmt fun t ht => ⟨?_, fun e _ d _ => rfl⟩
  cases t with
  | classDecl z sup others =>
    cases sup with
    | none => exact absurd ht (h z others)
    | some y => rfl
  | _ => rfl

theorem Program.Tidy.everywhere {p : Program} (h : p.Tidy) (hs : s ∈ p.statements) :
    (Code.stmt s).Everywhere Code.Tidy := by
  refine Code.everywhere_stmt fun t ht => ⟨?_, fun e _ d _ => trivial⟩
  cases t with
  | classDecl x sup methods =>
    cases sup with
    | none => trivial
    | some y =>
      exact fun decl hdecl s' hs' =>
        Code.rootless_of_inside (h x y methods ⟨s, hs, ht⟩ decl hdecl s' hs')
  | _ => trivial

theorem Program.IsRead.allows {p : Program} (h : p.IsRead) (htidy : tidy → p.Tidy)
    (hs : s ∈ p.statements) :
    (Code.stmt s).Everywhere (CodeRule.parsed tidy).Allows := by
  obtain ⟨names, source, hnames, rfl⟩ := h
  have hplaced := Code.everywhere_placed ((readSource_placed names source).1 s hs)
  exact fun b hb => ⟨(hplaced b hb).plain hnames, fun ht => (htidy ht).everywhere hs b hb⟩

theorem allows_of_readExpression (hnames : Interner.initial.Extends names)
    (h : (readExpression names source).expr? = some e) :
    (Code.expr e).Everywhere (CodeRule.parsed tidy).Allows := by
  refine Code.everywhere_expr fun d hd => ⟨?_, fun _ => trivial⟩
  have hplaced : (Code.expr d).Placed (Scan.words names source) := readExpression_placed h d hd
  exact hplaced.plain hnames

/-- All places that the value holds are there. -/
def Value.In (S : Store) (v : Value) : Prop :=
  ∀ p, v.Mentions p → S.Has p

namespace Session

/-! ## Steps and moments -/

section

variable (Q : Program → Prop) (s : Session)

/-- A use of a session by a host that brings no code but what was read from texts, no values but
those of the session, and defines no keyword. Of all its programs `Q` holds. -/
inductive TextStep : Session → Prop where
  | read (source : String) : TextStep (s.read source).2
  | run : Q (readSource s.names source).program → s.run n source = some u → TextStep u
  | evaluate : s.evaluate n source = some (v, u) → TextStep u
  | interpret : p.IsRead → Q p → s.interpret n p = some u → TextStep u
  | executeEach :
      p.IsRead → Q p → stmts ⊆ p.statements → s.executeEach n stmts = some (r, u) → TextStep u
  | call : callee.In s.machine.store → (∀ v ∈ args, v.In s.machine.store) →
      s.call n callee args span = some (v, u) → TextStep u
  | define : Keyword.ofText? name = none → v.In s.machine.store → TextStep (s.define name v)
  | takeOutput : TextStep s.takeOutput.2
  | takeLog : TextStep s.takeLog.2
  | takeDiagnostics : TextStep s.takeDiagnostics.2
  | resetSink : TextStep s.resetSink

/-- A session of texts after any number of steps, whatever came of each. -/
def OfTexts : Prop :=
  ∃ output, Relation.ReflTransGen (TextStep Q) (opened output) s

/-- With `n` units of fuel, some step from here starts a task in the state `m`. The step need not
come to an end. -/
inductive Starts (n : Nat) : Interner → Task → Machine → Prop where
  | run : Q (readSource s.names source).program → (readSource s.names source).diagnostics = [] →
      Eval.InStmts (readSource s.names source).names n
        (readSource s.names source).program.statements s.machine stmt m →
      Starts n (readSource s.names source).names (.execute stmt) m
  | evaluate : (readExpression s.names source).expr? = some e →
      Starts n (readExpression s.names source).names (.evaluate e) s.machine
  | interpret : p.IsRead → Q p → Eval.InStmts s.names n p.statements s.machine stmt m →
      Starts n s.names (.execute stmt) m
  | execute : p.IsRead → Q p → stmt ∈ p.statements → Starts n s.names (.execute stmt) s.machine
  | call : callee.In s.machine.store → (∀ v ∈ args, v.In s.machine.store) →
      Starts n s.names (.call callee args span) s.machine

/-- Inside some step from here, a task is done with `k` units of fuel from the state `m` on. -/
def Moment (names : Interner) (k : Nat) (t : Task) (m : Machine) : Prop :=
  ∃ n t₀ m₀, s.Starts Q n names t₀ m₀ ∧ Eval.Visits names n t₀ m₀ k t m

end

/-! ## Sessions stay sound -/

/-- The table starts with the keywords, the store is sound, and names are declared in the outermost
frame. -/
structure Sound (rule : CodeRule) (s : Session) : Prop where
  initial : Interner.initial.Extends s.names
  store : s.machine.store.Sound rule
  current : s.machine.current = Machine.globals
  globals : s.machine.store.Open Machine.globals

variable {Q : Program → Prop} {s u : Session} {rule : CodeRule}

theorem frame_initial {f : FrameId} (h : Store.initial.frames[f]? = some frame) : frame = {} := by
  obtain rfl : f = 0 := Nat.lt_one_iff.mp (Array.getElem?_eq_some_iff.mp h).1
  exact (Option.some.inj h).symm

theorem not_refers_initial : ¬ Store.initial.Refers p q := by
  intro h
  have hhas := h.has
  cases h with
  | parent hp =>
    obtain ⟨frame, hf, hp⟩ := Option.bind_eq_some_iff.mp hp
    rw [frame_initial hf] at hp
    cases hp
  | binding hx _ =>
    rw [Store.bindingsOf_eq (Array.getElem?_eq_getElem hhas),
      frame_initial (Array.getElem?_eq_getElem hhas)] at hx
    cases hx
  | closure | method | superclass | objectClass | field => exact absurd hhas (Nat.not_lt_zero _)

theorem sound_initial (rule : CodeRule) : Store.initial.Sound rule := by
  have hdeclares : ∀ k c, ¬ Store.initial.Declares k c := fun k c hc =>
    absurd hc.lt (Nat.not_lt_zero k)
  refine ⟨⟨fun p hp => ?_, fun p q _ hpq => absurd hpq not_refers_initial⟩,
    ⟨fun f frame hf p hp => ?_, fun f frame hf => ?_, fun k l hl => ?_, fun k c hc =>
    absurd hc (hdeclares k c), fun k info x c hinfo _ => ?_,
    fun f c hc => ?_⟩⟩
  · cases p <;> exact absurd hp (Nat.not_lt_zero _)
  · rw [frame_initial hf] at hp
    cases hp
  · rw [frame_initial hf]
    exact .code ⟨rfl, rfl⟩ fun p hp => absurd hp (Option.some_ne_none p).symm
  · exact absurd (Store.lt_of_superclass hl) (Nat.not_lt_zero k)
  · exact absurd (Array.getElem?_eq_some_iff.mp hinfo).1 (Nat.not_lt_zero k)
  · exact absurd (Array.getElem?_eq_some_iff.mp hc).1 (Nat.not_lt_zero f)

theorem sound_opened (rule : CodeRule) (output : Output) : (opened output).Sound rule :=
  ⟨.refl _, sound_initial rule, rfl, _, rfl, rfl, rfl⟩

/-- A session with the same frame to declare in goes on from a store that developed as it should. -/
theorem Sound.follow (h : s.Sound rule) (hnames : s.names.Extends u.names)
    (hfollows : (Regime.knit rule).Follows s.machine u.machine) :
    u.Sound rule ∧ s.machine.store.Develops u.machine.store :=
  ⟨⟨h.initial.trans hnames, hfollows.good, hfollows.current.trans h.current,
    hfollows.grows.keeps.isOpen h.globals⟩, hfollows.grows⟩

/-- A step that changes neither the store nor the current frame. -/
theorem Sound.still (h : s.Sound rule) (hnames : s.names.Extends u.names)
    (hstore : u.machine.store = s.machine.store) (hcurrent : u.machine.current =
        s.machine.current) : u.Sound rule ∧ s.machine.store.Develops u.machine.store :=
  h.follow hnames (.still h.store hstore hcurrent)

/-- In the outermost frame there is no `super`. -/
theorem Sound.super_unseen (h : s.Sound rule) :
    s.machine.store.lookup? s.machine.current .super = none := by
  obtain ⟨frame, hframe, hord⟩ := h.globals
  rw [h.current, Store.lookup?_ordinary h.store.knit.older hframe hord fun hx => hx.2 rfl]
  cases hparent : frame.parent with
  | none => rfl
  | some p => exact absurd (h.store.knit.older _ frame hframe p hparent) (Nat.not_lt_zero p)

theorem Sound.runs (h : s.Sound rule) (ha : a.Everywhere rule.Allows) :
    s.machine.store.Runs rule s.machine.current a :=
  ⟨ha, fun _ hsuper => absurd h.super_unseen hsuper⟩

theorem Sound.isOpen (h : s.Sound rule) : s.machine.store.Open s.machine.current :=
  h.current ▸ h.globals

theorem Sound.executes (h : s.Sound rule) (hstmt : (Code.stmt stmt).Everywhere rule.Allows) :
    (Regime.knit rule).Executes s.machine.store s.machine.current stmt :=
  .of_own h.isOpen (h.runs hstmt)

/-- Performing a computation that keeps to the rule. -/
theorem Sound.perform {act : Eval α} {V : Store → α → Prop} (h : s.Sound rule)
    (hact : (Regime.knit rule).Sound s.machine.store s.machine.current act V)
    (hperform : s.perform act = some (r, u)) :
    u.Sound rule ∧ s.machine.store.Develops u.machine.store := by
  have hends := hact s.names s.machine rfl (Regime.knit rule).grows_refl h.store
  have hnames : s.names.Extends u.names := by
    rw [perform_names hperform]
    exact .refl _
  unfold Session.perform at hperform
  cases hout : act s.names s.machine with
  | ok a m =>
    rw [hout] at hends hperform
    cases hperform
    exact h.follow hnames ⟨hends.1.current, hends.1.grows, hends.1.good⟩
  | fault e m =>
    rw [hout] at hends hperform
    cases hperform
    exact h.follow hnames ⟨hends.1.current, hends.1.grows, hends.1.good⟩
  | exhausted =>
    rw [hout] at hperform
    cases hperform

theorem Sound.settle {S : Store} {r : Except RuntimeError α × Session}
    (h : r.2.Sound rule ∧ S.Develops r.2.machine.store) (hsettle : Session.settle r = (v, u)) :
    u.Sound rule ∧ S.Develops u.machine.store := by
  obtain ⟨r, t⟩ := r
  cases r with
  | ok a => cases hsettle; exact h
  | error e => cases hsettle; exact ⟨⟨h.1.initial, h.1.store, h.1.current, h.1.globals⟩, h.2⟩

theorem Sound.interpret (h : s.Sound rule)
    (hp : ∀ stmt ∈ p.statements, (Code.stmt stmt).Everywhere rule.Allows) (hrun : s.interpret n p =
        some u) : u.Sound rule ∧ s.machine.store.Develops u.machine.store := by
  obtain ⟨⟨r, t⟩, hperform, hrun⟩ := Option.bind_eq_some_iff.mp hrun
  have ht := h.perform
    ((Regime.knit rule).executeProgram n fun stmt hstmt => h.executes (hp stmt hstmt)) hperform
  cases r with
  | ok a => cases hrun; exact ht
  | error e => cases hrun; exact ⟨⟨ht.1.initial, ht.1.store, ht.1.current, ht.1.globals⟩, ht.2⟩

theorem Sound.executeEach (h : s.Sound rule)
    (hstmts : ∀ stmt ∈ stmts, (Code.stmt stmt).Everywhere rule.Allows)
    (hrun : s.executeEach n stmts = some (r, u)) :
    u.Sound rule ∧ s.machine.store.Develops u.machine.store := by
  induction stmts generalizing s r with
  | nil =>
    cases hrun
    exact ⟨h, (Regime.knit rule).grows_refl⟩
  | cons stmt stmts ih =>
    obtain ⟨⟨flow, t⟩, hperform, hrun⟩ := Option.bind_eq_some_iff.mp hrun
    obtain ⟨⟨flows, w⟩, hrest, hrun⟩ := Option.bind_eq_some_iff.mp hrun
    cases hrun
    obtain ⟨ht, hdevelops⟩ := h.perform
      ((Regime.knit rule).execute n (h.executes (hstmts stmt List.mem_cons_self))) hperform
    obtain ⟨hu, hdevelops'⟩ := ih ht (fun s hs => hstmts s (List.mem_cons_of_mem _ hs)) hrest
    exact ⟨hu, (Regime.knit rule).grows_trans hdevelops hdevelops'⟩

theorem Sound.evaluate (h : s.Sound (.parsed tidy)) (hrun : s.evaluate n source = some (v, u)) :
    u.Sound (.parsed tidy) ∧ s.machine.store.Develops u.machine.store := by
  have hextends : s.names.Extends (readExpression s.names source).names :=
    readSource_extends s.names source
  unfold Session.evaluate at hrun
  dsimp only at hrun
  cases hexpr : (readExpression s.names source).expr? with
  | none =>
    rw [hexpr] at hrun
    cases hrun
    exact h.still hextends rfl rfl
  | some e =>
    rw [hexpr] at hrun
    obtain ⟨r, hperform, hsettle⟩ := Option.map_eq_some_iff.mp hrun
    have hread := (h.still (u := { s.absorb (readExpression s.names source).log
      (readExpression s.names source).diagnostics with names :=
        (readExpression s.names source).names })
      hextends rfl rfl).1
    have hrun := hread.runs (allows_of_readExpression h.initial hexpr)
    have hr := hread.perform ((Regime.knit _).evaluate n hread.isOpen.lexical hrun) hperform
    exact Sound.settle hr hsettle

/-- A host may call at any place. -/
theorem site_parsed (span : Span) : (Regime.knit (.parsed tidy)).Site span :=
  ⟨.this default, [],
    ⟨fun _ hx => absurd hx List.not_mem_nil, fun _ hp => absurd hp List.not_mem_nil⟩,
    fun _ => trivial⟩

theorem Sound.call (h : s.Sound (.parsed tidy)) (hcallee : callee.In s.machine.store)
    (hargs : ∀ v ∈ args, v.In s.machine.store) (hrun : s.call n callee args span = some (v, u)) :
    u.Sound (.parsed tidy) ∧ s.machine.store.Develops u.machine.store := by
  obtain ⟨r, hperform, hsettle⟩ := Option.map_eq_some_iff.mp hrun
  have hcall :=
    (Regime.knit (.parsed tidy)).call n s.machine.current (Store.holds_closed.mpr hcallee)
      (fun v hv => Store.holds_closed.mpr (hargs v hv)) (site_parsed span)
  exact Sound.settle (h.perform hcall hperform) hsettle

theorem Sound.define (h : s.Sound rule) (hname : Keyword.ofText? name = none)
    (hv : v.In s.machine.store) :
    (s.define name v).Sound rule ∧ s.machine.store.Develops (s.define name v).machine.store := by
  have hextends : s.names.Extends (s.names.intern name).2 := Interner.extends_intern s.names name
  have hother : ∀ w : Keyword, name ≠ w.text := by
    intro w heq
    have hmem : w ∈ Keyword.all := by cases w <;> decide
    have hne := List.find?_eq_none.mp hname w hmem
    simp [heq] at hne
  have hplain : (s.names.intern name).1.Plain :=
    Interner.plain_of_get? (h.initial.trans hextends) (Interner.get?_intern s.names name)
      (hother .this) (hother .super)
  obtain ⟨hgood, hgrows⟩ :=
    (Regime.knit rule).define h.store h.globals hplain (Store.holds_closed.mpr hv)
  exact h.follow hextends ⟨rfl, hgrows, hgood⟩

/-- What is asked of the programs of a session. -/
def Permits (Q : Program → Prop) (tidy : Prop) : Prop :=
  tidy → ∀ p, Q p → p.Tidy

/-- Every step of a session of texts keeps it sound, and lets its store develop as it should. -/
theorem TextStep.sound (hQ : Permits Q tidy) (h : s.Sound (.parsed tidy)) (hstep : TextStep Q s u) :
    u.Sound (.parsed tidy) ∧ s.machine.store.Develops u.machine.store := by
  have hallows : ∀ {p stmt}, p.IsRead → Q p → stmt ∈ p.statements →
      (Code.stmt stmt).Everywhere (CodeRule.parsed tidy).Allows :=
    fun hread hp hstmt => hread.allows (fun ht => hQ ht _ hp) hstmt
  cases hstep with
  | read source => exact h.still (readSource_extends s.names source) rfl rfl
  | @run source n _ hp hrun =>
    have hread := h.still (readSource_extends s.names source) (u := (s.read source).2) rfl rfl
    by_cases hsound : (readSource s.names source).diagnostics = []
    · rw [run_eq_interpret s hsound] at hrun
      exact hread.1.interpret
        (fun stmt hstmt => hallows ⟨s.names, source, h.initial, rfl⟩ hp hstmt) hrun
    · obtain ⟨t, ht, hnames, hmachine, -⟩ := s.exists_run_faulty hsound
      obtain rfl : t = u := Option.some.inj ((ht n).symm.trans hrun)
      exact h.still (hnames ▸ readSource_extends s.names source) (by rw [hmachine])
        (by rw [hmachine])
  | evaluate hrun => exact h.evaluate hrun
  | interpret hread hp hrun => exact h.interpret (fun stmt hstmt => hallows hread hp hstmt) hrun
  | executeEach hread hp hsub hrun =>
    exact h.executeEach (fun stmt hstmt => hallows hread hp (hsub hstmt)) hrun
  | call hcallee hargs hrun => exact h.call hcallee hargs hrun
  | define hname hv => exact h.define hname hv
  | takeOutput | takeLog | takeDiagnostics | resetSink => exact h.still (.refl _) rfl rfl

/-- Every session of texts is sound. -/
theorem OfTexts.sound (hQ : Permits Q tidy) (h : OfTexts Q s) : s.Sound (.parsed tidy) := by
  obtain ⟨output, hsteps⟩ := h
  induction hsteps with
  | refl => exact sound_opened _ output
  | tail _ hstep ih => exact (hstep.sound hQ ih).1

/-- Every moment inside a step keeps to the rule. -/
theorem Moment.leads {names : Interner} (hQ : Permits Q tidy) (h : s.Sound (.parsed tidy))
    (hmoment : s.Moment Q names k t m) : (Regime.knit (.parsed tidy)).Leads s.machine t m := by
  obtain ⟨n, t₀, m₀, hstarts, hvisits⟩ := hmoment
  have hallows : ∀ {p stmt}, p.IsRead → Q p → stmt ∈ p.statements →
      (Code.stmt stmt).Everywhere (CodeRule.parsed tidy).Allows :=
    fun hread hp hstmt => hread.allows (fun ht => hQ ht _ hp) hstmt
  have hstart : (Regime.knit (.parsed tidy)).Leads s.machine t₀ m₀ := by
    cases hstarts with
    | @run source stmt _ hp _ hin =>
      exact Regime.leads_inStmts hin
        (fun stmt hstmt => h.executes (hallows ⟨s.names, source, h.initial, rfl⟩ hp hstmt))
        h.store
    | evaluate hexpr =>
      exact (Regime.Follows.refl h.store).leads ⟨h.isOpen.lexical,
        h.runs (allows_of_readExpression h.initial hexpr)⟩
    | interpret hread hp hin =>
      exact Regime.leads_inStmts hin (fun stmt hstmt => h.executes (hallows hread hp hstmt)) h.store
    | execute hread hp hstmt =>
      exact (Regime.Follows.refl h.store).leads (h.executes (hallows hread hp hstmt))
    | call hcallee hargs =>
      exact (Regime.Follows.refl h.store).leads
        ⟨Store.holds_closed.mpr hcallee, fun v hv => Store.holds_closed.mpr (hargs v hv),
          site_parsed _⟩
  have hleads := Regime.Leads.visits hvisits hstart.good hstart.fit
  exact hleads.after hstart.grows

end Session

end TreeWalk
