import TreeWalk.Proofs.Eval.Regime

/-!
# Moments inside a run

A run does its work by evaluating the parts of expressions, executing the parts of statements and
calling functions. `Eval.Enters` says to which such tasks a task comes, and in which state of the
machine. Every regime holds at each moment of a run (`Regime.Leads.visits`), and not only where the
run ends: it may end with an error, or never.
-/

namespace TreeWalk

/-- Something that a run does with some fuel. -/
inductive Task where
  | evaluate (e : Expr)
  | execute (s : Stmt)
  | call (callee : Value) (args : List Value) (span : Span)

/-- The part that is evaluated before anything else is done. -/
def Expr.first? : Expr → Option Expr
  | .grouping e _ | .unary _ e _ | .binary e _ _ _ | .assign _ e | .call e _ _ | .get e _
  | .set e _ _ | .letIn _ e _ _ | .cond e _ _ _ | .case e _ _ => some e
  | _ => none

/-- The expression that is evaluated before anything else is done. -/
def Stmt.first? : Stmt → Option Expr
  | .expr e | .print e _ => some e
  | .varDecl _ e | .ret e _ => e
  | _ => none

/-- The state in which the body of a function starts. -/
def Machine.invoking (m : Machine) (c : Closure) (args : List Value) : Machine :=
  { m with events := m.events.push (.called c.name args.length) }.nest c.scope
    ((c.decl.params.map Ident.name).zip args)

namespace Eval

section

variable (names : Interner) (n : Nat)

/-- Where all expressions are evaluated from left to right, starting in `m`, the evaluation of `d`
starts in `m'`. -/
inductive InAll : List Expr → Machine → Expr → Machine → Prop
  | here : InAll (e :: es) m e m
  | later : evaluate n e names m = .ok v m₁ → InAll es m₁ d m' → InAll (e :: es) m d m'

/-- Where statements are executed up to the first that returns, starting in `m`, the execution of
`t` starts in `m'`. -/
inductive InStmts : List Stmt → Machine → Stmt → Machine → Prop
  | here : InStmts (s :: ss) m s m
  | later : execute n s names m = .ok .normal m₁ → InStmts ss m₁ t m' → InStmts (s :: ss) m t m'

/-- In an arm whose pattern matched, the evaluation of the expression starts in `m'`. -/
inductive InArm (arm : CaseArm) (m : Machine) : Expr → Machine → Prop
  | guard : arm.guard = some g → InArm arm m g m
  | body : arm.guard = none → InArm arm m arm.body m
  | guarded : arm.guard = some g → evaluate n g names m = .ok v m₁ → v.isTruthy = true →
      InArm arm m arm.body m₁

/-- Where the arms are tried in order, the evaluation of the expression starts in `m'`. -/
inductive InArms (v : Value) : List CaseArm → Machine → Expr → Machine → Prop
  | here {m : Machine} {arm : CaseArm} {arms : List CaseArm} {bound : List Binding} :
      arm.pattern.tryMatch names v [] = (true, bound) →
      InArm names n arm (m.nest m.current bound) e m' → InArms v (arm :: arms) m e m'
  | missed {m : Machine} {arm : CaseArm} {arms : List CaseArm} :
      arm.pattern.tryMatch names v [] = (false, bound) → InArms v arms m e m' →
        InArms v (arm :: arms) m e m'
  | refused {m : Machine} {arm : CaseArm} {arms : List CaseArm} {bound : List Binding} :
      arm.pattern.tryMatch names v [] = (true, bound) →
      nested bound (armValue (evaluate n) arm) names m = .ok none m₁ → InArms v arms m₁ e m' →
      InArms v (arm :: arms) m e m'

end

/-- The parts of a loop, in the order in which they have their turns. -/
inductive LoopPart where
  | test
  | body
  | step

/-- In a loop that starts in `m`, some turn of the part starts in `m'`. -/
inductive InLoop (names : Interner) (test : Eval Bool) (body : Eval Flow) (step : Eval Unit)
    (m : Machine) :
    LoopPart → Machine → Prop
  | first : InLoop names test body step m .test m
  | body : InLoop names test body step m .test m₁ → test names m₁ = .ok true m₂ →
      InLoop names test body step m .body m₂
  | step : InLoop names test body step m .body m₁ → body names m₁ = .ok .normal m₂ →
      InLoop names test body step m .step m₂
  | again : InLoop names test body step m .step m₁ → step names m₁ = .ok () m₂ →
      InLoop names test body step m .test m₂

/-- Calling the value comes to running the body of `c`, from `m'` on. -/
inductive Invokes (args : List Value) (m : Machine) : Value → Closure → Machine → Prop
  | function : m.store.functions[f]? = some c → c.arity = args.length →
      Invokes args m (.function f) c m
  | initializer :
      (m.store.addObject { cls := k }).2.findMethod? k .init = some c → c.arity = args.length →
      ((m.store.addObject { cls := k }).2.bindMethod c
        (.object (m.store.addObject { cls := k }).1)) = (ready, S) →
      Invokes args m (.class_ k) ready { m with store := S }

/-- Doing the first task with `n + 1` units of fuel, from `m` on, comes to doing the second with
`n`, from `m'` on. -/
inductive Enters (names : Interner) (n : Nat) : Task → Machine → Task → Machine → Prop
  | first : e.first? = some d → Enters names n (.evaluate e) m (.evaluate d) m
  | right : evaluate n l names m = .ok v m₁ → op.decided? v = none →
      Enters names n (.evaluate (.binary l op r span)) m (.evaluate r) m₁
  | arg : evaluate n e names m = .ok v m₁ → InAll names n args m₁ d m' →
      Enters names n (.evaluate (.call e args span)) m (.evaluate d) m'
  | call : evaluate n e names m = .ok v m₁ → evaluateAll (evaluate n) args names m₁ = .ok vs m₂ →
      Enters names n (.evaluate (.call e args span)) m (.call v vs span) m₂
  | value : evaluate n e names m = .ok (.object o) m₁ →
      Enters names n (.evaluate (.set e x d)) m (.evaluate d) m₁
  | inLet {x : Ident} : evaluate n d names m = .ok v m₁ →
      Enters names n (.evaluate (.letIn x d e span)) m (.evaluate e)
        (m₁.nest m₁.current [(x.name, v)])
  | inSeq : InAll names n es (m.nest m.current []) e m' →
      Enters names n (.evaluate (.seq es span)) m (.evaluate e) m'
  | yes : evaluate n c names m = .ok v m₁ → v.isTruthy = true →
      Enters names n (.evaluate (.cond c d e span)) m (.evaluate d) m₁
  | no : evaluate n c names m = .ok v m₁ → v.isTruthy = false →
      Enters names n (.evaluate (.cond c d e span)) m (.evaluate e) m₁
  | inTuple : InAll names n es m e m' →
      Enters names n (.evaluate (.tuple es span)) m (.evaluate e) m'
  | inVector : InAll names n es m e m' →
      Enters names n (.evaluate (.vector es span)) m (.evaluate e) m'
  | inCase : evaluate n d names m = .ok v m₁ → InArms names n v arms m₁ e m' →
      Enters names n (.evaluate (.case d arms span)) m (.evaluate e) m'
  | ofStmt : s.first? = some e → Enters names n (.execute s) m (.evaluate e) m
  | inBlock : InStmts names n ss (m.nest m.current []) s m' →
      Enters names n (.execute (.block ss span)) m (.execute s) m'
  | whileTest : InLoop names (holds (evaluate n) c) (execute n body) (return ()) m .test m' →
      Enters names n (.execute (.whileLoop c body span)) m (.evaluate c) m'
  | whileBody : InLoop names (holds (evaluate n) c) (execute n body) (return ()) m .body m' →
      Enters names n (.execute (.whileLoop c body span)) m (.execute body) m'
  | forever :
      InLoop names (return true) (nested [] (executeAll (execute n) ss)) (return ()) m .body m₁ →
      InStmts names n ss (m₁.nest m₁.current []) s m' →
      Enters names n (.execute (.forever ss span)) m (.execute s) m'
  | forInit : Enters names n (.execute (.forLoop (some s) c inc body span)) m (.execute s)
      (m.nest m.current [])
  | forTest : prepare (execute n) init names (m.nest m.current []) = .ok () m₁ →
      InLoop names (holdsIfGiven (evaluate n) (some c)) (execute n body) (effect (evaluate n) inc)
        m₁ .test m' →
      Enters names n (.execute (.forLoop init (some c) inc body span)) m (.evaluate c) m'
  | forBody : prepare (execute n) init names (m.nest m.current []) = .ok () m₁ →
      InLoop names (holdsIfGiven (evaluate n) c) (execute n body) (effect (evaluate n) inc)
        m₁ .body m' →
      Enters names n (.execute (.forLoop init c inc body span)) m (.execute body) m'
  | forStep : prepare (execute n) init names (m.nest m.current []) = .ok () m₁ →
      InLoop names (holdsIfGiven (evaluate n) c) (execute n body) (effect (evaluate n) (some e))
        m₁ .step m' →
      Enters names n (.execute (.forLoop init c (some e) body span)) m (.evaluate e) m'
  | inBody : Invokes args m callee c m₁ → InStmts names n c.decl.body (m₁.invoking c args) s m' →
      Enters names n (.call callee args span) m (.execute s) m'

/-- Doing the first task with `n` units of fuel, from `m` on, comes to doing the second with `k`,
from `m'` on. -/
inductive Visits (names : Interner) (n : Nat) (t : Task) (m : Machine) : Nat → Task → Machine → Prop
  | refl : Visits names n t m n t m
  | enter : Visits names n t m (k + 1) t₁ m₁ → Enters names k t₁ m₁ t₂ m₂ →
      Visits names n t m k t₂ m₂

/-- Doing the task with `k` units of fuel, from `m` on, ends in `m'`, with a value or an error. -/
def Completes (names : Interner) (k : Nat) : Task → Machine → Machine → Prop
  | .evaluate e, m, m' => (evaluate k e names m).machine? = some m'
  | .execute s, m, m' => (execute k s names m).machine? = some m'
  | .call callee args span, m, m' => (call k callee args span names m).machine? = some m'

end Eval

namespace Regime

variable {R : Regime} {m m' : Machine} {names : Interner} {n : Nat}

/-- The task may be done in the state. -/
def Fit (R : Regime) : Task → Machine → Prop
  | .evaluate e, m => R.Scope m.store m.current ∧ R.Runs m.store m.current (.expr e)
  | .execute s, m => R.Executes m.store m.current s
  | .call callee args span, m =>
    R.Holds m.store callee ∧ (∀ v ∈ args, R.Holds m.store v) ∧ R.Site span

/-- From `m`, a run may come to doing the task in `m'`. -/
structure Leads (R : Regime) (m : Machine) (t : Task) (m' : Machine) : Prop where
  grows : R.Grows m.store m'.store
  good : R.Good m'.store
  fit : R.Fit t m'

theorem Follows.refl (h : R.Good m.store) : R.Follows m m :=
  .still h rfl rfl

/-- What holds where a computation ends that is started in a later state of its frame. -/
theorem Sound.reaches {act : Eval α} {V : Store → α → Prop} (h : R.Sound m.store m.current act V)
    (hm : R.Follows m m₁) (ho : act names m₁ = .ok a m') : R.Follows m₁ m' ∧ V m'.store a := by
  have hends := h names m₁ hm.current hm.grows hm.good
  rwa [ho] at hends

theorem RunsAll.follows (h : R.RunsAll m.store m.current es) (hm : R.Follows m m') :
    R.RunsAll m'.store m'.current es := by
  rw [hm.current]
  exact h.mono hm.grows

theorem Executes.follows (h : R.Executes m.store m.current s) (hm : R.Follows m m') :
    R.Executes m'.store m'.current s := by
  rw [hm.current]
  exact h.mono hm.grows

/-- Expressions that may be evaluated in a frame may be evaluated in a new one inside it. -/
theorem RunsAll.nest (h : R.RunsAll m.store m.current es) (hgood : R.Good m.store)
    (hpairs : R.Carries m.store pairs) :
    R.Good (m.nest m.current pairs).store ∧ R.Grows m.store (m.nest m.current pairs).store ∧
      R.RunsAll (m.nest m.current pairs).store (m.nest m.current pairs).current es := by
  obtain ⟨hgood', hgrows, hown, hruns⟩ := R.extend hgood h.1 hpairs
  exact ⟨hgood', hgrows, R.scope_of_own hown, fun e he => hruns _ (h.2 e he)⟩

/-- Statements may be executed in a new frame inside the one where they stand. -/
theorem executes_nest {ss : List Stmt} (hscope : R.Scope m.store m.current)
    (h : ∀ s ∈ ss, R.Runs m.store m.current (.stmt s))
    (hgood : R.Good m.store) :
    R.Good (m.nest m.current []).store ∧ R.Grows m.store (m.nest m.current []).store ∧
      ∀ s ∈ ss, R.Executes (m.nest m.current []).store (m.nest m.current []).current s := by
  obtain ⟨hgood', hgrows, hown, hruns⟩ := R.extend hgood hscope carries_nil
  exact ⟨hgood', hgrows, fun s hs => .of_own hown (hruns _ (h s hs))⟩

/-! ## Parts in order -/

theorem follows_inAll (h : Eval.InAll names n es m d m') (hes : R.RunsAll m.store m.current es)
    (hgood : R.Good m.store) : R.Follows m m' ∧ d ∈ es := by
  induction h with
  | here => exact ⟨.refl hgood, List.mem_cons_self⟩
  | later he _ ih =>
    have hfollows := ((R.evaluate n hes.1 (hes.2 _ List.mem_cons_self)).reaches (.refl hgood) he).1
    obtain ⟨hfollows', hd⟩ :=
      ih ((hes.subset (List.subset_cons_self _ _)).follows hfollows) hfollows.good
    exact ⟨hfollows.trans hfollows', List.mem_cons_of_mem _ hd⟩

theorem follows_inStmts (h : Eval.InStmts names n ss m t m')
    (hss : ∀ s ∈ ss, R.Executes m.store m.current s) (hgood : R.Good m.store) :
    R.Follows m m' ∧ t ∈ ss := by
  induction h with
  | here => exact ⟨.refl hgood, List.mem_cons_self⟩
  | later hs _ ih =>
    have hfollows := ((R.execute n (hss _ List.mem_cons_self)).reaches (.refl hgood) hs).1
    obtain ⟨hfollows', ht⟩ :=
      ih (fun s hs => (hss s (List.mem_cons_of_mem _ hs)).follows hfollows) hfollows.good
    exact ⟨hfollows.trans hfollows', List.mem_cons_of_mem _ ht⟩

theorem follows_inLoop {test : Eval Bool} {body : Eval Flow} {step : Eval Unit}
    {U : Store → Bool → Prop} {V : Store → Flow → Prop} {W : Store → Unit → Prop}
    (h : Eval.InLoop names test body step m part m') (htest : R.Sound m.store m.current test U)
    (hbody : R.Sound m.store m.current body V) (hstep : R.Sound m.store m.current step W)
    (hgood : R.Good m.store) : R.Follows m m' := by
  induction h with
  | first => exact .refl hgood
  | body _ ho ih => exact ih.trans (htest.reaches ih ho).1
  | step _ ho ih => exact ih.trans (hbody.reaches ih ho).1
  | again _ ho ih => exact ih.trans (hstep.reaches ih ho).1

theorem follows_inArm (h : Eval.InArm names n arm m e m')
    (harm : R.RunsAll m.store m.current arm.exprs) (hgood : R.Good m.store) :
    R.Follows m m' ∧ e ∈ arm.exprs := by
  have hbody : arm.body ∈ arm.exprs := List.mem_append_right _ List.mem_cons_self
  have hguard : ∀ {g}, arm.guard = some g → g ∈ arm.exprs := by
    intro g hg
    apply List.mem_append_left
    rw [hg]
    exact List.mem_cons_self
  cases h with
  | guard hg => exact ⟨.refl hgood, hguard hg⟩
  | body _ => exact ⟨.refl hgood, hbody⟩
  | guarded hg he _ =>
    exact ⟨((R.evaluate n harm.1 (harm.2 _ (hguard hg))).reaches (.refl hgood) he).1, hbody⟩

theorem carries_of_match {S : Store} {p : Pattern} (hp : R.PatternBinds p) (hv : R.Holds S v)
    (hmatch : p.tryMatch names v [] = (matched, bound)) : R.Carries S bound := by
  have hcarries : R.Carries S (p.tryMatch names v []).2 := carries_tryMatch hp hv carries_nil
  rwa [hmatch] at hcarries

theorem leads_inArms (h : Eval.InArms names n v arms m e m')
    (harms : ∀ arm ∈ arms, R.RunsAll m.store m.current arm.exprs ∧ R.PatternBinds arm.pattern)
    (hv : R.Holds m.store v) (hgood : R.Good m.store) : R.Leads m (.evaluate e) m' := by
  induction h with
  | here hmatch hin =>
    obtain ⟨hexprs, hpattern⟩ := harms _ List.mem_cons_self
    obtain ⟨hgood', hgrows, hnew⟩ := hexprs.nest hgood (carries_of_match hpattern hv hmatch)
    obtain ⟨hfollows, he⟩ := follows_inArm hin hnew hgood'
    have hthere := hnew.follows hfollows
    exact ⟨R.grows_trans hgrows hfollows.grows, hfollows.good, hthere.1, hthere.2 _ he⟩
  | missed _ _ ih => exact ih (fun a ha => harms a (List.mem_cons_of_mem _ ha)) hv hgood
  | refused hmatch hvalue _ ih =>
    obtain ⟨hexprs, hpattern⟩ := harms _ List.mem_cons_self
    have harm := Sound.matchedArm (R.evaluate n) hexprs (carries_of_match hpattern hv hmatch)
    have hfollows := (harm.reaches (.refl hgood) hvalue).1
    have hrest := fun a ha => harms a (List.mem_cons_of_mem _ ha)
    have hleads := ih (fun a ha => ⟨(hrest a ha).1.follows hfollows, (hrest a ha).2⟩)
      (R.holds_mono hfollows.grows hv) hfollows.good
    exact ⟨R.grows_trans hfollows.grows hleads.grows, hleads.good, hleads.fit⟩

/-! ## Tasks -/

theorem leads_invokes (h : Eval.Invokes args m callee c m') (hcallee : R.Holds m.store callee)
    (hgood : R.Good m.store) : R.Follows m m' ∧ R.Callable m'.store c := by
  cases h with
  | function hc _ => exact ⟨.refl hgood, R.function hgood hcallee hc⟩
  | @initializer k init ready S hinit _ hready =>
    obtain ⟨hgood₁, hgrows₁, ho⟩ := R.addObject hgood hcallee
    have hcls : (m.store.addObject { cls := k }).2.objectClass? (m.store.addObject { cls := k }).1 =
        some k := by
      simp [Store.objectClass?, Store.addObject]
    obtain ⟨hgood₂, hgrows₂, hcallable⟩ := R.bindMethod hgood₁ ho hcls hinit
    rw [hready] at hgood₂ hgrows₂ hcallable
    exact ⟨⟨rfl, R.grows_trans hgrows₁ hgrows₂, hgood₂⟩, hcallable⟩

/-- The body of a function may be executed in its new frame. -/
theorem invoking (hc : R.Callable m.store c) (hargs : ∀ v ∈ args, R.Holds m.store v)
    (hgood : R.Good m.store) :
    R.Good (m.invoking c args).store ∧ R.Grows m.store (m.invoking c args).store ∧
      ∀ s ∈ c.decl.body, R.Executes (m.invoking c args).store (m.invoking c args).current s := by
  obtain ⟨hscope, hparams, hbody⟩ := R.callable hc
  obtain ⟨hgood', hgrows, hown, hruns⟩ := R.extend hgood hscope (carries_params hparams hargs)
  exact ⟨hgood', hgrows, fun s hs => .of_own hown (hruns _ (hbody s hs))⟩

theorem mem_parts_of_first {e d : Expr} (h : e.first? = some d) : d ∈ e.parts := by
  cases e <;> cases h <;> exact List.mem_cons_self

theorem mem_exprs_of_first {s : Stmt} {e : Expr} (h : s.first? = some e) : e ∈ s.exprs := by
  cases s with
  | expr | print => cases h; exact List.mem_cons_self
  | varDecl | ret => cases h; exact List.mem_cons_self
  | _ => cases h

theorem Follows.leads (h : R.Follows m m') (hfit : R.Fit t m') : R.Leads m t m' :=
  ⟨h.grows, h.good, hfit⟩

theorem Leads.after (h : R.Leads m₁ t m') (hgrows : R.Grows m.store m₁.store) : R.Leads m t m' :=
  ⟨R.grows_trans hgrows h.grows, h.good, h.fit⟩

theorem RunsAll.fit (h : R.RunsAll m.store m.current es) (he : e ∈ es) : R.Fit (.evaluate e) m :=
  ⟨h.1, h.2 e he⟩

/-- One of the expressions that are evaluated in order. -/
theorem leads_inAll (h : Eval.InAll names n es m d m') (hes : R.RunsAll m.store m.current es)
    (hgood : R.Good m.store) :
    R.Leads m (.evaluate d) m' := by
  obtain ⟨hfollows, hd⟩ := follows_inAll h hes hgood
  exact hfollows.leads ((hes.follows hfollows).fit hd)

theorem leads_inStmts (h : Eval.InStmts names n ss m s m')
    (hss : ∀ s ∈ ss, R.Executes m.store m.current s) (hgood : R.Good m.store) :
    R.Leads m (.execute s) m' := by
  obtain ⟨hfollows, hs⟩ := follows_inStmts h hss hgood
  exact hfollows.leads ((hss s hs).follows hfollows)

/-- An expression that may be evaluated comes only to tasks that may be done. -/
theorem leads_of_evaluate (h : Eval.Enters names n (.evaluate e) m t m') (hgood : R.Good m.store)
    (hscope : R.Scope m.store m.current) (hrun : R.Runs m.store m.current (.expr e)) :
    R.Leads m t m' := by
  have hparts : R.RunsAll m.store m.current e.parts := ⟨hscope, fun d hd => runs_part hrun hd⟩
  have hvalue : ∀ {d v m₁}, d ∈ e.parts → Eval.evaluate n d names m = .ok v m₁ →
      R.Follows m m₁ ∧ R.Holds m₁.store v :=
    fun hd ho => (R.evaluate n hscope (hparts.2 _ hd)).reaches (.refl hgood) ho
  cases h with
  | first hd => exact (Follows.refl hgood).leads (hparts.fit (mem_parts_of_first hd))
  | right hl _ =>
    have hfollows := (hvalue List.mem_cons_self hl).1
    exact hfollows.leads ((hparts.follows hfollows).fit (List.mem_cons_of_mem _ List.mem_cons_self))
  | arg he hin =>
    have hfollows := (hvalue List.mem_cons_self he).1
    have hargs := (hparts.follows hfollows).subset (List.subset_cons_self _ _)
    exact (leads_inAll hin hargs hfollows.good).after hfollows.grows
  | call he hall =>
    obtain ⟨hfollows, hv⟩ := hvalue List.mem_cons_self he
    have hargs := (hparts.follows hfollows).subset (List.subset_cons_self _ _)
    obtain ⟨hfollows', hvs⟩ :=
      (Sound.evaluateAll (R.evaluate n) hargs).reaches (.refl hfollows.good) hall
    exact (hfollows.trans hfollows').leads ⟨R.holds_mono hfollows'.grows hv, hvs.2,
      R.runs_call hrun⟩
  | value he =>
    have hfollows := (hvalue List.mem_cons_self he).1
    exact hfollows.leads ((hparts.follows hfollows).fit (List.mem_cons_of_mem _ List.mem_cons_self))
  | inLet hd =>
    obtain ⟨hfollows, hv⟩ := hvalue List.mem_cons_self hd
    have hpair := carries_nil.snoc (R.runs_ident hrun List.mem_cons_self) hv
    obtain ⟨hgood', hgrows, hnew⟩ := (hparts.follows hfollows).nest hfollows.good hpair
    exact ⟨R.grows_trans hfollows.grows hgrows, hgood',
      hnew.fit (List.mem_cons_of_mem _ List.mem_cons_self)⟩
  | inSeq hin =>
    obtain ⟨hgood', hgrows, hnew⟩ := hparts.nest hgood carries_nil
    exact (leads_inAll hin hnew hgood').after hgrows
  | yes hc _ =>
    have hfollows := (hvalue List.mem_cons_self hc).1
    exact hfollows.leads ((hparts.follows hfollows).fit (List.mem_cons_of_mem _ List.mem_cons_self))
  | no hc _ =>
    have hfollows := (hvalue List.mem_cons_self hc).1
    exact hfollows.leads ((hparts.follows hfollows).fit
      (List.mem_cons_of_mem _ (List.mem_cons_of_mem _ List.mem_cons_self)))
  | inTuple hin => exact leads_inAll hin hparts hgood
  | inVector hin => exact leads_inAll hin hparts hgood
  | inCase hd hin =>
    obtain ⟨hfollows, hv⟩ := hvalue List.mem_cons_self hd
    refine (leads_inArms hin (fun arm harm => ⟨?_, ?_⟩) hv hfollows.good).after hfollows.grows
    · exact (hparts.follows hfollows).subset fun d hd =>
        List.mem_cons_of_mem _ (List.mem_flatMap_of_mem harm hd)
    · exact R.runs_pattern hrun (List.mem_map_of_mem harm)

/-- The parts of a `for` loop may run in the frame of its variable, whatever was done before it
started. -/
theorem forLoop_parts (hs : R.Executes m.store m.current (.forLoop init c inc body span))
    (hgood : R.Good m.store)
    (hprepare : Eval.prepare (Eval.execute n) init names (m.nest m.current []) = .ok () m₁) :
    R.Grows m.store m₁.store ∧ R.Good m₁.store ∧
      R.RunsAll m₁.store m₁.current (c.toList ++ inc.toList) ∧
      R.Executes m₁.store m₁.current body := by
  obtain ⟨hgood', hgrows, hstmts⟩ := executes_nest hs.scope (fun t ht => runs_stmt hs.runs ht) hgood
  obtain ⟨-, -, hexprs⟩ := hs.exprs.nest hgood carries_nil
  have hinit : ∀ s ∈ init, R.Executes (m.nest m.current []).store (m.nest m.current []).current s :=
    fun s hs => hstmts s (List.mem_append_left _ (Option.mem_toList.mpr hs))
  have hfollows := ((Sound.prepare (R.execute n) hinit).reaches (.refl hgood') hprepare).1
  have hbody := hstmts body (List.mem_append_right _ List.mem_cons_self)
  exact ⟨R.grows_trans hgrows hfollows.grows, hfollows.good, hexprs.follows hfollows,
    hbody.follows hfollows⟩

theorem follows_forLoop
    (h : Eval.InLoop names (Eval.holdsIfGiven (Eval.evaluate n) c) (Eval.execute n body)
      (Eval.effect (Eval.evaluate n) inc) m part m')
    (hexprs : R.RunsAll m.store m.current (c.toList ++ inc.toList))
    (hbody : R.Executes m.store m.current body) (hgood : R.Good m.store) : R.Follows m m' :=
  follows_inLoop h (.holdsIfGiven (R.evaluate n) (hexprs.subset (List.subset_append_left _ _)))
    (R.execute n hbody)
    (.effect (R.evaluate n) (hexprs.subset (List.subset_append_right _ _))) hgood

/-- A statement that may be executed comes only to tasks that may be done. -/
theorem leads_of_execute (h : Eval.Enters names n (.execute s) m t m') (hgood : R.Good m.store)
    (hs : R.Executes m.store m.current s) : R.Leads m t m' := by
  have hstmts : ∀ t ∈ s.inner, R.Runs m.store m.current (.stmt t) := fun t ht =>
    runs_stmt hs.runs ht
  cases h with
  | ofStmt he => exact (Follows.refl hgood).leads (hs.exprs.fit (mem_exprs_of_first he))
  | inBlock hin =>
    obtain ⟨hgood', hgrows, hnew⟩ := executes_nest hs.scope hstmts hgood
    exact (leads_inStmts hin hnew hgood').after hgrows
  | whileTest hin =>
    have hbody : R.Executes m.store m.current _ := ⟨hs.scope, hstmts _ List.mem_cons_self, hs.own⟩
    have hfollows :=
      follows_inLoop hin (.holds (R.evaluate n) hs.exprs) (R.execute n hbody) .nothing hgood
    exact hfollows.leads ((hs.exprs.follows hfollows).fit List.mem_cons_self)
  | whileBody hin =>
    have hbody : R.Executes m.store m.current _ := ⟨hs.scope, hstmts _ List.mem_cons_self, hs.own⟩
    have hfollows :=
      follows_inLoop hin (.holds (R.evaluate n) hs.exprs) (R.execute n hbody) .nothing hgood
    exact hfollows.leads (hbody.follows hfollows)
  | forever hloop hin =>
    have htest : R.Sound m.store m.current (Pure.pure true) fun _ _ => True :=
      .pure fun _ _ => trivial
    have hfollows :=
      follows_inLoop hloop htest (.block (R.execute n) hs.scope hstmts) .nothing hgood
    have hthere := hs.follows hfollows
    obtain ⟨hgood', hgrows, hnew⟩ :=
      executes_nest hthere.scope (fun t ht => runs_stmt hthere.runs ht) hfollows.good
    exact (leads_inStmts hin hnew hgood').after (R.grows_trans hfollows.grows hgrows)
  | forInit =>
    obtain ⟨hgood', hgrows, hnew⟩ := executes_nest hs.scope hstmts hgood
    exact ⟨hgrows, hgood', hnew _ List.mem_cons_self⟩
  | forTest hprepare hin =>
    obtain ⟨hgrows, hgood', hexprs, hbody⟩ := forLoop_parts hs hgood hprepare
    have hfollows := follows_forLoop hin hexprs hbody hgood'
    exact (hfollows.leads ((hexprs.follows hfollows).fit List.mem_cons_self)).after hgrows
  | forBody hprepare hin =>
    obtain ⟨hgrows, hgood', hexprs, hbody⟩ := forLoop_parts hs hgood hprepare
    have hfollows := follows_forLoop hin hexprs hbody hgood'
    exact ⟨R.grows_trans hgrows hfollows.grows, hfollows.good, hbody.follows hfollows⟩
  | forStep hprepare hin =>
    obtain ⟨hgrows, hgood', hexprs, hbody⟩ := forLoop_parts hs hgood hprepare
    have hfollows := follows_forLoop hin hexprs hbody hgood'
    exact (hfollows.leads
        ((hexprs.follows hfollows).fit (List.mem_append_right _ List.mem_cons_self))).after hgrows

/-- A task that may be done in a state comes only to tasks that may be done in theirs. -/
theorem leads_enters (h : Eval.Enters names n t m t' m') (hgood : R.Good m.store)
    (hfit : R.Fit t m) :
    R.Leads m t' m' := by
  cases t with
  | evaluate e => exact leads_of_evaluate h hgood hfit.1 hfit.2
  | execute s => exact leads_of_execute h hgood hfit
  | call callee args span =>
    cases h with
    | inBody hinvokes hin =>
      obtain ⟨hfollows, hc⟩ := leads_invokes hinvokes hfit.1 hgood
      have hargs := fun v hv => R.holds_mono hfollows.grows (hfit.2.1 v hv)
      obtain ⟨hgood', hgrows, hbody⟩ := invoking hc hargs hfollows.good
      exact (leads_inStmts hin hbody hgood').after (R.grows_trans hfollows.grows hgrows)

/-- Every moment of a run keeps to the regime. -/
theorem Leads.visits (h : Eval.Visits names n t m k t' m') (hgood : R.Good m.store)
    (hfit : R.Fit t m) :
    R.Leads m t' m' := by
  induction h with
  | refl => exact ⟨R.grows_refl, hgood, hfit⟩
  | enter _ henters ih =>
    have hleads := leads_enters henters ih.good ih.fit
    exact ⟨R.grows_trans ih.grows hleads.grows, hleads.good, hleads.fit⟩

theorem Ends.follows {V : Store → α → Prop} {o : Outcome α} (h : R.Ends names m V o)
    (ho : o.machine? = some m') :
    R.Follows m m' := by
  cases o with
  | ok a m'' => cases ho; exact h.1
  | fault e m'' => cases ho; exact h.1
  | exhausted => cases ho

/-- A task that may be done in a state ends as it should. -/
theorem follows_completes (h : Eval.Completes names n t m m') (hgood : R.Good m.store)
    (hfit : R.Fit t m) :
    R.Follows m m' := by
  cases t with
  | evaluate e => exact (R.evaluate n hfit.1 hfit.2 names m rfl R.grows_refl hgood).follows h
  | execute s => exact (R.execute n hfit names m rfl R.grows_refl hgood).follows h
  | call callee args span =>
    exact (R.call n m.current hfit.1 hfit.2.1 hfit.2.2 names m rfl R.grows_refl hgood).follows h

end Regime

end TreeWalk
