import TreeWalk.Proofs.Session.RightClass
import TreeWalk.Proofs.Session.ThisAndSuper

/-!
# New objects

A call of a class gives a new object of this class. Its initializer is the nearest `init` from the
class upwards; what this returns is dropped. A bound `init` that is called by itself gives its
receiver. Both hold for every state of a session of texts and whatever the body does: objects keep
their classes, and the frame of the receiver is never changed.
-/

namespace TreeWalk

/-- The outcome of a call whose value the body does not decide: `v` if the body ends without an
error, and else its error, back in the frame `here`. -/
def Outcome.giving (v : Value) (here : FrameId) : Outcome α → Outcome Value
  | .ok _ m => .ok v { m with current := here }
  | .fault e m => .fault e { m with current := here }
  | .exhausted => .exhausted

namespace Store

/-- New objects of the class are made ready by the nearest `init` from the class upwards, or by
none. -/
inductive Initializer (S : Store) (k : ClassId) : Option Closure → Prop
  | found : S.Finds k .init d c → Initializer S k (some c)
  | missing :
      (∀ d ∈ S.classChain k, (S.classes[d]?.bind fun info => info.methods.get? .init) = none) →
      Initializer S k none

/-- The function is an initializer with the object as its receiver. -/
structure InitOf (S : Store) (f : FunctionId) (c : Closure) (o : ObjectId) : Prop where
  function : S.functions[f]? = some c
  initializer : c.isInitializer = true
  receiver : ∃ g, S.frames[c.scope]? = some (.receiver g o)

end Store

/-- How many arguments make an object ready. -/
def Closure.arity? (init : Option Closure) : Nat :=
  (init.map Closure.arity).getD 0

namespace Machine

/-- What comes of a call of the class in this state. -/
structure Instantiates (names : Interner) (k : ClassId) (args : List Value) (span : Span)
    (m : Machine) : Prop where
  /-- It gives an object of just this class that was not there before. -/
  object : ∀ n v m', Eval.call n (.class_ k) args span names m = .ok v m' →
    ∃ o, v = .object o ∧ ¬ m.store.Has (.object o) ∧ m'.store.objectClass? o = some k
  /-- The wrong number of arguments is an error before any code runs. Else it fails only if the
  initializer does. -/
  ready : ∃ init o S, m.store.Initializer k init ∧ m.store.addObject { cls := k } = (o, S) ∧
    (args.length ≠ Closure.arity? init → ∀ n, Eval.call (n + 1) (.class_ k) args span names m =
      .fault (.arityMismatch (m.store.className k) (Closure.arity? init) args.length span)
        { m with store := S }) ∧
    (args.length = Closure.arity? init →
      (init = none → ∀ n, Eval.call (n + 1) (.class_ k) args span names m =
          .ok (.object o) { m with store := S }) ∧
      ∀ c, init = some c → ∃ ready T, S.bindMethod c (.object o) = (ready, T) ∧ ∀ n,
        Eval.call (n + 1) (.class_ k) args span names m = Outcome.giving (.object o) m.current
          (Eval.executeAll (Eval.execute n) c.decl.body names
            ({ m with store := T }.invoking ready args)))

/-- In this state, calls of classes give new objects, and calls of bound initializers their
receivers. -/
structure MakesObjects (names : Interner) (m : Machine) : Prop where
  instantiates : ∀ k args span, (Value.class_ k).In m.store → (∀ v ∈ args, v.In m.store) →
    m.Instantiates names k args span
  /-- An `init` that is read as a property, and is no field, is bound to the object. -/
  property : ∀ o x v m', x.name = .init → m.store.field? o .init = none →
    Eval.property (.object o) x names m = .ok v m' → ∃ f c, v = .function f ∧ m'.store.InitOf f c o
  /-- Calling it gives the object, whatever the body returns. -/
  receiver : ∀ f c o, m.store.InitOf f c o → ∀ args span, (∀ v ∈ args, v.In m.store) →
    (args.length ≠ c.arity → ∀ n, Eval.call (n + 1) (.function f) args span names m =
      .fault (.arityMismatch c.name c.arity args.length span) m) ∧
    (args.length = c.arity → ∀ n, Eval.call (n + 1) (.function f) args span names m =
      Outcome.giving (.object o) m.current
        (Eval.executeAll (Eval.execute n) c.decl.body names (m.invoking c args)))

/-- When the task is done in this state, initializers are bound to their receivers and stay so. -/
structure KeepsInits (names : Interner) (k : Nat) (t : Task) (m : Machine) : Prop where
  completes : ∀ m', Eval.Completes names k t m m' → ∀ f c o, m.store.InitOf f c o →
    m'.store.InitOf f c o
  visits : ∀ k' t' m', Eval.Visits names k t m k' t' m' → ∀ f c o, m.store.InitOf f c o →
    m'.store.InitOf f c o
  /-- An `init` of the superclass is bound to the current receiver. -/
  super : ∀ x span v m', t = .evaluate (.super x span) → x.name = .init →
    Eval.superMethod x span names m = .ok v m' → ∃ f c o, v = .function f ∧
    m.store.lookup? m.current .this = some (.object o) ∧ m'.store.InitOf f c o
  /-- A call of an `init` that is read as a property gives the object. -/
  callProperty : ∀ e x args span v m', t = .evaluate (.call (.get e x) args span) → x.name = .init →
    Eval.evaluate k (.call (.get e x) args span) names m = .ok v m' →
    ∃ n o m₁, k = n + 2 ∧ Eval.evaluate n e names m = .ok (.object o) m₁ ∧
      (m₁.store.field? o .init = none → v = .object o)
  /-- A call of an `init` of the superclass gives the current receiver. -/
  callSuper : ∀ x site args span v m', t = .evaluate (.call (.super x site) args span) →
    x.name = .init → Eval.evaluate k (.call (.super x site) args span) names m = .ok v m' →
    ∃ o, m.store.lookup? m.current .this = some (.object o) ∧ v = .object o

end Machine

/-! ## Initializers -/

namespace Store

variable {rule : CodeRule} {S T : Store}

theorem initializer_iff : S.Initializer k init ↔ S.findMethod? k .init = init := by
  constructor
  · rintro (@⟨d, c, hd, below, above, hchain, hbelow⟩ | hnone)
    · exact List.findSome?_eq_some_iff.mpr ⟨below, d, above, hchain, hd, hbelow⟩
    · exact List.findSome?_eq_none_iff.mpr hnone
  · rintro rfl
    cases h : S.findMethod? k .init with
    | none => exact .missing (List.findSome?_eq_none_iff.mp h)
    | some c =>
      obtain ⟨d, hfinds, -⟩ := exists_finds h
      exact .found hfinds

theorem findMethod?_addObject (S : Store) (object : Object) (k : ClassId) (x : Symbol) :
    (S.addObject object).2.findMethod? k x = S.findMethod? k x := by
  have hchain : (S.addObject object).2.classChain k = S.classChain k := by
    apply classChain_congr
    exact fun _ => rfl
  rw [findMethod?, findMethod?, hchain]
  rfl

theorem Keeps.initOf (h : S.Keeps T) (hf : S.InitOf f c o) : T.InitOf f c o := by
  obtain ⟨g, hg⟩ := hf.receiver
  exact ⟨h.function f c hf.function, hf.initializer, g, h.frame_of_receiver hg⟩

theorem Knit.isInitializer (h : S.Knit rule) (hc : S.findMethod? k .init = some c) :
    c.isInitializer = true := by
  obtain ⟨d, -, hd⟩ := List.exists_of_findSome?_eq_some hc
  obtain ⟨info, hinfo, hget⟩ := Option.bind_eq_some_iff.mp hd
  rw [h.marked d info .init c hinfo hget]
  rfl

/-- A bound `init` is an initializer with its receiver. -/
theorem Binds.initOf (h : S.Binds c o v T) (hc : c.isInitializer = true) :
    ∃ f d, v = .function f ∧ T.InitOf f d o := by
  obtain ⟨f, rfl, hbinds⟩ := h
  cases hbinds
  refine ⟨_, (S.bindMethod c (.object o)).1, rfl, ?_, hc, c.scope, ?_⟩
  · exact Array.getElem?_push_size
  · exact frame_extend_new S c.scope _

end Store

/-! ## Calls -/

namespace Eval

variable {names : Interner} {m : Machine}

theorem checkArity_of_eq {expected found : Nat} (h : found = expected) (shown : String)
    (span : Span) :
    checkArity shown expected found span = pure () :=
  if_pos h.symm

theorem checkArity_of_ne {expected found : Nat} (h : found ≠ expected) (shown : String)
    (span : Span) :
    checkArity shown expected found span = raise (.arityMismatch shown expected found span) :=
  if_neg h.symm

/-- Running the body of a function in its frame. -/
theorem within_invoking (exec : Stmt → Eval Flow) (c : Closure) (args : List Value) :
    within c.scope ((c.decl.params.map Ident.name).zip args) (executeAll exec c.decl.body) names
        { m with events := m.events.push (.called c.name args.length) } =
      backTo m.current (executeAll exec c.decl.body names (m.invoking c args)) :=
  rfl

/-- A function that is called for its effect. -/
theorem invoke_then (exec : Stmt → Eval Flow) (c : Closure) (args : List Value) (v : Value)
    (names : Interner) (m : Machine) : (invoke exec c args >>= fun _ => pure v) names m =
      Outcome.giving v m.current (executeAll exec c.decl.body names (m.invoking c args)) := by
  simp only [invoke, Bind.bind, record, within_invoking]
  cases executeAll exec c.decl.body names (m.invoking c args) with
  | ok flow m' =>
    cases hinit : c.isInitializer with
    | true => rfl
    | false => cases flow <;> rfl
  | fault e m' => rfl
  | exhausted => rfl

/-- An initializer gives its receiver, if this is found after the body. -/
theorem invoke_of_receiver {exec : Stmt → Eval Flow} (hinit : c.isInitializer = true)
    (hreceiver : ∀ flow m', executeAll exec c.decl.body names (m.invoking c args) = .ok flow m' →
      m'.store.lookup? c.scope .this = some v) :
    invoke exec c args names m =
      Outcome.giving v m.current (executeAll exec c.decl.body names (m.invoking c args)) := by
  simp only [invoke, Bind.bind, record, within_invoking]
  cases hbody : executeAll exec c.decl.body names (m.invoking c args) with
  | ok flow m' =>
    simp only [backTo, hinit, if_true, receiver, query, hreceiver flow m' hbody]
    rfl
  | fault e m' => rfl
  | exhausted => rfl

theorem call_function (hf : m.store.functions[f]? = some c) (n : Nat) (args : List Value)
    (span : Span) :
    call (n + 1) (.function f) args span names m =
      (checkArity c.name c.arity args.length span >>= fun _ => invoke (execute n) c args)
        names m := by
  simp only [call, callWith, Bind.bind, query, hf]

section

variable (hadd : m.store.addObject { cls := k } = (o, S))
include hadd

theorem call_class_of_ne (hargs : args.length ≠ Closure.arity? (m.store.findMethod? k .init))
    (n : Nat) (span : Span) :
    call (n + 1) (.class_ k) args span names m =
      .fault (.arityMismatch (m.store.className k) (Closure.arity? (m.store.findMethod? k .init))
        args.length span)
        { m with store := S } := by
  cases hadd
  have hfind := Store.findMethod?_addObject m.store { cls := k } k .init
  cases hinit : m.store.findMethod? k .init with
  | none =>
    rw [hinit] at hfind hargs
    have hcheck := checkArity_of_ne (show args.length ≠ 0 from hargs)
    simp only [call, callWith, instantiate, Bind.bind, update, query, hfind, hcheck]
    rfl
  | some c =>
    rw [hinit] at hfind hargs
    have hcheck := checkArity_of_ne (show args.length ≠ c.arity from hargs)
    simp only [call, callWith, instantiate, Bind.bind, update, query, hfind, hcheck]
    rfl

theorem call_class_of_none (hinit : m.store.findMethod? k .init = none)
    (hargs : args.length = 0) (n : Nat) (span : Span) :
    call (n + 1) (.class_ k) args span names m = .ok (.object o) { m with store := S } := by
  cases hadd
  have hfind := Store.findMethod?_addObject m.store { cls := k } k .init
  rw [hinit] at hfind
  simp only [call, callWith, instantiate, Bind.bind, update, query, hfind, checkArity_of_eq hargs]
  rfl

theorem call_class_of_some (hinit : m.store.findMethod? k .init = some c)
    (hargs : args.length = c.arity) (hbind : S.bindMethod c (.object o) = (ready, T)) (n : Nat)
    (span : Span) :
    call (n + 1) (.class_ k) args span names m = Outcome.giving (.object o) m.current
      (executeAll (execute n) c.decl.body names ({ m with store := T }.invoking ready args)) := by
  cases hadd
  have hfind := Store.findMethod?_addObject m.store { cls := k } k .init
  rw [hinit] at hfind
  have hthen :=
    invoke_then (execute n) ready args (.object m.store.objects.size) names { m with store := T }
  cases hbind
  simp only [call, callWith, instantiate, Bind.bind, update, query, hfind, checkArity_of_eq hargs]
  exact hthen

end

theorem eq_of_giving (h : Outcome.giving v here r = .ok w m') :
    w = v ∧ ∃ a m₁, r = .ok a m₁ ∧ m'.store = m₁.store := by
  cases r with
  | ok a m₁ =>
    cases h
    exact ⟨rfl, a, m₁, rfl, rfl⟩
  | fault | exhausted => cases h

theorem bind_eq_ok {act : Eval α} {next : α → Eval β} (h : (act >>= next) names m = .ok b m') :
    ∃ a m₁, act names m = .ok a m₁ ∧ next a names m₁ = .ok b m' := by
  simp only [Bind.bind] at h
  cases hact : act names m with
  | ok a m₁ => exact ⟨a, m₁, rfl, by rwa [hact] at h⟩
  | fault | exhausted => rw [hact] at h; cases h

end Eval

namespace Regime

variable {rule : CodeRule} {m m' : Machine} {names : Interner}

/-! ## Objects and receivers -/

theorem body_keeps (hS : m.store.Sound rule) (hc : m.store.Ready rule c)
    (hargs : ∀ v ∈ args, Discipline.closed.Holds m.store v)
    (h : Eval.executeAll (Eval.execute n) c.decl.body names (m.invoking c args) = .ok flow m') :
    m.store.Keeps m'.store ∧ m'.store.Sound rule := by
  obtain ⟨hgood, hgrows, hexecutes⟩ := invoking (R := Regime.knit rule) hc hargs hS
  have hbody :=
    Sound.executeAll (R := Regime.knit rule) (fun hs => (Regime.knit rule).execute n hs) hexecutes
  obtain ⟨hfollows, -⟩ := hbody.reaches (.refl hgood) h
  exact ⟨hgrows.keeps.trans hfollows.grows.keeps, hfollows.good⟩

theorem objectClass?_addObject (S : Store) (k : ClassId) :
    (S.addObject { cls := k }).2.objectClass? (S.addObject { cls := k }).1 = some k := by
  simp [Store.objectClass?, Store.addObject]

/-- Whatever makes the object ready, it keeps its class. -/
theorem objectClass?_of_call (hS : m.store.Sound rule) (hk : (Value.class_ k).In m.store)
    (hargs : ∀ v ∈ args, v.In m.store) (h : Eval.call n (.class_ k) args span names m = .ok v m') :
    ∃ o, v = .object o ∧ ¬ m.store.Has (.object o) ∧ m'.store.objectClass? o = some k := by
  have hnew : ¬ m.store.Has (.object (m.store.addObject { cls := k }).1) := Nat.lt_irrefl _
  have hclass := objectClass?_addObject m.store k
  cases n with
  | zero => cases h
  | succ n =>
    by_cases harity : args.length = Closure.arity? (m.store.findMethod? k .init)
    · cases hinit : m.store.findMethod? k .init with
      | none =>
        rw [hinit] at harity
        cases (Eval.call_class_of_none rfl hinit harity n span).symm.trans h
        exact ⟨_, rfl, hnew, hclass⟩
      | some c =>
        rw [hinit] at harity
        have hinvokes : Eval.Invokes args m (.class_ k) _ _ :=
          .initializer ((Store.findMethod?_addObject m.store _ k .init).trans hinit) harity.symm rfl
        obtain ⟨hfollows, hc⟩ :=
          leads_invokes (R := Regime.knit rule) hinvokes (Store.holds_closed.mpr hk) hS
        rw [Eval.call_class_of_some rfl hinit harity rfl n span] at h
        obtain ⟨rfl, flow, m₁, hbody, hstore⟩ := Eval.eq_of_giving h
        have hkeeps := (body_keeps hfollows.good hc
          (fun v hv => Discipline.closed.holds_mono hfollows.grows.closed
              (Store.holds_closed.mpr (hargs v hv))) hbody).1
        exact ⟨_, rfl, hnew, hstore ▸ hkeeps.object _ _ hclass⟩
    · cases (Eval.call_class_of_ne rfl harity n span).symm.trans h

theorem instantiates (hS : m.store.Sound rule) (hk : (Value.class_ k).In m.store)
    (hargs : ∀ v ∈ args, v.In m.store) : m.Instantiates names k args span where
  object _ _ _ h := objectClass?_of_call hS hk hargs h
  ready := by
    refine ⟨_, _, _, Store.initializer_iff.mpr rfl, rfl, fun hne n =>
      Eval.call_class_of_ne rfl hne n span, fun heq => ?_⟩
    refine ⟨fun hinit n => ?_, fun c hinit => ⟨_, _, rfl, fun n => ?_⟩⟩
    · exact Eval.call_class_of_none rfl hinit (by rwa [hinit] at heq) n span
    · exact Eval.call_class_of_some rfl hinit (by rwa [hinit] at heq) rfl n span

theorem initOf_of_property (hS : m.store.Sound rule) (hx : x.name = .init)
    (hfield : m.store.field? o .init = none) (h : Eval.property (.object o) x names m = .ok v m') :
    ∃ f c, v = .function f ∧ m'.store.InitOf f c o := by
  rcases Eval.property_ok h with hsome | ⟨j, c, -, hc, hbinds⟩
  · rw [hx, hfield] at hsome
    cases hsome
  · rw [hx] at hc
    exact hbinds.initOf (hS.knit.isInitializer hc)

theorem initOf_of_superMethod (hS : m.store.Sound rule) (hf : m.store.Lexical m.current)
    (hx : x.name = .init) (h : Eval.superMethod x span names m = .ok v m') :
    ∃ f c o, v = .function f ∧ m.store.lookup? m.current .this = some (.object o) ∧
      m'.store.InitOf f c o := by
  cases hsuper : m.store.lookup? m.current .super with
  | none => cases (Eval.superMethod_of_none hsuper).symm.trans h
  | some w =>
    obtain ⟨k, l, o, j, rfl, -, hthis, -⟩ := hS.knit.exists_receiver hf hsuper
    obtain ⟨c, hc, hbinds⟩ := Eval.superMethod_ok hsuper hthis h
    rw [hx] at hc
    obtain ⟨f, d, hv, hinit⟩ := hbinds.initOf (hS.knit.isInitializer hc)
    exact ⟨f, d, o, hv, hthis, hinit⟩

theorem call_initOf_of_ne (hf : m.store.InitOf f c o) (hne : args.length ≠ c.arity) (n : Nat)
    (span : Span) :
    Eval.call (n + 1) (.function f) args span names m =
      .fault (.arityMismatch c.name c.arity args.length span) m := by
  rw [Eval.call_function hf.function, Eval.checkArity_of_ne hne]
  rfl

/-- After the body of an initializer its receiver is still found. -/
theorem call_initOf (hS : m.store.Sound rule) (hf : m.store.InitOf f c o)
    (hargs : ∀ v ∈ args, Discipline.closed.Holds m.store v) (heq : args.length = c.arity) (n : Nat)
    (span : Span) :
    Eval.call (n + 1) (.function f) args span names m = Outcome.giving (.object o) m.current
      (Eval.executeAll (Eval.execute n) c.decl.body names (m.invoking c args)) := by
  rw [Eval.call_function hf.function, Eval.checkArity_of_eq heq]
  obtain ⟨g, hreceiver⟩ := hf.receiver
  refine Eval.invoke_of_receiver hf.initializer fun flow m' hbody => ?_
  obtain ⟨hkeeps, hS'⟩ := body_keeps hS (hS.knit.function f c hf.function) hargs hbody
  exact hS'.knit.lookup?_this (hkeeps.frame_of_receiver hreceiver)

theorem makesObjects (hS : m.store.Sound rule) : m.MakesObjects names where
  instantiates _ _ _ hk hargs := instantiates hS hk hargs
  property _ _ _ _ hx hfield h := initOf_of_property hS hx hfield h
  receiver _ _ _ hf _ span hargs :=
    ⟨fun hne n => call_initOf_of_ne hf hne n span,
      fun heq n => call_initOf hS hf (fun v hv => Store.holds_closed.mpr (hargs v hv)) heq n span⟩

/-- The arguments are evaluated between reading an initializer and calling it; it stays bound. -/
theorem call_of_bound {e : Expr} (hS : m.store.Sound rule) (hf : m.store.Lexical m.current)
    (hrun : m.store.Runs rule m.current (.expr (.call e args span)))
    (h : Eval.evaluate (n + 1) (.call e args span) names m = .ok v m') :
    ∃ w m₁, Eval.evaluate n e names m = .ok w m₁ ∧ m₁.store.Sound rule ∧
      ∀ f c o, w = .function f → m₁.store.InitOf f c o → v = .object o := by
  obtain ⟨w, m₁, hcallee, h⟩ := Eval.bind_eq_ok h
  obtain ⟨vs, m₂, hall, h⟩ := Eval.bind_eq_ok h
  have hfollows :=
    (((Regime.knit rule).evaluate n hf (runs_part hrun List.mem_cons_self)).reaches
      (.refl hS) hcallee).1
  refine ⟨w, m₁, hcallee, hfollows.good, ?_⟩
  rintro f c o rfl hinit
  have hparts : (Regime.knit rule).RunsAll m.store m.current args :=
    ⟨hf, fun d hd => runs_part hrun (List.mem_cons_of_mem _ hd)⟩
  have hargs :=
    Sound.evaluateAll (R := Regime.knit rule) (fun hS hrun => (Regime.knit rule).evaluate n hS hrun)
      (hparts.follows hfollows)
  obtain ⟨hfollows', -, hvs⟩ := hargs.reaches (.refl hfollows.good) hall
  have hinit := hfollows'.grows.keeps.initOf hinit
  cases n with
  | zero => cases h
  | succ n =>
    by_cases heq : vs.length = c.arity
    · exact (Eval.eq_of_giving ((call_initOf hfollows'.good hinit hvs heq n span).symm.trans h)).1
    · cases (call_initOf_of_ne hinit heq n span).symm.trans h

theorem Leads.keepsInits (h : (Regime.knit rule).Leads m₀ t m) : m.KeepsInits names k t where
  completes m' hm' f c o hf := (follows_completes hm' h.good h.fit).grows.keeps.initOf hf
  visits k' t' m' hvisits f c o hf := (Leads.visits hvisits h.good h.fit).grows.keeps.initOf hf
  super x span v m' ht hx hsuper := by
    subst ht
    exact initOf_of_superMethod h.good h.fit.1 hx hsuper
  callProperty e x args span v m' ht hx hcall := by
    subst ht
    cases k with
    | zero => cases hcall
    | succ n =>
      obtain ⟨w, m₁, hget, hgood, hbound⟩ := call_of_bound h.good h.fit.1 h.fit.2 hcall
      cases n with
      | zero => cases hget
      | succ n =>
        obtain ⟨u, m₂, he, hproperty⟩ := Eval.bind_eq_ok hget
        cases u with
        | object o =>
          refine ⟨n, o, m₂, rfl, he, fun hfield => ?_⟩
          have hruns : m.store.Runs rule m.current (.expr (.get e x)) :=
            runs_part (R := Regime.knit rule) h.fit.2 List.mem_cons_self
          have hfollows := (((Regime.knit rule).evaluate n h.fit.1
            (runs_part (R := Regime.knit rule) hruns List.mem_cons_self)).reaches
              (.refl h.good) he).1
          obtain ⟨f, c, hw, hinit⟩ := initOf_of_property hfollows.good hx hfield hproperty
          exact hbound f c o hw hinit
        | _ => cases hproperty
  callSuper x site args span v m' ht hx hcall := by
    subst ht
    cases k with
    | zero => cases hcall
    | succ n =>
      obtain ⟨w, m₁, hsuper, hgood, hbound⟩ := call_of_bound h.good h.fit.1 h.fit.2 hcall
      cases n with
      | zero => cases hsuper
      | succ n =>
        obtain ⟨f, c, o, hw, hthis, hinit⟩ := initOf_of_superMethod h.good h.fit.1 hx hsuper
        exact ⟨o, hthis, hbound f c o hw hinit⟩

end Regime

namespace Session

variable {s : Session}

/-- **Instantiation gives the new object.** In every state of a session of texts, between its steps
and at every moment inside them, a call of a class gives a new object of this class or fails, and it
fails only for the wrong number of arguments or in the body of its initializer. A bound initializer
gives its receiver, whenever it is called. -/
theorem instantiation_gives_the_new_object (h : s.OfTexts fun _ => True) :
    s.machine.MakesObjects s.names ∧
    (∀ u, Relation.ReflTransGen (TextStep fun _ => True) s u →
      ∀ f c o, s.machine.store.InitOf f c o → u.machine.store.InitOf f c o) ∧
    ∀ names k t m, s.Moment (fun _ => True) names k t m →
      (∀ f c o, s.machine.store.InitOf f c o → m.store.InitOf f c o) ∧
      m.MakesObjects names ∧ m.KeepsInits names k t := by
  have hQ : Permits (fun _ => True) False := fun hfalse => hfalse.elim
  have hs := h.sound hQ
  refine ⟨Regime.makesObjects hs.store, fun u hu f c o hf =>
    (keeps_of_steps hQ hs hu).2.initOf hf, ?_⟩
  intro names k t m hm
  have hleads := hm.leads hQ hs
  exact ⟨fun f c o hf => hleads.grows.keeps.initOf hf, Regime.makesObjects hleads.good,
    hleads.keepsInits⟩

/-- The class `B` inherits an `init` with a parameter that returns `1`. Without an argument no
object is made; with one, the call gives the next object, of the class `B`; and the `init` that was
bound to an object gives this object again. -/
theorem returned_value_is_dropped :
    let source := "class A \x7b init(x) \x7b this.x = x; return 1; \x7d \x7d " ++
      "class B < A \x7b \x7d var f = B(true).init;"
    ∃ s c o, (opened {}).run 30 source = some s ∧ (s.OfTexts fun _ => True) ∧
      s.machine.store.InitOf 0 c o ∧
      (∃ m, Eval.call 30 (.class_ 1) [] default s.names s.machine =
        .fault (.arityMismatch "B" 1 0 default) m) ∧
      (∃ p m, Eval.call 30 (.class_ 1) [.nil] default s.names s.machine = .ok (.object p) m ∧
        ¬ s.machine.store.Has (.object p) ∧ m.store.objectClass? p = some 1) ∧
      ∃ m, Eval.call 30 (.function 0) [.nil] default s.names s.machine = .ok (.object o) m := by
  intro source
  have hall : ((opened {}).run 30 source).any (fun s => s.machine.store.classes.size = 2 &&
      s.machine.store.className 1 = "B" &&
        ((s.machine.store.findMethod? 1 .init).any fun c => c.arity = 1) &&
      (Eval.call 30 (.class_ 1) [.nil] default s.names s.machine).value?.isSome &&
      (Eval.call 30 (.function 0) [.nil] default s.names s.machine).value?.isSome &&
      s.machine.store.functions[0]?.any fun c => c.isInitializer && c.arity = 1 &&
        s.machine.store.frames[c.scope]?.any fun frame =>
          (frame.bindings.get? .this).isSome) = true := by
    decide +kernel
  obtain ⟨s, hs, hall⟩ := (Option.any_eq_true _ _).mp hall
  simp only [Bool.and_eq_true, decide_eq_true_eq] at hall
  obtain ⟨⟨⟨⟨⟨hclasses, hname⟩, hinit⟩, hobject⟩, hbound⟩, hfunction⟩ := hall
  obtain ⟨d, hd, harity⟩ := (Option.any_eq_true _ _).mp hinit
  obtain ⟨c, hc, hinitializer⟩ := (Option.any_eq_true _ _).mp hfunction
  simp only [Bool.and_eq_true, decide_eq_true_eq] at hinitializer
  obtain ⟨frame, hframe, hthis⟩ := (Option.any_eq_true _ _).mp hinitializer.2
  obtain ⟨v, hv⟩ := Option.isSome_iff_exists.mp hthis
  have htexts : s.OfTexts fun _ => True := ⟨{}, .single (.run trivial hs)⟩
  have hQ : Permits (fun _ => True) False := fun hfalse => hfalse.elim
  have hbinds := (htexts.sound hQ).store.knit.bindsProperly
  obtain ⟨k, e, o, j, -, -, -, rfl⟩ := hbinds.this c.scope frame v hframe hv
  have hinitOf : s.machine.store.InitOf 0 c o := ⟨hc, hinitializer.1.1, e.scope, hframe⟩
  obtain ⟨⟨hmakes, -, hreceiver⟩, -⟩ := instantiation_gives_the_new_object htexts
  have hcallee : (Value.class_ 1).In s.machine.store := by
    intro p hp
    cases hp
    exact show 1 < s.machine.store.classes.size by omega
  have hnil : ∀ v ∈ [Value.nil], v.In s.machine.store := by
    intro v hv p hp
    cases List.mem_singleton.mp hv
    cases hp
  refine ⟨s, c, o, hs, htexts, hinitOf, ?_, ?_, ?_⟩
  · obtain ⟨init, _, _, hfound, -, hfails, -⟩ :=
      (hmakes 1 [] default hcallee fun v hv => absurd hv List.not_mem_nil).ready
    obtain rfl : some d = init := hd.symm.trans (Store.initializer_iff.mp hfound)
    have hone : Closure.arity? (some d) = 1 := of_decide_eq_true harity
    have hcall := hfails (by rw [hone]; decide) 29
    rw [hone, hname] at hcall
    exact ⟨_, hcall⟩
  · cases hcall : Eval.call 30 (.class_ 1) [.nil] default s.names s.machine with
    | ok v m =>
      obtain ⟨p, rfl, hnew, hclass⟩ := (hmakes 1 [.nil] default hcallee hnil).object 30 v m hcall
      exact ⟨p, m, rfl, hnew, hclass⟩
    | fault | exhausted => rw [hcall] at hobject; cases hobject
  · have hcall := (hreceiver 0 c o hinitOf [.nil] default hnil).2 hinitializer.1.2.symm 29
    cases hbody : Eval.executeAll (Eval.execute 29) c.decl.body s.names
      (s.machine.invoking c [.nil]) with
    | ok flow m => exact ⟨_, hcall.trans (by rw [hbody]; rfl)⟩
    | fault | exhausted => rw [hcall, hbody] at hbound; cases hbound

end Session

end TreeWalk
