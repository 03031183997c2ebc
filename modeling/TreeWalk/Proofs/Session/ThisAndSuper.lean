import TreeWalk.Proofs.Session.Texts

/-!
# What `this` and `super` stand for

In a session of texts only two kinds of frames bind `this` or `super`: the one that gives a method
its receiver and the one between a class and the methods of a class that has a superclass. Neither
is ever changed, so a method sees its own receiver whenever it is called.
-/

namespace TreeWalk

/-- Frames bind `this` and `super` in no other ways than these. -/
structure Store.BindsProperly (S : Store) : Prop where
  /-- A frame that binds `this` gives a method of some class its receiver. -/
  this : ∀ (f : FrameId) (frame : Frame) (v : Value), S.frames[f]? = some frame →
    frame.bindings.get? .this = some v → ∃ k c o j, S.Declares k c ∧ S.objectClass? o = some j ∧
    v = .object o ∧ frame = .receiver c.scope o
  /-- A frame that binds `super` is seen by the methods of a class that was declared with this
  superclass. -/
  super : ∀ (f : FrameId) (frame : Frame) (v : Value), S.frames[f]? = some frame →
    frame.bindings.get? .super = some v → ∃ k l g, S.superclass? k = some l ∧ v = .class_ l ∧
    frame = .super g l ∧ ∀ c, S.Declares k c → c.scope = f

/-- When the task is done in this state, `this` and `super` are what they were made to be and stay
so. -/
structure Machine.Unforged (names : Interner) (k : Nat) (t : Task) (m : Machine) : Prop where
  binds : m.store.BindsProperly
  completes : ∀ m', Eval.Completes names k t m m' → m.store.Keeps m'.store
  visits : ∀ k' t' m', Eval.Visits names k t m k' t' m' → m.store.Keeps m'.store
  /-- A method of the superclass is missing, or there is no `super`; nothing else goes wrong. -/
  super : ∀ x span err m', t = .evaluate (.super x span) →
    Eval.superMethod x span names m = .fault err m' →
    err = .undefinedProperty (names.nameOf x.name) x.span ∨
      m.store.lookup? m.current .super = none ∧ err = .unboundVariable (names.nameOf .super) span
  /-- The body of a method with a receiver sees it as `this`. -/
  receiver : ∀ callee args span c m₁, t = .call callee args span → Eval.Invokes args m callee c m₁ →
    ∀ g o, m₁.store.frames[c.scope]? = some (.receiver g o) →
      (m₁.invoking c args).store.lookup? (m₁.invoking c args).current .this = some (.object o)
  /-- After the body of an initializer the receiver is still found. -/
  initializer : ∀ callee args span c m₁, t = .call callee args span →
    Eval.Invokes args m callee c m₁ → c.isInitializer = true → ∃ o, ∀ n flow m₂,
      Eval.within c.scope ((c.decl.params.map Ident.name).zip args)
        (Eval.executeAll (Eval.execute n) c.decl.body) names
        { m₁ with events := m₁.events.push (.called c.name args.length) } = .ok flow m₂ →
      Eval.receiver c names m₂ = .ok (.object o) m₂

namespace Store

variable {rule : CodeRule} {S T : Store}

theorem Knit.bindsProperly (hS : S.Knit rule) : S.BindsProperly := by
  refine ⟨fun f frame v hf hv => ?_, fun f frame v hf hv => ?_⟩
  · cases hS.made f frame hf with
    | code hord _ => cases hord.this.symm.trans hv
    | @method k c o j hc ho _ =>
      cases hv
      exact ⟨k, c, o, j, hc, ho, rfl, rfl⟩
    | class_ => cases hv
  · cases hS.made f frame hf with
    | code hord _ => cases hord.super.symm.trans hv
    | method => cases hv
    | @class_ k l g hl hscope _ =>
      cases hv
      exact ⟨k, l, g, hl, rfl, rfl, hscope⟩

theorem Knit.lookup?_this (hS : S.Knit rule) (hf : S.frames[f]? = some (Frame.receiver g o)) :
    S.lookup? f .this = some (.object o) :=
  lookup?_receiver hS.older hf .this

end Store

namespace Regime

variable {rule : CodeRule} {m m' : Machine} {names : Interner}

theorem superMethod_fault (hS : m.store.Sound rule) (hf : m.store.Lexical m.current)
    (h : Eval.superMethod x span names m = .fault err m') :
    err = .undefinedProperty (names.nameOf x.name) x.span ∨
      m.store.lookup? m.current .super = none ∧
        err = .unboundVariable (names.nameOf .super) span := by
  cases hsuper : m.store.lookup? m.current .super with
  | none =>
    cases (Eval.superMethod_of_none hsuper).symm.trans h
    exact .inr ⟨rfl, rfl⟩
  | some v =>
    -- With `super` there is a receiver, so only the method can be missing.
    obtain ⟨k, l, o, j, rfl, -, hthis, -⟩ := hS.knit.exists_receiver hf hsuper
    rw [Eval.superMethod_of_receiver hsuper hthis] at h
    cases hfind : m.store.findMethod? l x.name with
    | none =>
      rw [hfind] at h
      cases h
      exact .inl rfl
    | some c =>
      rw [hfind] at h
      cases h

/-- A body sees the receiver of its method: no parameter is called `this`. -/
theorem lookup?_invoking (hS : m.store.Sound rule) (hc : m.store.Ready rule c)
    (hargs : ∀ v ∈ args, Discipline.closed.Holds m.store v)
    (hreceiver : m.store.frames[c.scope]? = some (.receiver g o)) :
    (m.invoking c args).store.lookup? (m.invoking c args).current .this = some (.object o) := by
  obtain ⟨hgood, hgrows, -⟩ := invoking (R := Regime.knit rule) hc hargs hS
  have hplain : ∀ p ∈ (c.decl.params.map Ident.name).zip args, p.1.Plain := fun p hp =>
    (carries_params (R := Regime.knit rule) hc.code.params hargs p hp).1
  have hframe : (m.invoking c args).store.frames[(m.invoking c args).current]? =
      some ⟨.ofList ((c.decl.params.map Ident.name).zip args), some c.scope⟩ :=
    Store.frame_extend_new m.store c.scope _
  rw [Store.lookup?_ordinary hgood.knit.older hframe (Frame.ordinary_ofList hplain _)
    fun hx => hx.1 rfl]
  exact hgood.knit.lookup?_this (hgrows.keeps.frame_of_receiver hreceiver)

/-- Where a function that makes objects ready is invoked, its receiver is there after the body as
well. -/
theorem receiver_after_body (hS : m.store.Sound rule) (hc : m.store.Ready rule c)
    (hargs : ∀ v ∈ args, Discipline.closed.Holds m.store v)
    (hreceiver : m.store.frames[c.scope]? = some (.receiver g o))
    (h : Eval.within c.scope ((c.decl.params.map Ident.name).zip args)
      (Eval.executeAll (Eval.execute n) c.decl.body)
      names m = .ok flow m') : Eval.receiver c names m' = .ok (.object o) m' := by
  have hbody := Sound.body (R := Regime.knit rule) (f := m.current)
    (fun hs => (Regime.knit rule).execute n hs) hc hargs
  obtain ⟨hfollows, -⟩ := hbody.reaches (.refl hS) h
  have hthis := hfollows.good.knit.lookup?_this (hfollows.grows.keeps.frame_of_receiver hreceiver)
  rw [Eval.receiver, Eval.query, hthis]
  rfl

theorem Leads.unforged (h : (Regime.knit rule).Leads m₀ t m) : m.Unforged names k t := by
  have hinvokes : ∀ callee args span c m₁, t = .call callee args span →
      Eval.Invokes args m callee c m₁ → m₁.store.Sound rule ∧ m₁.store.Ready rule c ∧
        ∀ v ∈ args, Discipline.closed.Holds m₁.store v := by
    intro callee args span c m₁ ht hinvokes
    subst ht
    obtain ⟨hcallee, hargs, -⟩ := h.fit
    obtain ⟨hfollows, hc⟩ := leads_invokes hinvokes hcallee h.good
    exact ⟨hfollows.good, hc, fun v hv => (Regime.knit rule).holds_mono hfollows.grows (hargs v hv)⟩
  refine ⟨h.good.knit.bindsProperly, ?_, ?_, ?_, ?_, ?_⟩
  · exact fun m' hm' => (follows_completes hm' h.good h.fit).grows.keeps
  · exact fun k' t' m' hvisits => (Leads.visits hvisits h.good h.fit).grows.keeps
  · intro x span err m' ht hfault
    subst ht
    exact superMethod_fault h.good h.fit.1 hfault
  · intro callee args span c m₁ ht hinv g o hreceiver
    obtain ⟨hgood, hc, hargs⟩ := hinvokes callee args span c m₁ ht hinv
    exact lookup?_invoking hgood hc hargs hreceiver
  · intro callee args span c m₁ ht hinv hinit
    obtain ⟨hgood, hc, hargs⟩ := hinvokes callee args span c m₁ ht hinv
    obtain ⟨g, o, hreceiver⟩ := hc.initializer hinit
    refine ⟨o, fun n flow m₂ hbody => ?_⟩
    -- Telling of the call leaves the store as it is.
    exact receiver_after_body
      (m := { m₁ with events := m₁.events.push (.called c.name args.length) }) hgood hc hargs
      hreceiver hbody

end Regime

namespace Session

variable {s u : Session}

theorem keeps_of_steps (hQ : Permits Q tidy) (h : s.Sound (.parsed tidy))
    (hsteps : Relation.ReflTransGen (TextStep Q) s u) :
    u.Sound (.parsed tidy) ∧ s.machine.store.Keeps u.machine.store := by
  induction hsteps with
  | refl => exact ⟨h, .refl _⟩
  | tail _ hstep ih =>
    obtain ⟨hsound, hdevelops⟩ := hstep.sound hQ ih.1
    exact ⟨hsound, ih.2.trans hdevelops.keeps⟩

/-- In every session of texts, between its steps and at every moment inside them, `this` and `super`
are bound only as they should be, and stay as they are. A method with a receiver that is called
later on still sees it. -/
theorem this_and_super_are_never_forged (h : s.OfTexts fun _ => True) :
    s.machine.store.BindsProperly ∧
    (∀ u, Relation.ReflTransGen (TextStep fun _ => True) s u →
        s.machine.store.Keeps u.machine.store) ∧
    (∀ names k t m, s.Moment (fun _ => True) names k t m → s.machine.store.Keeps m.store ∧
        m.Unforged names k t) ∧
    ∀ (f : FunctionId) c g o, s.machine.store.functions[f]? = some c →
      s.machine.store.frames[c.scope]? = some (.receiver g o) →
      ∀ u, Relation.ReflTransGen (TextStep fun _ => True) s u → ∀ names k args span m,
        u.Moment (fun _ => True) names k (.call (.function f) args span) m → ∀ d m₁,
        Eval.Invokes args m (.function f) d m₁ →
        d = c ∧ (m₁.invoking c args).store.lookup? (m₁.invoking c args).current .this =
          some (.object o) := by
  have hQ : Permits (fun _ => True) False := fun hfalse => hfalse.elim
  have hs := h.sound hQ
  refine ⟨hs.store.knit.bindsProperly, fun u hu => (keeps_of_steps hQ hs hu).2,
    fun names k t m hm => ?_, ?_⟩
  · have hleads := hm.leads hQ hs
    exact ⟨hleads.grows.keeps, hleads.unforged⟩
  · intro f c g o hc hreceiver u hu names k args span m hm d m₁ hinv
    obtain ⟨hsound, hkeeps⟩ := keeps_of_steps hQ hs hu
    have hleads := hm.leads hQ hsound
    have hkeeps := hkeeps.trans hleads.grows.keeps
    have hunforged : m.Unforged names k _ := hleads.unforged
    have hsees := hunforged.receiver _ _ _ _ _ rfl hinv
    cases hinv with
    | function hd _ =>
      obtain rfl : d = c := Option.some.inj (hd.symm.trans (hkeeps.function f c hc))
      exact ⟨rfl, hsees g o (hkeeps.frame_of_receiver hreceiver)⟩

/-- A method of an object that nothing else keeps is stored in a variable, and called in a later
step. -/
theorem stored_method_sees_its_receiver :
    let source := "class A \x7b init() \x7b this.n = 1; \x7d get() \x7b return this; \x7d \x7d " ++
      "class B < A \x7b get() \x7b return super.get(); \x7d \x7d var m = B().get;"
    ∃ s c g o, (opened {}).run 20 source = some s ∧ (s.OfTexts fun _ => True) ∧
      s.machine.store.BindsProperly ∧ s.machine.store.functions[0]? = some c ∧
      s.machine.store.frames[c.scope]? = some (.receiver g o) ∧
      (s.machine.invoking c []).store.lookup? (s.machine.invoking c []).current .this =
        some (.object o) := by
  intro source
  have hall : ((opened {}).run 20 source).any (fun s => s.machine.store.functions[0]?.any fun c =>
      c.arity = 0 && s.machine.store.frames[c.scope]?.any fun frame =>
        (frame.bindings.get? .this).isSome) = true := by
    decide +kernel
  obtain ⟨s, hs, hall⟩ := (Option.any_eq_true _ _).mp hall
  obtain ⟨c, hc, hall⟩ := (Option.any_eq_true _ _).mp hall
  simp only [Bool.and_eq_true, decide_eq_true_eq] at hall
  obtain ⟨frame, hframe, hthis⟩ := (Option.any_eq_true _ _).mp hall.2
  obtain ⟨v, hv⟩ := Option.isSome_iff_exists.mp hthis
  have htexts : s.OfTexts fun _ => True := ⟨{}, .single (.run trivial hs)⟩
  obtain ⟨hbinds, -, -, hbound⟩ := this_and_super_are_never_forged htexts
  obtain ⟨k, d, o, j, -, -, -, rfl⟩ := hbinds.this c.scope frame v hframe hv
  have hcallee : (Value.function 0).In s.machine.store := by
    intro p hp
    cases hp
    exact (Array.getElem?_eq_some_iff.mp hc).1
  have hmoment : s.Moment (fun _ => True) s.names 1 (.call (.function 0) [] default) s.machine :=
    ⟨1, _, _, .call hcallee fun v hv => absurd hv List.not_mem_nil, .refl⟩
  exact ⟨s, c, d.scope, o, hs, htexts, hbinds, hc, hframe,
    (hbound 0 c _ o hc hframe s .refl _ _ _ _ _ hmoment c _ (.function hc hall.1)).2⟩

end Session

end TreeWalk
