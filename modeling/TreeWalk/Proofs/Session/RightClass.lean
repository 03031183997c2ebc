import TreeWalk.Proofs.Equality
import TreeWalk.Proofs.Session.Texts

/-!
# Classes of receivers

A method is bound to an object whose class has it in its table or inherits it. For properties and
for new objects this holds whatever code runs. For `super` it holds where the code is tidy: a class
without a superclass that is declared in a method of a class with one sees the `super` of that class
(`super_reaches_into_inner_class`).
-/

namespace TreeWalk

namespace Store

/-- The method of the name is found in the table of `d`, the nearest class from `j` upwards that has
one. -/
def Finds (S : Store) (j : ClassId) (x : Symbol) (d : ClassId) (c : Closure) : Prop :=
  (S.classes[d]?.bind fun info => info.methods.get? x) = some c ∧
    ∃ below above, S.classChain j = below ++ d :: above ∧
    ∀ b ∈ below, (S.classes[b]?.bind fun info => info.methods.get? x) = none

/-- The value is a new function: the method with the object as its receiver. -/
def Binds (S : Store) (c : Closure) (o : ObjectId) (v : Value) (T : Store) : Prop :=
  ∃ f, v = .function f ∧
    (S.bindMethod c (.object o)).2.addFunction (S.bindMethod c (.object o)).1 = (f, T)

end Store

/-- When the task is done in this state, methods are bound to objects of the right classes. -/
structure Machine.BindsRightly (tidy : Prop) (names : Interner) (t : Task)
    (m : Machine) : Prop where
  /-- A property that is not a field is a method that the class of the object has or inherits. -/
  property : ∀ n e x o m₁ v m₂, t = .evaluate (.get e x) →
    Eval.evaluate n e names m = .ok (.object o) m₁ →
    Eval.property (.object o) x names m₁ = .ok v m₂ →
    m₁.store.field? o x.name = some v ∨
      ∃ j d c, m₁.store.objectClass? o = some j ∧ m₁.store.Finds j x.name d c ∧
        d ∈ m₁.store.classChain j ∧ m₁.store.Binds c o v m₂.store
  /-- A new object is made ready by a method that its class has or inherits. -/
  initializer : ∀ k args span ready m₁, t = .call (.class_ k) args span →
    Eval.Invokes args m (.class_ k) ready m₁ → ∃ S o d c, m.store.addObject { cls := k } = (o, S) ∧
      S.objectClass? o = some k ∧ S.Finds k .init d c ∧ d ∈ S.classChain k ∧
      S.bindMethod c (.object o) = (ready, m₁.store)
  /-- A method of the superclass is bound to an object of a class below it. -/
  super : tidy → ∀ x span v m₁, t = .evaluate (.super x span) →
    Eval.superMethod x span names m = .ok v m₁ → ∃ o j k l d c, m.store.lookup? m.current .this =
    some (.object o) ∧ m.store.objectClass? o = some j ∧
      k ∈ m.store.classChain j ∧ m.store.superclass? k = some l ∧ m.store.Finds l x.name d c ∧
      d ∈ m.store.classChain j ∧ m.store.Binds c o v m₁.store
  /-- In a method of a class, `super` is the superclass that the class was declared with, if any. -/
  own : tidy → ∀ x span f c o k, t = .evaluate (.super x span) →
    m.store.owner? m.current .this = some f → m.store.frames[f]? = some (.receiver c.scope o) →
    m.store.Declares k c →
    m.store.lookup? m.current .super = (m.store.superclass? k).map .class_ ∧
      (m.store.superclass? k = none →
        Eval.superMethod x span names m = .fault (.unboundVariable (names.nameOf .super) span) m)

namespace Store

variable {rule : CodeRule} {S : Store}

theorem exists_finds (h : S.findMethod? j x = some c) :
    ∃ d, S.Finds j x d c ∧ d ∈ S.classChain j := by
  obtain ⟨below, d, above, hchain, hd, hbelow⟩ := List.findSome?_eq_some_iff.mp h
  refine ⟨d, ⟨hd, below, above, hchain, hbelow⟩, ?_⟩
  rw [hchain]
  exact List.mem_append_right _ List.mem_cons_self

/-- Code sees the `super` that the method sees in which it stands. -/
theorem Knit.lookup?_super_of_owner (hS : S.Knit rule) (hf : S.Lexical f)
    (howner : S.owner? f .this = some g) (hg : S.frames[g]? = some (.receiver scope o)) :
    S.lookup? f .super = S.lookup? scope .super := by
  induction f using Nat.strongRecOn with
  | ind f ih =>
    obtain ⟨frame, hframe, hnone⟩ := hf
    rw [owner?_eq hframe (hS.older f frame hframe)] at howner
    cases hS.made f frame hframe with
    | code hord hparent =>
      rw [Bindings.contains, hord.this] at howner
      obtain ⟨p, hp, howner⟩ := Option.bind_eq_some_iff.mp howner
      rw [lookup?_ordinary hS.older hframe hord fun hx => hx.2 rfl, hp]
      exact ih p (hS.older f frame hframe p hp) (hparent p hp) howner
    | method =>
      obtain rfl : f = g := Option.some.inj howner
      cases hframe.symm.trans hg
      exact (lookup?_receiver hS.older hframe .super).trans (if_neg (by decide))
    | class_ => cases hnone

/-- In a method of a class, `super` is the superclass that the class was declared with. -/
theorem Knit.lookup?_super_eq (hS : S.Knit rule) (htidy : rule.tidy) (hf : S.Lexical f)
    (howner : S.owner? f .this = some g) (hg : S.frames[g]? = some (.receiver c.scope o))
    (hc : S.Declares k c) :
    S.lookup? f .super = (S.superclass? k).map .class_ := by
  rw [hS.lookup?_super_of_owner hf howner hg]
  have hmethod := hS.method k c hc
  cases hk : S.superclass? k with
  | none => exact (hmethod.root hk).2 htidy
  | some l =>
    obtain ⟨scope, hscope⟩ := hmethod.subclass l hk
    exact lookup?_super hS.older hscope

end Store

namespace Eval

variable {names : Interner} {m m₁ : Machine}

theorem property_ok (h : property (.object o) x names m = .ok v m₁) :
    m.store.field? o x.name = some v ∨ ∃ j c, m.store.objectClass? o = some j ∧
    m.store.findMethod? j x.name = some c ∧ m.store.Binds c o v m₁.store := by
  simp only [property, Bind.bind, query] at h
  cases hfield : m.store.field? o x.name with
  | some w =>
    rw [hfield] at h
    cases h
    exact .inl rfl
  | none =>
    rw [hfield] at h
    cases hfind : (m.store.objectClass? o).bind fun c => m.store.findMethod? c x.name with
    | none =>
      simp only [hfind] at h
      cases h
    | some c =>
      obtain ⟨j, hj, hc⟩ := Option.bind_eq_some_iff.mp hfind
      simp only [hfind] at h
      cases h
      exact .inr ⟨j, c, hj, hc, _, rfl, rfl⟩

theorem superMethod_ok (hsuper : m.store.lookup? m.current .super = some (.class_ l))
    (hthis : m.store.lookup? m.current .this = some (.object o))
    (h : superMethod x span names m = .ok v m₁) :
    ∃ c, m.store.findMethod? l x.name = some c ∧ m.store.Binds c o v m₁.store := by
  rw [superMethod_of_receiver hsuper hthis] at h
  cases hfind : m.store.findMethod? l x.name with
  | none =>
    rw [hfind] at h
    cases h
  | some c =>
    rw [hfind] at h
    cases h
    exact ⟨c, rfl, _, rfl, rfl⟩

end Eval

namespace Regime

variable {rule : CodeRule} {m m₁ : Machine} {names : Interner}

theorem superMethod_right (hS : m.store.Sound rule) (htidy : rule.tidy)
    (hf : m.store.Lexical m.current) (h : Eval.superMethod x span names m = .ok v m₁) :
    ∃ o j k l d c, m.store.lookup? m.current .this = some (.object o) ∧
      m.store.objectClass? o = some j ∧ k ∈ m.store.classChain j ∧ m.store.superclass? k = some l ∧
      m.store.Finds l x.name d c ∧
      d ∈ m.store.classChain j ∧ m.store.Binds c o v m₁.store := by
  cases hsuper : m.store.lookup? m.current .super with
  | none => cases (Eval.superMethod_of_none hsuper).symm.trans h
  | some w =>
    obtain ⟨k, l, o, j, rfl, hl, hthis, hj, hk⟩ := hS.knit.exists_receiver hf hsuper
    obtain ⟨c, hc, hbinds⟩ := Eval.superMethod_ok hsuper hthis h
    obtain ⟨d, hfinds, hd⟩ := Store.exists_finds hc
    -- From the class of the receiver up to the one with this superclass, and on to where the method
    -- is.
    have hinherits : d ∈ m.store.classChain k := by
      rw [Store.classChain_of_superclass hl (hS.knit.superclass_lt k l hl)]
      exact List.mem_cons_of_mem _ hd
    exact ⟨o, j, k, l, d, c, hthis, hj, hk htidy, hl, hfinds,
      Store.mem_classChain_trans (hk htidy) hinherits, hbinds⟩

theorem Leads.bindsRightly (h : (Regime.knit rule).Leads m₀ t m) :
    m.BindsRightly rule.tidy names t := by
  refine ⟨?_, ?_, ?_, ?_⟩
  · intro n e x o m₁ v m₂ _ _ hproperty
    rcases Eval.property_ok hproperty with hfield | ⟨j, c, hj, hc, hbinds⟩
    · exact .inl hfield
    · obtain ⟨d, hfinds, hd⟩ := Store.exists_finds hc
      exact .inr ⟨j, d, c, hj, hfinds, hd, hbinds⟩
  · intro k args span ready m₁ _ hinvokes
    cases hinvokes with
    | @initializer _ c _ S hinit _ hready =>
      obtain ⟨d, hfinds, hd⟩ := Store.exists_finds hinit
      exact ⟨_, _, d, c, rfl, by simp [Store.objectClass?], hfinds, hd, hready⟩
  · intro htidy x span v m₁ ht hsuper
    subst ht
    exact superMethod_right h.good htidy h.fit.1 hsuper
  · intro htidy x span f c o k ht howner hframe hc
    subst ht
    have hsees := h.good.knit.lookup?_super_eq htidy h.fit.1 howner hframe hc
    refine ⟨hsees, fun hk => Eval.superMethod_of_none ?_⟩
    rw [hsees, hk]
    rfl

end Regime

/-- A program is tidy if the methods of its classes only have simple statements in them. -/
theorem Program.tidy_of_simple {p : Program} (h : ∀ s ∈ p.statements, ∀ t ∈ s.parts, t.parts = [] ∧
    (Code.stmt t).isRootClass = false) : p.Tidy := by
  intro x y methods hclass decl hdecl t ht z others hinside
  obtain ⟨s, hs, hclass⟩ := hclass
  have hbody : t ∈ (Stmt.classDecl x (some y) methods).parts :=
    Stmt.mem_parts.mpr (.inr ⟨decl, hdecl, ht⟩)
  rcases Relation.ReflTransGen.cases_head hclass with rfl | ⟨u, hu, hclass⟩
  · obtain ⟨hsimple, hroot⟩ := h _ hs t hbody
    rcases Relation.ReflTransGen.cases_head hinside with rfl | ⟨v, hv, -⟩
    · cases hroot
    · exact absurd (hsimple ▸ hv) List.not_mem_nil
  · -- A class inside a method would have no methods itself.
    obtain ⟨hsimple, -⟩ := h s hs u hu
    rcases Relation.ReflTransGen.cases_head hclass with rfl | ⟨v, hv, -⟩
    · exact absurd (hsimple ▸ hbody) List.not_mem_nil
    · exact absurd (hsimple ▸ hv) List.not_mem_nil

namespace Session

variable {s : Session}

/-- At every moment of a session of texts, methods are bound to objects of the right classes. As for
`super`, the programs have to be tidy. -/
theorem receivers_are_of_the_right_class {Q : Program → Prop} (h : s.OfTexts Q) :
    ∀ names k t m, s.Moment Q names k t m → m.BindsRightly (∀ p, Q p → p.Tidy) names t := by
  intro names k t m hm
  have hQ : Permits Q (∀ p, Q p → p.Tidy) := id
  exact (hm.leads hQ (h.sound hQ)).bindsRightly

/-- An object of a class is made ready by the method that the class inherits from the one above its
superclass. -/
theorem inherited_initializer_gets_right_receiver :
    let source := "class A \x7b init() \x7b this.n = 1; \x7d \x7d " ++
      "class B < A \x7b m() \x7b return super.init; \x7d \x7d " ++
      "class C < B \x7b \x7d"
    ∃ s, (opened {}).run 20 source = some s ∧ s.OfTexts Program.Tidy ∧ ∃ ready m₁,
      Eval.Invokes [] s.machine (.class_ 2) ready m₁ ∧
        ∃ S o d c, s.machine.store.addObject { cls := 2 } = (o, S) ∧ S.objectClass? o = some 2 ∧
        S.Finds 2 .init d c ∧ d ∈ S.classChain 2 ∧
        S.bindMethod c (.object o) = (ready, m₁.store) := by
  intro source
  have hsimple : (readSource .initial source).program.statements.all (fun s =>
      s.parts.all fun t => t.parts.isEmpty && !(Code.stmt t).isRootClass) = true := by
    decide +kernel
  have htidy : (readSource (opened {}).names source).program.Tidy := by
    refine Program.tidy_of_simple fun s hs t ht => ?_
    have ht := List.all_eq_true.mp (List.all_eq_true.mp hsimple s hs) t ht
    simpa only [Bool.and_eq_true, List.isEmpty_iff, Bool.not_eq_true'] using ht
  have hall : ((opened {}).run 20 source).any (fun s => s.machine.store.classes.size = 3 &&
      ((s.machine.store.addObject { cls := 2 }).2.findMethod? 2 .init).any fun c =>
        c.arity = 0) = true := by
    decide +kernel
  obtain ⟨s, hs, hall⟩ := (Option.any_eq_true _ _).mp hall
  simp only [Bool.and_eq_true, decide_eq_true_eq] at hall
  obtain ⟨c, hc, harity⟩ := (Option.any_eq_true _ _).mp hall.2
  have htexts : s.OfTexts Program.Tidy := ⟨{}, .single (.run htidy hs)⟩
  have hcallee : (Value.class_ 2).In s.machine.store := by
    intro p hp
    cases hp
    exact show 2 < s.machine.store.classes.size by omega
  have hmoment : s.Moment Program.Tidy s.names 1 (.call (.class_ 2) [] default) s.machine :=
    ⟨1, _, _, .call hcallee fun v hv => absurd hv List.not_mem_nil, .refl⟩
  have hinvokes : Eval.Invokes [] s.machine (.class_ 2) _ _ :=
    .initializer hc (of_decide_eq_true harity) rfl
  exact ⟨s, hs, htexts, _, _, hinvokes,
    (receivers_are_of_the_right_class htexts _ _ _ _ hmoment).initializer 2 [] default
      _ _ rfl hinvokes⟩

/-- A class without a superclass that is declared in a method of a class with one sees its `super`:
a method of the class `A` is bound to an object of the class `C`, which is not below `A` and has no
method of that name. -/
theorem super_reaches_into_inner_class :
    let source := "class A \x7b m() \x7b return this; \x7d \x7d " ++
      "class B < A \x7b " ++
      "make() \x7b class C \x7b go() \x7b return super.m; \x7d \x7d return C(); \x7d \x7d " ++
      "var f = B().make().go();"
    ∃ s, (opened {}).run 30 source = some s ∧ (s.OfTexts fun _ => True) ∧
      ∃ x c d, s.names.get? "m" = some x ∧ s.global? "f" = some (.function 2) ∧
      s.machine.store.functions[2]? = some c ∧
      s.machine.store.findMethod? 0 x = some d ∧ s.machine.store.className 0 = "A" ∧
      c.name = d.name ∧
      s.machine.store.lookup? c.scope .this = some (.object 1) ∧
      s.machine.store.objectClass? 1 = some 2 ∧
      s.machine.store.superclass? 2 = none ∧ s.machine.store.findMethod? 2 x = none ∧
      0 ∉ s.machine.store.classChain 2 := by
  intro source
  have hall : ((opened {}).run 30 source).any (fun s => (s.names.get? "m").any fun x =>
      (s.global? "f").any (·.equal (.function 2)) && s.machine.store.functions[2]?.any fun c =>
      (s.machine.store.findMethod? 0 x).any fun d =>
      s.machine.store.className 0 = "A" && c.name = d.name &&
      (s.machine.store.lookup? c.scope .this).any (·.equal (.object 1)) &&
      s.machine.store.objectClass? 1 = some 2 && s.machine.store.superclass? 2 = none &&
      (s.machine.store.findMethod? 2 x).isNone &&
        !(s.machine.store.classChain 2).contains 0) = true := by
    decide +kernel
  obtain ⟨s, hs, hall⟩ := (Option.any_eq_true _ _).mp hall
  obtain ⟨x, hx, hall⟩ := (Option.any_eq_true _ _).mp hall
  obtain ⟨hglobal, hall⟩ := Bool.and_eq_true_iff.mp hall
  obtain ⟨v, hv, hfunction⟩ := (Option.any_eq_true _ _).mp hglobal
  obtain ⟨c, hc, hall⟩ := (Option.any_eq_true _ _).mp hall
  obtain ⟨d, hd, hall⟩ := (Option.any_eq_true _ _).mp hall
  simp only [Bool.and_eq_true, decide_eq_true_eq, Option.isNone_iff_eq_none, Bool.not_eq_true',
    List.contains_eq_mem, decide_eq_false_iff_not] at hall
  obtain ⟨⟨⟨⟨⟨⟨hA, hname⟩, hthis⟩, hclass⟩, hroot⟩, hmissing⟩, hchain⟩ := hall
  obtain ⟨w, hw, hobject⟩ := (Option.any_eq_true _ _).mp hthis
  cases Value.same_of_equal hfunction
  cases Value.same_of_equal hobject
  have htexts : s.OfTexts fun _ => True := ⟨{}, .single (.run trivial hs)⟩
  exact ⟨s, hs, htexts, x, c, d, hx, hv, hc, hd, hA, hname, hw, hclass, hroot, hmissing, hchain⟩

end Session

end TreeWalk
