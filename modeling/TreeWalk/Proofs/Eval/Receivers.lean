import TreeWalk.Proofs.Eval.Knit
import TreeWalk.Proofs.Eval.Moments

/-!
# Programs keep stores knit

Whatever code runs that keeps to a rule, the store stays closed and knit, and `this` and `super`
stay what they were as seen from each frame (`Regime.knit`). The errors it can end with are those of
its own nodes (`CodeRule.Faults`).
-/

namespace TreeWalk

/-! ## Closed stores -/

/-- The discipline of a program to which every place of the store is known: no place refers to one
that is not there. -/
def Discipline.closed : Discipline :=
  .confined {} fun _ => False

namespace Store

variable {S T : Store}

theorem known_closed : Store.Known {} (fun _ => False) S p ↔ S.Has p := by
  constructor
  · rintro (⟨r, hr, -⟩ | ⟨-, hp⟩)
    · exact absurd hr id
    · exact hp
  · intro hp
    refine .inr ⟨fun hempty => ?_, hp⟩
    cases p <;> exact absurd hempty (Nat.not_lt_zero _)

theorem holds_closed : Discipline.closed.Holds S v ↔ ∀ p, v.Mentions p → S.Has p :=
  ⟨fun h p hp => known_closed.mp (h p hp), fun h p hp => known_closed.mpr (h p hp)⟩

theorem scope_closed (h : f < S.frames.size) : Discipline.closed.Scope S f :=
  known_closed.mpr h

theorem mem_classChain_trans (h : k ∈ S.classChain j) (hd : d ∈ S.classChain k) :
    d ∈ S.classChain j := by
  induction j using Store.classChain.induct S with
  | case1 j hnone =>
    have hself := h
    rw [classChain, hnone] at hself
    cases List.mem_singleton.mp hself
    exact hd
  | case2 j l hl hlt ih =>
    rw [classChain_of_superclass hl hlt] at h
    rcases List.mem_cons.mp h with rfl | h
    · exact hd
    · rw [classChain_of_superclass hl hlt]
      exact List.mem_cons_of_mem _ (ih h)
  | case3 j l hl hle =>
    have hself := h
    rw [classChain, hl] at hself
    dsimp only at hself
    rw [if_neg hle] at hself
    cases List.mem_singleton.mp hself
    exact hd

/-- A store as programs that keep to the rule leave it. -/
structure Sound (rule : CodeRule) (S : Store) : Prop where
  closed : Discipline.closed.Good S
  knit : S.Knit rule

/-- How a store develops while such programs run. -/
structure Develops (S T : Store) : Prop where
  closed : Discipline.closed.Grows S T
  keeps : S.Keeps T

end Store

/-- An error that code which keeps to the rule can end with: some node of it is to blame. -/
inductive CodeRule.Faults (rule : CodeRule) (names : Interner) : RuntimeError → Prop
  | node : rule.Allows a → S.Sound rule → S.Lexical f → a.Blames names S f err →
      Faults rule names err
  | arity : rule.Allows (.expr (.call e args span)) →
      Faults rule names (.arityMismatch shown m n span)
  | callee : rule.Allows (.expr (.call e args span)) → Faults rule names (.notCallable shown span)
  | ret : rule.Allows (.stmt (.ret e span)) → Faults rule names (.returnOutsideFunction span)

namespace Store

variable {rule : CodeRule} {S T : Store} {f : FrameId}

theorem Runs.inner (h : S.Runs rule f a) (hb : b ∈ a.inner) : S.Runs rule f b :=
  ⟨h.allows.inner hb, fun htidy hsuper => Code.Everywhere.inner (h.rootless htidy hsuper) hb⟩

/-- Code may run in a new frame inside the one where it may run. -/
theorem Runs.extend (hT : (S.extend f pairs).2.ParentsOlder) (hkeeps : S.Keeps (S.extend f pairs).2)
    (hf : f < S.frames.size) (hpairs : ∀ p ∈ pairs, p.1.Plain) (h : S.Runs rule f a) :
    (S.extend f pairs).2.Runs rule (S.extend f pairs).1 a := by
  refine ⟨h.allows, fun htidy hsuper => h.rootless htidy ?_⟩
  have hsees : (S.extend f pairs).2.lookup? (S.extend f pairs).1 .super =
      (S.extend f pairs).2.lookup? f .super :=
    lookup?_ordinary hT (frame_extend_new S f pairs) (Frame.ordinary_ofList hpairs (some f))
      fun hx => hx.2 rfl
  rwa [hsees, hkeeps.sees f .super hf fun hx => hx.2 rfl] at hsuper

theorem Runs.function (h : S.Runs rule f (.stmt (.fnDecl decl))) (hf : S.Lexical f)
    (shown : String) :
    S.Ready rule ⟨shown, decl, f, false⟩ := by
  refine ⟨⟨fun s hs => ⟨?_, fun htidy hsuper => ?_⟩, fun x hx => ?_⟩, hf, fun hinit => ?_⟩
  · exact h.allows.body List.mem_cons_self hs
  · exact Code.Everywhere.body (h.rootless htidy hsuper) List.mem_cons_self hs
  · exact rule.ident h.allows.self (List.mem_cons_of_mem _ hx)
  · cases hinit

theorem Sound.newClass (hS : S.Sound rule) (hf : S.Lexical f)
    (hrun : S.Runs rule f (.stmt (.classDecl x sup methods))) (hk : k.isSome = sup.isSome)
    (hclass : ∀ j ∈ k, Discipline.closed.Holds S (.class_ j)) (hsup : info.superclass = k)
    (htable : TableOf methods (S.methodScope f k).1 info.methods) :
    ((S.methodScope f k).2.addClass info).2.Knit rule ∧
      S.Keeps ((S.methodScope f k).2.addClass info).2 := by
  cases k with
  | none =>
    cases sup with
    | none => exact hS.knit.newRoot hf hrun hsup htable
    | some y => cases hk
  | some j =>
    cases sup with
    | none => cases hk
    | some y =>
      have hj : j < S.classes.size := holds_closed.mp (hclass j rfl) _ .class_
      exact hS.knit.newSubclass hf hrun hj hsup htable rfl

end Store

/-- The regime of code that keeps to the rule. -/
def Regime.knit (rule : CodeRule) : Regime where
  Good S := S.Sound rule
  Grows S T := S.Develops T
  Holds S v := Discipline.closed.Holds S v
  Scope S f := S.Lexical f
  Own S f := S.Open f
  Runs S f a := S.Runs rule f a
  Callable S c := S.Ready rule c
  Binds x := x.Plain
  Site span := ∃ e args, rule.Allows (.expr (.call e args span))
  Leaves span := ∃ e, rule.Allows (.stmt (.ret e span))
  Fault names err := rule.Faults names err
  grows_refl {S} := ⟨Discipline.closed.grows_refl, .refl S⟩
  grows_trans h h' := ⟨Discipline.closed.grows_trans h.closed h'.closed, h.keeps.trans h'.keeps⟩
  holds_mono h := Discipline.closed.holds_mono h.closed
  scope_mono h := h.keeps.lexical
  own_mono h := h.keeps.isOpen
  runs_mono h hf := h.keeps.runs hf.lt
  callable_mono h := h.keeps.ready
  scope_of_own h := h.lexical
  holds_plain := Discipline.closed.holds_plain
  holds_tuple _ _ h := Discipline.closed.holds_tuple.mpr h
  holds_element h hv := Discipline.closed.holds_tuple.mp h _ hv
  holds_vector := Discipline.closed.holds_vector
  runs_inner h hb := h.inner hb
  runs_ident h hx := rule.ident h.allows.self hx
  runs_pattern h hp := rule.pattern h.allows.self hp
  runs_call h := ⟨_, _, h.allows.self⟩
  runs_ret h := ⟨_, h.allows.self⟩
  blame hS hf hrun hblames := .node hrun.allows.self hS hf hblames
  blame_arity := fun ⟨_, _, h⟩ => .arity h
  blame_callee := fun ⟨_, _, h⟩ => .callee h
  blame_ret := fun ⟨_, h⟩ => .ret h
  lookup hS hf hx := Discipline.closed.lookup hS.closed (Store.scope_closed hf.lt) hx
  assign {S f g x v} hS hf hx ho hv := by
    obtain ⟨hgood, hgrows⟩ := Discipline.closed.assign hS.closed (Store.scope_closed hf.lt) ho hv
    obtain ⟨hknit, hkeeps⟩ := hS.knit.define (hS.knit.owner hx ho) hx v
    exact ⟨⟨hgood, hknit⟩, hgrows, hkeeps⟩
  define {S f x v} hS hf hx hv := by
    obtain ⟨hgood, hgrows⟩ :=
      Discipline.closed.define hS.closed (Store.scope_closed hf.lexical.lt) hv
    obtain ⟨hknit, hkeeps⟩ := hS.knit.define hf hx v
    exact ⟨⟨hgood, hknit⟩, hgrows, hkeeps⟩
  extend {S f pairs} hS hf hpairs := by
    have hplain : ∀ p ∈ pairs, p.1.Plain := fun p hp => (hpairs p hp).1
    obtain ⟨hgood, hgrows, -⟩ :=
      Discipline.closed.extend hS.closed (Store.scope_closed hf.lt) fun p hp => (hpairs p hp).2
    obtain ⟨hknit, hkeeps, hopen⟩ := hS.knit.extend_plain hf hplain
    exact ⟨⟨hgood, hknit⟩, ⟨hgrows, hkeeps⟩, hopen, fun a ha =>
      ha.extend hknit.older hkeeps hf.lt hplain⟩
  callable hc := ⟨hc.scope, hc.code.params, hc.code.body⟩
  function hS _ hc := hS.knit.function _ _ hc
  functionHere shown _ hf hrun := hrun.function hf shown
  addFunction {S c} hS hc := by
    obtain ⟨hgood, hgrows, hholds⟩ :=
      Discipline.closed.addFunction hS.closed (Store.scope_closed hc.scope.lt)
    obtain ⟨hknit, hkeeps⟩ := hS.knit.addFunction hc
    exact ⟨⟨hgood, hknit⟩, ⟨hgrows, hkeeps⟩, hholds⟩
  newClass {S f x sup methods k info} hS hf hrun hk hclass hsup htable := by
    obtain ⟨hgood, hgrows, hholds⟩ :=
      Discipline.closed.regime.newClass (x := x) hS.closed (Store.scope_closed hf.lt) trivial hk
        hclass hsup htable
    obtain ⟨hknit, hkeeps⟩ := hS.newClass hf hrun hk hclass hsup htable
    exact ⟨⟨hgood, hknit⟩, ⟨hgrows, hkeeps⟩, hholds⟩
  bindMethod {S o k x c} hS ho hk hc := by
    obtain ⟨hgood, hgrows, -⟩ := Discipline.closed.regime.bindMethod hS.closed ho hk hc
    obtain ⟨d, hd, hdeclares⟩ := Store.exists_declares hc
    obtain ⟨hknit, hkeeps, hready⟩ := hS.knit.bindMethod hdeclares hk fun _ => hd
    exact ⟨⟨hgood, hknit⟩, ⟨hgrows, hkeeps⟩, hready⟩
  bindSuper {S f k r x span c} hS hf _ hsuper hthis hc := by
    obtain ⟨hgood, hgrows, -⟩ :=
      Discipline.closed.regime.bindSuper hS.closed (Store.scope_closed hf.lt)
        (show Discipline.closed.regime.Runs S f (.expr (.super x span)) from trivial) hsuper hthis
        hc
    obtain ⟨k', l, o, j, hl, hsub, hreceiver, hj, htidy⟩ := hS.knit.exists_receiver hf hsuper
    cases hl
    cases hthis.symm.trans hreceiver
    obtain ⟨d, hd, hdeclares⟩ := Store.exists_declares hc
    obtain ⟨hknit, hkeeps, hready⟩ := hS.knit.bindMethod hdeclares hj fun ht => by
      apply Store.mem_classChain_trans (htidy ht)
      rw [Store.classChain_of_superclass hsub (hS.knit.superclass_lt _ _ hsub)]
      exact List.mem_cons_of_mem _ hd
    exact ⟨⟨hgood, hknit⟩, ⟨hgrows, hkeeps⟩, hready⟩
  field hS ho hx := Discipline.closed.field hS.closed ho hx
  setField {S o x v} hS ho hv := by
    obtain ⟨hgood, hgrows⟩ := Discipline.closed.setField (x := x) hS.closed ho hv
    obtain ⟨hknit, hkeeps⟩ := hS.knit.setField o x v
    exact ⟨⟨hgood, hknit⟩, hgrows, hkeeps⟩
  addObject {S k} hS hk := by
    obtain ⟨hgood, hgrows, hholds⟩ := Discipline.closed.addObject hS.closed hk
    obtain ⟨hknit, hkeeps⟩ := hS.knit.addObject { cls := k }
    exact ⟨⟨hgood, hknit⟩, ⟨hgrows, hkeeps⟩, hholds⟩

namespace Eval

variable {names : Interner} {m : Machine}

/-! ## Methods of superclasses -/

theorem superMethod_of_none (hsuper : m.store.lookup? m.current .super = none) :
    superMethod x span names m = .fault (.unboundVariable (names.nameOf .super) span) m := by
  simp only [superMethod, Bind.bind, lookup, hsuper]
  rfl

/-- With a superclass and a receiver, the method is found there or is missing. -/
theorem superMethod_of_receiver (hsuper : m.store.lookup? m.current .super = some (.class_ l))
    (hthis : m.store.lookup? m.current .this = some v) :
    superMethod x span names m = (m.store.findMethod? l x.name).elim
      (raise (.undefinedProperty (names.nameOf x.name) x.span))
      (fun c => bindMethod c v >>= newFunction) names m := by
  simp only [superMethod, Bind.bind, lookup, hsuper, hthis, query]
  cases m.store.findMethod? l x.name <;> rfl

end Eval

end TreeWalk
