import TreeWalk.Eval.Run
import TreeWalk.Proofs.Tree

/-!
# Regimes of programs

A `Regime` is a property of stores that every single access keeps, together with what it says of the
values a program holds, of the frames and the code it runs, of the functions it calls and of the
errors it ends with. One induction over the fuel shows that whole evaluations, executions and calls
keep it too (`Regime.evaluate`, `Regime.execute`, `Regime.call`). What programs do is derived from
this by giving a regime.
-/

namespace TreeWalk

/-- The values without parts and without a place in the store. -/
def Value.isPlain : Value → Bool
  | .nil | .bool _ | .number _ | .str _ => true
  | _ => false

namespace Code

/-- The error is one that the piece of code itself ends with, where the frame is `f` in the store
`S`. -/
inductive Blames (names : Interner) (S : Store) (f : FrameId) : Code → RuntimeError → Prop
  | var {x : Ident} : S.lookup? f x.name = none →
      Blames names S f (.expr (.var x)) (.unboundVariable (names.nameOf x.name) x.span)
  | assign {x : Ident} {e : Expr} : S.owner? f x.name = none →
      Blames names S f (.expr (.assign x e)) (.unboundVariable (names.nameOf x.name) x.span)
  | this {span : Span} : S.lookup? f .this = none →
      Blames names S f (.expr (.this span)) (.unboundVariable (names.nameOf .this) span)
  | super {x : Ident} {span : Span} : S.lookup? f .super = none →
      Blames names S f (.expr (.super x span)) (.unboundVariable (names.nameOf .super) span)
  | superThis {x : Ident} {span : Span} {k : ClassId} :
      S.lookup? f .super = some (.class_ k) → S.lookup? f .this = none →
      Blames names S f (.expr (.super x span)) (.unboundVariable (names.nameOf .this) span)
  | superClass {x : Ident} {span : Span} {v : Value} {shown : String} :
      S.lookup? f .super = some v → (∀ k, v ≠ .class_ k) →
      Blames names S f (.expr (.super x span)) (.superclassNotClass shown span)
  | superMethod {x : Ident} {span : Span} :
      Blames names S f (.expr (.super x span)) (.undefinedProperty (names.nameOf x.name) x.span)
  | unary {op : UnaryOp} {e : Expr} {v : Value} {span : Span} {err : RuntimeError} :
      op.apply v span = .error err → Blames names S f (.expr (.unary op e span)) err
  | binary {op : BinaryOp} {l r : Expr} {v w : Value} {span : Span} {err : RuntimeError} :
      op.apply v w span = .error err → Blames names S f (.expr (.binary l op r span)) err
  | get {x : Ident} {e : Expr} {shown : String} :
      Blames names S f (.expr (.get e x)) (.notAnInstance shown x.span)
  | property {x : Ident} {e : Expr} :
      Blames names S f (.expr (.get e x)) (.undefinedProperty (names.nameOf x.name) x.span)
  | set {x : Ident} {e value : Expr} {shown : String} :
      Blames names S f (.expr (.set e x value)) (.notAnInstance shown x.span)
  | case {e : Expr} {arms : List CaseArm} {span : Span} {shown : String} :
      Blames names S f (.expr (.case e arms span)) (.nonExhaustiveMatch shown span)
  | print {e : Expr} {span : Span} {shown : String} :
      Blames names S f (.stmt (.print e span)) (.output shown span)
  | superclass {x y : Ident} {methods : List FunctionDecl} : S.lookup? f y.name = none →
      Blames names S f (.stmt (.classDecl x (some y) methods))
        (.unboundVariable (names.nameOf y.name) y.span)
  | notClass {x y : Ident} {methods : List FunctionDecl} :
      Blames names S f (.stmt (.classDecl x (some y) methods))
        (.superclassNotClass (names.nameOf y.name) y.span)

end Code

namespace Store

/-- The frame that the methods of a class with this superclass see, and the store with it. -/
def methodScope (S : Store) (f : FrameId) : Option ClassId → FrameId × Store
  | none => (f, S)
  | some k => S.extend f [(.super, .class_ k)]

/-- The table has methods of the list, each under its name and all with this frame. -/
def TableOf (methods : List FunctionDecl) (scope : FrameId) (table : Bindings Closure) : Prop :=
  ∀ x c, table.get? x = some c →
    c.decl ∈ methods ∧ c.scope = scope ∧ c.decl.name.name = x ∧ c.isInitializer = (x == .init)

end Store

/-- The state in which a computation in a new frame starts. -/
def Machine.nest (m : Machine) (scope : FrameId) (pairs : List (Symbol × Value)) : Machine :=
  { m with store := (m.store.extend scope pairs).2, current := (m.store.extend scope pairs).1 }

structure Regime where
  /-- What holds of the store between any two accesses. -/
  Good : Store → Prop
  /-- How the store may develop. -/
  Grows : Store → Store → Prop
  /-- The values that the program may hold. -/
  Holds : Store → Value → Prop
  /-- The frames whose names the program may use. -/
  Scope : Store → FrameId → Prop
  /-- The frames in which the program may declare names. -/
  Own : Store → FrameId → Prop
  /-- The code that may run in a frame. -/
  Runs : Store → FrameId → Code → Prop
  /-- The functions that the program may call. -/
  Callable : Store → Closure → Prop
  /-- The names that the program may bind. -/
  Binds : Symbol → Prop
  /-- The places at which calls are reported. -/
  Site : Span → Prop
  /-- The places at which functions are left. -/
  Leaves : Span → Prop
  /-- The errors that the program may end with. -/
  Fault : Interner → RuntimeError → Prop
  grows_refl {S} : Grows S S
  grows_trans {S T U} : Grows S T → Grows T U → Grows S U
  holds_mono {S T v} : Grows S T → Holds S v → Holds T v
  scope_mono {S T f} : Grows S T → Scope S f → Scope T f
  own_mono {S T f} : Grows S T → Own S f → Own T f
  runs_mono {S T f a} : Grows S T → Scope S f → Runs S f a → Runs T f a
  callable_mono {S T c} : Grows S T → Callable S c → Callable T c
  scope_of_own {S f} : Own S f → Scope S f
  holds_plain {S v} : v.isPlain → Holds S v
  holds_tuple {S f es span vs} : Runs S f (.expr (.tuple es span)) → vs.length = es.length →
    (∀ v ∈ vs, Holds S v) → Holds S (.tuple vs)
  holds_element {S vs v} : Holds S (.tuple vs) → v ∈ vs → Holds S v
  holds_vector {S vs} : Holds S (.vector vs) ↔ ∀ v ∈ vs, Holds S v
  runs_inner {S f a b} : Runs S f a → b ∈ a.inner → Runs S f b
  runs_ident {S f a x} : Runs S f a → x ∈ a.idents → Binds x.name
  runs_pattern {S f e p} : Runs S f (.expr e) → p ∈ e.patterns → p.Everywhere fun q =>
    ∀ x ∈ q.idents, Binds x.name
  runs_call {S f e args span} : Runs S f (.expr (.call e args span)) → Site span
  runs_ret {S f e span} : Runs S f (.stmt (.ret e span)) → Leaves span
  blame {names S f a err} : Good S → Scope S f → Runs S f a → a.Blames names S f err →
    Fault names err
  blame_arity {names shown m n span} : Site span → Fault names (.arityMismatch shown m n span)
  blame_callee {names shown span} : Site span → Fault names (.notCallable shown span)
  blame_ret {names span} : Leaves span → Fault names (.returnOutsideFunction span)
  lookup {S f x v} : Good S → Scope S f → S.lookup? f x = some v → Holds S v
  assign {S f g x v} : Good S → Scope S f → Binds x → S.owner? f x = some g → Holds S v →
    Good (S.define g x v) ∧ Grows S (S.define g x v)
  define {S f x v} : Good S → Own S f → Binds x → Holds S v → Good (S.define f x v) ∧
    Grows S (S.define f x v)
  extend {S f pairs} : Good S → Scope S f → (∀ p ∈ pairs, Binds p.1 ∧ Holds S p.2) →
    Good (S.extend f pairs).2 ∧ Grows S (S.extend f pairs).2 ∧
      Own (S.extend f pairs).2 (S.extend f pairs).1 ∧
      ∀ a, Runs S f a → Runs (S.extend f pairs).2 (S.extend f pairs).1 a
  callable {S c} : Callable S c → Scope S c.scope ∧ (∀ x ∈ c.decl.params, Binds x.name) ∧
    ∀ s ∈ c.decl.body, Runs S c.scope (.stmt s)
  function {S f c} : Good S → Holds S (.function f) → S.functions[f]? = some c → Callable S c
  functionHere {S f decl} (shown : String) : Good S → Scope S f → Runs S f (.stmt (.fnDecl decl)) →
    Callable S ⟨shown, decl, f, false⟩
  addFunction {S c} : Good S → Callable S c →
    Good (S.addFunction c).2 ∧ Grows S (S.addFunction c).2 ∧
      Holds (S.addFunction c).2 (.function (S.addFunction c).1)
  newClass {S f x sup methods k info} : Good S → Scope S f →
    Runs S f (.stmt (.classDecl x sup methods)) → k.isSome = sup.isSome →
    (∀ j ∈ k, Holds S (.class_ j)) → info.superclass = k →
    Store.TableOf methods (S.methodScope f k).1 info.methods →
    Good ((S.methodScope f k).2.addClass info).2 ∧ Grows S ((S.methodScope f k).2.addClass info).2 ∧
      Holds ((S.methodScope f k).2.addClass info).2
        (.class_ ((S.methodScope f k).2.addClass info).1)
  bindMethod {S o k x c} : Good S → Holds S (.object o) → S.objectClass? o = some k →
    S.findMethod? k x = some c →
    Good (S.bindMethod c (.object o)).2 ∧ Grows S (S.bindMethod c (.object o)).2 ∧
      Callable (S.bindMethod c (.object o)).2 (S.bindMethod c (.object o)).1
  bindSuper {S f k r x span c} : Good S → Scope S f → Runs S f (.expr (.super x span)) →
    S.lookup? f .super = some (.class_ k) → S.lookup? f .this = some r →
    S.findMethod? k x.name = some c →
    Good (S.bindMethod c r).2 ∧ Grows S (S.bindMethod c r).2 ∧
      Callable (S.bindMethod c r).2 (S.bindMethod c r).1
  field {S o x v} : Good S → Holds S (.object o) → S.field? o x = some v → Holds S v
  setField {S o x v} : Good S → Holds S (.object o) → Holds S v →
    Good (S.setField o x v) ∧ Grows S (S.setField o x v)
  addObject {S k} : Good S → Holds S (.class_ k) →
    Good (S.addObject { cls := k }).2 ∧ Grows S (S.addObject { cls := k }).2 ∧
      Holds (S.addObject { cls := k }).2 (.object (S.addObject { cls := k }).1)

namespace Regime

variable {R : Regime} {α β : Type} {S T : Store} {f : FrameId} {x : Ident} {v : Value} {c : Closure}

theorem runs_part (h : R.Runs S f (.expr e)) (hd : d ∈ e.parts) : R.Runs S f (.expr d) :=
  R.runs_inner h (List.mem_map_of_mem hd)

theorem runs_expr (h : R.Runs S f (.stmt s)) (he : e ∈ s.exprs) : R.Runs S f (.expr e) :=
  R.runs_inner h (List.mem_append_left _ (List.mem_map_of_mem he))

theorem runs_stmt (h : R.Runs S f (.stmt s)) (ht : t ∈ s.inner) : R.Runs S f (.stmt t) :=
  R.runs_inner h (List.mem_append_right _ (List.mem_map_of_mem ht))

/-- The state `m'` is one that a computation started in `m` may end in. -/
structure Follows (R : Regime) (m m' : Machine) : Prop where
  current : m'.current = m.current
  grows : R.Grows m.store m'.store
  good : R.Good m'.store

theorem Follows.trans (h : R.Follows m m') (h' : R.Follows m' m'') : R.Follows m m'' :=
  ⟨h'.current.trans h.current, R.grows_trans h.grows h'.grows, h'.good⟩

/-- A state with the same store and frame follows. -/
theorem Follows.still (h : R.Good m.store) (hstore : m'.store = m.store)
    (hcurrent : m'.current = m.current) :
    R.Follows m m' :=
  ⟨hcurrent, hstore ▸ R.grows_refl, hstore ▸ h⟩

/-- An outcome of a computation started in `m` is as it should be, and so is its value or its
error. -/
def Ends (R : Regime) (names : Interner) (m : Machine) (V : Store → α → Prop) : Outcome α → Prop
  | .ok a m' => R.Follows m m' ∧ V m'.store a
  | .fault e m' => R.Follows m m' ∧ R.Fault names e
  | .exhausted => True

/-- In the frame `f`, the computation keeps the regime from `S` on, and gives values of which `V`
holds. -/
def Sound (R : Regime) (S : Store) (f : FrameId) (act : Eval α) (V : Store → α → Prop) : Prop :=
  ∀ names m, m.current = f → R.Grows S m.store → R.Good m.store → R.Ends names m V (act names m)

variable {V : Store → α → Prop} {W : Store → β → Prop}

/-! ## Sequences -/

/-- What is sound for a store is sound for all that it grows into. -/
theorem Sound.mono {act : Eval α} (h : R.Sound S f act V) (hg : R.Grows S T) : R.Sound T f act V :=
  fun names m hf hT hm => h names m hf (R.grows_trans hg hT) hm

theorem Sound.pure (h : ∀ T, R.Grows S T → V T a) : R.Sound S f (Pure.pure a : Eval α) V :=
  fun _ m _ hg hm => ⟨.still hm rfl rfl, h m.store hg⟩

theorem Ends.imp {o : Outcome α} {V' : Store → α → Prop} (h : R.Ends names m V o)
    (himp : ∀ T a, V T a → V' T a) :
    R.Ends names m V' o := by
  cases o with
  | ok a m' => exact ⟨h.1, himp _ _ h.2⟩
  | fault e m' => exact h
  | exhausted => trivial

/-- The second part starts from where the first ended. -/
theorem Ends.bind {act : Eval α} {next : α → Eval β} (h : R.Ends names m V (act names m))
    (hnext : ∀ a m', R.Follows m m' → V m'.store a → R.Ends names m' W (next a names m')) :
    R.Ends names m W ((act >>= next) names m) := by
  simp only [Bind.bind]
  cases hact : act names m with
  | ok a m' =>
    rw [hact] at h
    obtain ⟨hm', ha⟩ := h
    have hrest := hnext a m' hm' ha
    dsimp only
    cases hn : next a names m' with
    | ok b m'' =>
      rw [hn] at hrest
      exact ⟨hm'.trans hrest.1, hrest.2⟩
    | fault e m'' =>
      rw [hn] at hrest
      exact ⟨hm'.trans hrest.1, hrest.2⟩
    | exhausted => trivial
  | fault e m' =>
    rw [hact] at h
    exact h
  | exhausted => trivial

/-- The same for computations. -/
theorem Sound.bind {act : Eval α} {next : α → Eval β} (hx : R.Sound S f act V)
    (hnext : ∀ a T, R.Grows S T → V T a → R.Sound T f (next a) W) :
    R.Sound S f (act >>= next) W := by
  intro names m hf hg hm
  refine (hx names m hf hg hm).bind fun a m' hm' ha => ?_
  exact hnext a m'.store (R.grows_trans hg hm'.grows) ha names m' (hm'.current.trans hf)
    R.grows_refl hm'.good

theorem Sound.raise {V : Store → α → Prop}
    (h : ∀ names T, R.Grows S T → R.Good T → R.Fault names e) :
    R.Sound S f (Eval.raise e : Eval α) V :=
  fun names m _ hg hm => ⟨.still hm rfl rfl, h names m.store hg hm⟩

theorem Sound.exhausted {V : Store → α → Prop} : R.Sound S f (Eval.exhausted : Eval α) V :=
  fun _ _ _ _ _ => trivial

theorem Sound.record : R.Sound S f (Eval.record event) fun _ _ => True :=
  fun _ _ _ _ hm => ⟨.still hm rfl rfl, trivial⟩

theorem Sound.query {q : Store → α} (h : ∀ T, R.Grows S T → R.Good T → V T (q T)) :
    R.Sound S f (Eval.query q) V :=
  fun _ m _ hg hm => ⟨.still hm rfl rfl, h m.store hg hm⟩

/-- A change of the store has to keep it good. -/
theorem Sound.update {q : Store → α × Store}
    (h : ∀ T, R.Grows S T → R.Good T → (R.Good (q T).2 ∧ R.Grows T (q T).2) ∧ V (q T).2 (q T).1) :
    R.Sound S f (Eval.update q) V := by
  intro names m _ hg hm
  obtain ⟨⟨hgood, hgrows⟩, hv⟩ := h m.store hg hm
  exact ⟨⟨rfl, hgrows, hgood⟩, hv⟩

theorem Sound.ofExcept {r : Except RuntimeError α} (hok : ∀ a T, R.Grows S T → r = .ok a → V T a)
    (herror : ∀ err names T, R.Grows S T → R.Good T → r = .error err → R.Fault names err) :
    R.Sound S f (Eval.ofExcept r) V := by
  cases r with
  | ok a => exact .pure fun T hg => hok a T hg rfl
  | error err => exact .raise fun names T hg hm => herror err names T hg hm rfl

/-! ## Names and frames -/

/-- A name without a value has to be an error that may be raised. -/
theorem Sound.lookup (hf : R.Scope S f)
    (hnone : ∀ names T, R.Grows S T → R.Good T → T.lookup? f x.name = none →
      R.Fault names (.unboundVariable (names.nameOf x.name) x.span)) :
    R.Sound S f (Eval.lookup x) R.Holds := by
  intro names m hcurrent hg hm
  subst hcurrent
  unfold Eval.lookup
  split
  · next v hv => exact ⟨.still hm rfl rfl, R.lookup hm (R.scope_mono hg hf) hv⟩
  · next hv => exact ⟨.still hm rfl rfl, hnone names m.store hg hm hv⟩

/-- Names are bound only in frames in which code may declare them. -/
theorem Sound.define {x : Symbol} (hf : R.Own S f) (hx : R.Binds x) (hv : R.Holds S v) :
    R.Sound S f (Eval.define x v) fun _ _ => True := by
  intro names m hcurrent hg hm
  subst hcurrent
  obtain ⟨hgood, hgrows⟩ := R.define hm (R.own_mono hg hf) hx (R.holds_mono hg hv)
  exact ⟨⟨rfl, hgrows, hgood⟩, trivial⟩

/-- The store stays good, and a name that is not bound is an error that may be raised. -/
theorem Sound.assign (hf : R.Scope S f) (hrun : R.Runs S f (.expr (.assign x e)))
    (hv : R.Holds S v) :
    R.Sound S f (Eval.assign x v) R.Holds := by
  intro names m hcurrent hg hm
  subst hcurrent
  have hscope := R.scope_mono hg hf
  unfold Eval.assign
  split
  · next g ho =>
    have hv := R.holds_mono hg hv
    obtain ⟨hgood, hgrows⟩ := R.assign hm hscope (R.runs_ident hrun List.mem_cons_self) ho hv
    exact ⟨⟨rfl, hgrows, hgood⟩, R.holds_mono hgrows hv⟩
  · next ho =>
    exact ⟨.still hm rfl rfl, R.blame hm hscope (R.runs_mono hg hf hrun) (.assign ho)⟩

/-- Coming back to the frame in which a computation started. -/
theorem Ends.backTo {o : Outcome α} (hgrows : R.Grows m.store m'.store) (h : R.Ends names m' V o) :
    R.Ends names m V (Eval.backTo m.current o) := by
  cases o with
  | ok a m'' => exact ⟨⟨rfl, R.grows_trans hgrows h.1.grows, h.1.good⟩, h.2⟩
  | fault e m'' => exact ⟨⟨rfl, R.grows_trans hgrows h.1.grows, h.1.good⟩, h.2⟩
  | exhausted => trivial

/-- A computation in a new frame may declare names there, wherever it was started. -/
theorem Sound.within (hscope : R.Scope S g) (hp : ∀ p ∈ pairs, R.Binds p.1 ∧ R.Holds S p.2)
    (h : ∀ T new, R.Grows S T → R.Own T new → (∀ a, R.Runs S g a → R.Runs T new a) →
        R.Sound T new act V) :
    R.Sound S f (Eval.within g pairs act) V := by
  intro names m _ hg hm
  obtain ⟨hgood, hgrows, hown, hruns⟩ :=
    R.extend hm (R.scope_mono hg hscope) fun p hmem =>
      ⟨(hp p hmem).1, R.holds_mono hg (hp p hmem).2⟩
  have hact :=
    h _ _ (R.grows_trans hg hgrows) hown (fun a ha => hruns a (R.runs_mono hg hscope ha)) names
      (m.nest g pairs) rfl R.grows_refl hgood
  exact hact.backTo hgrows

/-- In a new frame inside the current one. -/
theorem Sound.nested (hf : R.Scope S f) (hp : ∀ p ∈ pairs, R.Binds p.1 ∧ R.Holds S p.2)
    (h : ∀ T new, R.Grows S T → R.Own T new → (∀ a, R.Runs S f a → R.Runs T new a) →
        R.Sound T new act V) :
    R.Sound S f (Eval.nested pairs act) V := by
  intro names m hcurrent hg hm
  subst hcurrent
  exact Sound.within hf hp h names m rfl hg hm

/-- A refused output is an error that `print` may raise. -/
theorem Sound.print (hf : R.Scope S f) (hrun : R.Runs S f (.stmt (.print e span))) :
    R.Sound S f (Eval.print v span) fun _ _ => True := by
  intro names m hcurrent hg hm
  unfold Eval.print
  split
  · exact ⟨.still hm rfl rfl, trivial⟩
  · exact ⟨.still hm rfl rfl, R.blame hm (R.scope_mono hg hf) (R.runs_mono hg hf hrun) .print⟩

/-! ## Operators and patterns -/

theorem holds_unary {op : UnaryOp} (h : op.apply v span = .ok w) : R.Holds S w := by
  unfold UnaryOp.apply at h
  split at h <;> cases h <;> exact R.holds_plain rfl

theorem holds_numeric {f : Number → Number → Value} (hf : ∀ x y, (f x y).isPlain)
    (h : BinaryOp.numeric op f l r span = .ok w) : R.Holds S w := by
  unfold BinaryOp.numeric at h
  split at h <;> cases h
  exact R.holds_plain (hf _ _)

/-- An operator gives a value without parts, or the value of its right operand. -/
theorem holds_binary {op : BinaryOp} (hr : R.Holds S r) (h : op.apply l r span = .ok w) :
    R.Holds S w := by
  cases op with
  | add | sub | mul | div | lt | gt | lte | gte => exact holds_numeric (fun _ _ => rfl) h
  | eq | neq => cases h; exact R.holds_plain rfl
  | and | or => cases h; exact hr
  | append =>
    simp only [BinaryOp.apply] at h
    split at h <;> cases h
    exact R.holds_plain rfl

/-- A short circuit gives the value on the left. -/
theorem holds_decided {op : BinaryOp} (hl : R.Holds S l) (h : op.decided? l = some w) :
    R.Holds S w := by
  unfold BinaryOp.decided? at h
  split at h
  · split at h <;> cases h
    exact hl
  · split at h <;> cases h
    exact hl
  · cases h

/-- All names that a pattern binds may be bound. -/
def PatternBinds (R : Regime) (p : Pattern) : Prop :=
  p.Everywhere fun q => ∀ x ∈ q.idents, R.Binds x.name

/-- The names may be bound and their values held. -/
def Carries (R : Regime) (S : Store) (bound : List Binding) : Prop :=
  ∀ b ∈ bound, R.Binds b.1 ∧ R.Holds S b.2

theorem Carries.snoc (h : R.Carries S bound) (hx : R.Binds x.name) (hv : R.Holds S v) :
    R.Carries S (bound ++ [(x.name, v)]) := by
  intro b hb
  rcases List.mem_append.mp hb with hb | hb
  · exact h b hb
  · rw [List.mem_singleton.mp hb]
    exact ⟨hx, hv⟩

theorem carries_nil : R.Carries S [] :=
  fun _ h => absurd h List.not_mem_nil

/-- Arguments that are held may be bound to parameters. -/
theorem carries_params {params : List Ident} (hparams : ∀ x ∈ params, R.Binds x.name)
    (ha : ∀ v ∈ args, R.Holds S v) : R.Carries S ((params.map Ident.name).zip args) := by
  intro p hmem
  obtain ⟨hname, harg⟩ := List.of_mem_zip hmem
  obtain ⟨x, hx, hname⟩ := List.mem_map.mp hname
  exact ⟨hname ▸ hparams x hx, ha _ harg⟩

theorem PatternBinds.ident (h : R.PatternBinds p) (hx : x ∈ p.idents) : R.Binds x.name :=
  h p .refl x hx

theorem PatternBinds.part (h : R.PatternBinds p) (hq : q ∈ p.parts) : R.PatternBinds q :=
  (Pattern.everywhere_iff.mp h).2 q hq

mutual

/-- What a pattern binds are parts of the value it was tried against. -/
theorem carries_tryMatch :
    ∀ {p : Pattern} {v : Value} {bound : List Binding}, R.PatternBinds p → R.Holds S v →
    R.Carries S bound → R.Carries S (p.tryMatch names v bound).2
  | .wild _, v, bound, _, _, hb => by simpa only [Pattern.tryMatch] using hb
  | .var x, v, bound, hp, hv, hb => by
    simp only [Pattern.tryMatch]
    exact hb.snoc (hp.ident List.mem_cons_self) hv
  | .unit _, v, bound, _, _, hb => by
    cases v <;> simpa only [Pattern.tryMatch] using hb
  | .literal l _, v, bound, _, _, hb => by simpa only [Pattern.tryMatch] using hb
  | .named x p, v, bound, hp, hv, hb => by
    have ih : R.Carries S (p.tryMatch names v bound).2 :=
      carries_tryMatch (hp.part List.mem_cons_self) hv hb
    simp only [Pattern.tryMatch]
    split
    · next bound' h =>
      rw [h] at ih
      exact ih.snoc (hp.ident List.mem_cons_self) hv
    · next bound' h =>
      rw [h] at ih
      exact ih
  | .tuple ps _, v, bound, hp, hv, hb => by
    cases v with
    | tuple vs =>
      simp only [Pattern.tryMatch]
      split
      · exact carries_tryMatchAll (fun q hq => hp.part hq) (fun w hw => R.holds_element hv hw) hb
      · exact hb
    | _ => simpa only [Pattern.tryMatch] using hb
  | .vector ps _, v, bound, hp, hv, hb => by
    cases v with
    | vector vs =>
      simp only [Pattern.tryMatch]
      split
      · exact carries_tryMatchAll (fun q hq => hp.part hq) (R.holds_vector.mp hv) hb
      · exact hb
    | _ => simpa only [Pattern.tryMatch] using hb

theorem carries_tryMatchAll : ∀ {ps : List Pattern} {vs : List Value} {bound : List Binding},
    (∀ p ∈ ps, R.PatternBinds p) → (∀ v ∈ vs, R.Holds S v) → R.Carries S bound →
    R.Carries S (Pattern.tryMatchAll names ps vs bound).2
  | [], vs, bound, _, _, hb => by simpa only [Pattern.tryMatchAll] using hb
  | _ :: _, [], bound, _, _, hb => by simpa only [Pattern.tryMatchAll] using hb
  | p :: ps, v :: vs, bound, hp, hv, hb => by
    have ih : R.Carries S (p.tryMatch names v bound).2 :=
      carries_tryMatch (hp p List.mem_cons_self) (hv v List.mem_cons_self) hb
    simp only [Pattern.tryMatchAll]
    split
    · next bound' h =>
      rw [h] at ih
      exact carries_tryMatchAll (fun q hq => hp q (List.mem_cons_of_mem _ hq))
        (fun w hw => hv w (List.mem_cons_of_mem _ hw)) ih
    · next bound' h =>
      rw [h] at ih
      exact ih

end

/-- What a pattern binds are parts of the value. -/
theorem Sound.matching (hp : R.PatternBinds p) (hv : R.Holds S v) :
    R.Sound S f (Eval.matching p v) fun T r => R.Carries T r.2 :=
  fun _ _ _ hg hm => ⟨.still hm rfl rfl, carries_tryMatch hp (R.holds_mono hg hv) carries_nil⟩

/-! ## Functions, classes and objects -/

theorem Sound.newFunction (hc : R.Callable S c) : R.Sound S f (Eval.newFunction c) R.Holds := by
  refine .bind (V := fun T g => R.Holds T (.function g)) (.update fun T hg hm => ?_)
    fun g T hg hf =>
    .pure fun U hU => R.holds_mono hU hf
  obtain ⟨hgood, hgrows, hf⟩ := R.addFunction hm (R.callable_mono hg hc)
  exact ⟨⟨hgood, hgrows⟩, hf⟩

theorem Sound.functionHere (hf : R.Scope S f) (hrun : R.Runs S f (.stmt (.fnDecl decl))) :
    R.Sound S f (Eval.functionHere decl) R.Holds := by
  intro names m hcurrent hg hm
  subst hcurrent
  have hc := R.functionHere (names.nameOf decl.name.name) hm (R.scope_mono hg hf)
    (R.runs_mono hg hf hrun)
  exact Sound.newFunction hc names m rfl R.grows_refl hm

theorem Sound.superclassOf (hf : R.Scope S f)
    (hrun : R.Runs S f (.stmt (.classDecl x (some y) methods))) :
    R.Sound S f (Eval.superclassOf y) fun T k => R.Holds T (.class_ k) := by
  have hblame : ∀ names T err, R.Grows S T → R.Good T →
      Code.Blames names T f (.stmt (.classDecl x (some y) methods)) err → R.Fault names err :=
    fun names T err hg hm => R.blame hm (R.scope_mono hg hf) (R.runs_mono hg hf hrun)
  refine .bind (.lookup hf fun names T hg hm hnone => hblame names T _ hg hm (.superclass hnone))
    fun v T hT hv => ?_
  cases v with
  | class_ k => exact .pure fun U hU => R.holds_mono hU hv
  | _ =>
    intro names m _ hg hm
    exact ⟨.still hm rfl rfl, hblame names m.store _ (R.grows_trans hT hg) hm .notClass⟩

/-- The superclass is looked up just if one is named. -/
theorem Sound.superclass? (hf : R.Scope S f)
    (hrun : R.Runs S f (.stmt (.classDecl x sup methods))) :
    R.Sound S f (Eval.superclass? sup) fun T k =>
      k.isSome = sup.isSome ∧ ∀ j ∈ k, R.Holds T (.class_ j) := by
  cases sup with
  | none => exact .pure fun _ _ => ⟨rfl, fun _ h => absurd h (Option.not_mem_none _)⟩
  | some y =>
    refine .bind (.superclassOf hf hrun) fun k T hg hk => .pure fun U hU => ⟨rfl, fun j hj => ?_⟩
    cases hj
    exact R.holds_mono hU hk

end Regime

namespace Eval

/-- The frame of the methods is made without an error. -/
theorem methodScope_eq (k : Option ClassId) (names : Interner) (m : Machine) :
    methodScope k names m =
      .ok (m.store.methodScope m.current k).1
        { m with store := (m.store.methodScope m.current k).2 } := by
  cases k <;> rfl

/-- A method table is made without touching the state. -/
theorem exists_methodTable (decls : List FunctionDecl) (scope : FrameId) (start : Bindings Closure)
    (names : Interner) (m : Machine) :
    ∃ table, methodTable scope start decls names m = .ok table m ∧
      ∀ x c, table.get? x = some c → start.get? x = some c ∨
        c.decl ∈ decls ∧ c.scope = scope ∧ c.decl.name.name = x ∧
        c.isInitializer = (x == .init) := by
  induction decls generalizing start with
  | nil => exact ⟨start, rfl, fun x c h => .inl h⟩
  | cons decl decls ih =>
    obtain ⟨table, htable, hmem⟩ := ih (start.insert decl.name.name
      ⟨names.nameOf decl.name.name, decl, scope, decl.name.name == .init⟩)
    refine ⟨table, htable, fun x c h => ?_⟩
    rcases hmem x c h with hstart | ⟨hdecl, hrest⟩
    · rw [Bindings.get?_insert] at hstart
      split at hstart
      · next hx =>
        cases hstart
        subst hx
        exact .inr ⟨List.mem_cons_self, rfl, rfl, rfl⟩
      · exact .inl hstart
    · exact .inr ⟨List.mem_cons_of_mem _ hdecl, hrest⟩

end Eval

namespace Regime

variable {R : Regime} {α β : Type} {S T : Store} {f : FrameId} {x : Ident} {v : Value} {c : Closure}
variable {V : Store → α → Prop} {W : Store → β → Prop}

/-- The class, the table of its methods and the frame they see. -/
theorem Sound.newClass (hf : R.Scope S f) (hrun : R.Runs S f (.stmt (.classDecl x sup methods))) :
    R.Sound S f (Eval.newClass x sup methods) R.Holds := by
  refine .bind (.superclass? hf hrun) fun k T hT hk => ?_
  intro names m hcurrent hg hm
  subst hcurrent
  have hST := R.grows_trans hT hg
  -- From here on nothing can go wrong, and the frame and the class are made in one step.
  obtain ⟨table, htable, hmem⟩ :=
    Eval.exists_methodTable methods (m.store.methodScope m.current k).1 .empty names
      { m with store := (m.store.methodScope m.current k).2 }
  have htable' : Store.TableOf methods (m.store.methodScope m.current k).1 table := by
    intro y c hc
    exact (hmem y c hc).resolve_left (by simp)
  have hsup : (ClassInfo.mk (names.nameOf x.name) k table).superclass = k := rfl
  obtain ⟨hgood, hgrows, hclass⟩ :=
    R.newClass hm (R.scope_mono hST hf) (R.runs_mono hST hf hrun) hk.1
      (fun j hj => R.holds_mono hg (hk.2 j hj)) hsup htable'
  simp only [Bind.bind, Eval.methodScope_eq, htable]
  exact ⟨⟨rfl, hgrows, hgood⟩, hclass⟩

/-- A field, or else a method that is bound to the object. -/
theorem Sound.property (hf : R.Scope S f) (hrun : R.Runs S f (.expr (.get e x)))
    (ho : R.Holds S v) :
    R.Sound S f (Eval.property v x) R.Holds := by
  have hblame : ∀ names T err, R.Grows S T → R.Good T →
      Code.Blames names T f (.expr (.get e x)) err → R.Fault names err :=
    fun names T err hg hm => R.blame hm (R.scope_mono hg hf) (R.runs_mono hg hf hrun)
  cases v with
  | object o =>
    intro names m hcurrent hg hm
    have ho := R.holds_mono hg ho
    simp only [Eval.property, Eval.query, Bind.bind]
    cases hfield : m.store.field? o x.name with
    | some w => exact ⟨.still hm rfl rfl, R.field hm ho hfield⟩
    | none =>
      dsimp only
      cases hmethod : (m.store.objectClass? o).bind fun k => m.store.findMethod? k x.name with
      | none => exact ⟨.still hm rfl rfl, hblame names m.store _ hg hm .property⟩
      | some c =>
        obtain ⟨k, hk, hc⟩ := Option.bind_eq_some_iff.mp hmethod
        obtain ⟨hgood, hgrows, hcallable⟩ := R.bindMethod hm ho hk hc
        obtain ⟨hgood', hgrows', hfunction⟩ := R.addFunction hgood hcallable
        exact ⟨⟨rfl, R.grows_trans hgrows hgrows', hgood'⟩, hfunction⟩
  | _ => exact .raise fun names T hg hm => hblame names T _ hg hm .get

/-- The method of the superclass is bound to the object that `this` stands for. -/
theorem Sound.superMethod (hf : R.Scope S f) (hrun : R.Runs S f (.expr (.super x span))) :
    R.Sound S f (Eval.superMethod x span) R.Holds := by
  intro names m hcurrent hg hm
  subst hcurrent
  have hscope := R.scope_mono hg hf
  have hrun := R.runs_mono hg hf hrun
  have hblame : ∀ err, Code.Blames names m.store m.current (.expr (.super x span)) err →
      R.Fault names err :=
    fun err => R.blame hm hscope hrun
  simp only [Eval.superMethod, Eval.lookup, Bind.bind]
  cases hsuper : m.store.lookup? m.current .super with
  | none => exact ⟨.still hm rfl rfl, hblame _ (.super hsuper)⟩
  | some v =>
    dsimp only
    cases v with
    | class_ k =>
      dsimp only
      cases hthis : m.store.lookup? m.current .this with
      | none => exact ⟨.still hm rfl rfl, hblame _ (.superThis hsuper hthis)⟩
      | some r =>
        dsimp only [Eval.query]
        cases hmethod : m.store.findMethod? k x.name with
        | none => exact ⟨.still hm rfl rfl, hblame _ .superMethod⟩
        | some c =>
          obtain ⟨hgood, hgrows, hcallable⟩ := R.bindSuper hm hscope hrun hsuper hthis hmethod
          obtain ⟨hgood', hgrows', hfunction⟩ := R.addFunction hgood hcallable
          exact ⟨⟨rfl, R.grows_trans hgrows hgrows', hgood'⟩, hfunction⟩
    | _ =>
      refine ⟨.still hm rfl rfl, hblame _ (.superClass hsuper fun k hk => ?_)⟩
      cases hk

theorem ends_checkArity (hm : R.Good m.store) (hsite : R.Site span) :
    R.Ends names m (fun T _ => T = m.store) (Eval.checkArity shown n k span names m) := by
  unfold Eval.checkArity
  split
  · exact ⟨.still hm rfl rfl, rfl⟩
  · exact ⟨.still hm rfl rfl, R.blame_arity hsite⟩

theorem Sound.checkArity (hsite : R.Site span) :
    R.Sound S f (Eval.checkArity shown n k span) fun _ _ => True :=
  fun _ _ _ _ hm => (ends_checkArity hm hsite).imp fun _ _ _ => trivial

/-! ## Parts in order -/

/-- What holds of the way in which a statement ended. -/
def FlowHolds (R : Regime) (S : Store) : Flow → Prop
  | .normal => True
  | .returned v span => R.Holds S v ∧ R.Leaves span

theorem flowHolds_mono (hg : R.Grows S T) (h : R.FlowHolds S flow) : R.FlowHolds T flow := by
  cases flow with
  | normal => trivial
  | returned v span => exact ⟨R.holds_mono hg h.1, h.2⟩

/-- The expressions may all run in the frame. -/
def RunsAll (R : Regime) (S : Store) (f : FrameId) (es : List Expr) : Prop :=
  R.Scope S f ∧ ∀ e ∈ es, R.Runs S f (.expr e)

theorem RunsAll.mono (h : R.RunsAll S f es) (hg : R.Grows S T) : R.RunsAll T f es :=
  ⟨R.scope_mono hg h.1, fun e he => R.runs_mono hg h.1 (h.2 e he)⟩

theorem RunsAll.subset (h : R.RunsAll S f es) (hsub : ds ⊆ es) : R.RunsAll S f ds :=
  ⟨h.1, fun e he => h.2 e (hsub he)⟩

section

variable {eval : Expr → Eval Value}
variable (hev : ∀ {S f e}, R.Scope S f → R.Runs S f (.expr e) → R.Sound S f (eval e) R.Holds)
include hev

/-- There are as many values as expressions. -/
theorem Sound.evaluateAll (h : R.RunsAll S f es) :
    R.Sound S f (Eval.evaluateAll eval es) fun T vs =>
      vs.length = es.length ∧ ∀ v ∈ vs, R.Holds T v := by
  induction es generalizing S with
  | nil => exact .pure fun _ _ => ⟨rfl, fun v h => absurd h List.not_mem_nil⟩
  | cons e es ih =>
    refine .bind (hev h.1 (h.2 e List.mem_cons_self)) fun v T hT hv => ?_
    refine .bind (ih ((h.mono hT).subset (List.subset_cons_self e es))) fun vs U hU hvs =>
      .pure fun W hW => ?_
    refine ⟨congrArg Nat.succ hvs.1, fun w hw => ?_⟩
    rcases List.mem_cons.mp hw with rfl | hw
    · exact R.holds_mono (R.grows_trans hU hW) hv
    · exact R.holds_mono hW (hvs.2 w hw)

theorem Sound.evaluateLast (h : R.RunsAll S f es) (hv : R.Holds S v) :
    R.Sound S f (Eval.evaluateLast eval v es) R.Holds := by
  induction es generalizing S v with
  | nil => exact .pure fun _ hT => R.holds_mono hT hv
  | cons e es ih =>
    refine .bind (hev h.1 (h.2 e List.mem_cons_self)) fun w T hT hw => ?_
    exact ih ((h.mono hT).subset (List.subset_cons_self e es)) hw

theorem Sound.optional (h : R.RunsAll S f e.toList) :
    R.Sound S f (Eval.optional eval e) R.Holds := by
  cases e with
  | none => exact .pure fun _ _ => R.holds_plain rfl
  | some e => exact hev h.1 (h.2 e List.mem_cons_self)

theorem Sound.holds (h : R.RunsAll S f [e]) : R.Sound S f (Eval.holds eval e) fun _ _ => True :=
  .bind (hev h.1 (h.2 e List.mem_cons_self)) fun _ _ _ _ => .pure fun _ _ => trivial

theorem Sound.holdsIfGiven (h : R.RunsAll S f e.toList) :
    R.Sound S f (Eval.holdsIfGiven eval e) fun _ _ => True := by
  cases e with
  | none => exact .pure fun _ _ => trivial
  | some e => exact .holds hev h

theorem Sound.effect (h : R.RunsAll S f e.toList) :
    R.Sound S f (Eval.effect eval e) fun _ _ => True :=
  .bind (.optional hev h) fun _ _ _ _ => .pure fun _ _ => trivial

theorem Sound.armValue {arm : CaseArm} (h : R.RunsAll S f arm.exprs) :
    R.Sound S f (Eval.armValue eval arm) fun T r => ∀ v ∈ r, R.Holds T v := by
  have body : ∀ T, R.Grows S T → R.Sound T f (do return some (← eval arm.body)) fun T r =>
      ∀ v ∈ r, R.Holds T v := by
    intro T hT
    have hbody := h.2 arm.body (List.mem_append_right _ List.mem_cons_self)
    refine .bind (hev (R.scope_mono hT h.1) (R.runs_mono hT h.1 hbody)) fun v U hU hv =>
      .pure fun W hW w hw => ?_
    cases hw
    exact R.holds_mono hW hv
  unfold Eval.armValue
  cases hguard : arm.guard with
  | none => exact body S R.grows_refl
  | some guard =>
    have hmem : guard ∈ arm.exprs :=
      List.mem_append_left _ (by rw [hguard]; exact List.mem_cons_self)
    refine .bind (hev h.1 (h.2 guard hmem)) fun v T hT hv => ?_
    split
    · exact body T hT
    · exact .pure fun _ _ _ h => absurd h (Option.not_mem_none _)

theorem Sound.matchedArm {arm : CaseArm} (h : R.RunsAll S f arm.exprs)
    (hbound : R.Carries S bound) :
    R.Sound S f (Eval.nested bound (Eval.armValue eval arm)) fun T r => ∀ v ∈ r, R.Holds T v := by
  refine .nested h.1 hbound fun T new _ hown hruns => ?_
  exact .armValue hev ⟨R.scope_of_own hown, fun e he => hruns _ (h.2 e he)⟩

/-- The value of the first arm that takes the value; if none does, that is an error. -/
theorem Sound.firstArm (harms : ∀ arm ∈ arms, R.RunsAll S f arm.exprs ∧ R.PatternBinds arm.pattern)
    (hf : R.Scope S f) (hrun : R.Runs S f (.expr (.case e all span))) (hv : R.Holds S v) :
    R.Sound S f (Eval.firstArm eval v span arms) R.Holds := by
  induction arms generalizing S with
  | nil =>
    intro names m hcurrent hg hm
    exact ⟨.still hm rfl rfl, R.blame hm (R.scope_mono hg hf) (R.runs_mono hg hf hrun) .case⟩
  | cons arm arms ih =>
    obtain ⟨harm, hpattern⟩ := harms arm List.mem_cons_self
    have ih : ∀ T, R.Grows S T → R.Sound T f (Eval.firstArm eval v span arms) R.Holds := by
      intro T hT
      refine ih (fun a ha => ?_) (R.scope_mono hT hf) (R.runs_mono hT hf hrun) (R.holds_mono hT hv)
      obtain ⟨hexprs, hbinds⟩ := harms a (List.mem_cons_of_mem _ ha)
      exact ⟨hexprs.mono hT, hbinds⟩
    refine .bind (.matching hpattern hv) fun r T hT hr => ?_
    obtain ⟨matched, bound⟩ := r
    cases matched with
    | false => exact ih T hT
    | true =>
      refine .bind (.matchedArm hev (harm.mono hT) hr) fun r U hU hr => ?_
      cases r with
      | some w => exact .pure fun _ hW => R.holds_mono hW (hr w rfl)
      | none => exact ih U (R.grows_trans hT hU)

end

/-- A loop whose parts keep the regime keeps it, however often it goes round. -/
theorem Sound.repeatWhile {test : Eval Bool} {body : Eval Flow} {step : Eval Unit}
    (ht : R.Sound S f test fun _ _ => True) (hb : R.Sound S f body R.FlowHolds)
    (hs : R.Sound S f step fun _ _ => True) (n : Nat) :
    R.Sound S f (Eval.repeatWhile test body step n) R.FlowHolds := by
  induction n generalizing S with
  | zero => exact .exhausted
  | succ n ih =>
    refine .bind ht fun b T hT _ => ?_
    cases b with
    | false => exact .pure fun _ _ => trivial
    | true =>
      refine .bind (hb.mono hT) fun flow U hU hflow => ?_
      have hSU := R.grows_trans hT hU
      cases flow with
      | normal =>
        refine .bind (hs.mono hSU) fun _ W hW _ => ?_
        have hSW := R.grows_trans hSU hW
        exact ih (ht.mono hSW) (hb.mono hSW) (hs.mono hSW)
      | returned v span => exact .pure fun _ hW => flowHolds_mono hW hflow

/-- The statement may be executed in the frame. -/
structure Executes (R : Regime) (S : Store) (f : FrameId) (s : Stmt) : Prop where
  scope : R.Scope S f
  runs : R.Runs S f (.stmt s)
  own : s.declares = true → R.Own S f

theorem Executes.mono (h : R.Executes S f s) (hg : R.Grows S T) : R.Executes T f s :=
  ⟨R.scope_mono hg h.scope, R.runs_mono hg h.scope h.runs, fun hs => R.own_mono hg (h.own hs)⟩

theorem Executes.of_own (hown : R.Own S f) (hrun : R.Runs S f (.stmt s)) : R.Executes S f s :=
  ⟨R.scope_of_own hown, hrun, fun _ => hown⟩

theorem Executes.exprs (h : R.Executes S f s) : R.RunsAll S f s.exprs :=
  ⟨h.scope, fun _ he => runs_expr h.runs he⟩

section

variable {exec : Stmt → Eval Flow}
variable (hex : ∀ {S f s}, R.Executes S f s → R.Sound S f (exec s) R.FlowHolds)
include hex

/-- By induction on the statements; the store grows from one to the next. -/
theorem Sound.executeAll (h : ∀ s ∈ ss, R.Executes S f s) :
    R.Sound S f (Eval.executeAll exec ss) R.FlowHolds := by
  induction ss generalizing S with
  | nil => exact .pure fun _ _ => trivial
  | cons s ss ih =>
    refine .bind (hex (h s List.mem_cons_self)) fun flow T hT hflow => ?_
    cases flow with
    | normal => exact ih fun t ht => (h t (List.mem_cons_of_mem _ ht)).mono hT
    | returned v span => exact .pure fun _ hU => flowHolds_mono hU hflow

/-- Statements in a frame of their own. -/
theorem Sound.block (hf : R.Scope S f) (h : ∀ s ∈ ss, R.Runs S f (.stmt s)) :
    R.Sound S f (Eval.nested [] (Eval.executeAll exec ss)) R.FlowHolds := by
  refine .nested hf carries_nil fun T new _ hown hruns => .executeAll hex fun s hs => ?_
  exact .of_own hown (hruns _ (h s hs))

theorem Sound.prepare (h : ∀ s ∈ init, R.Executes S f s) :
    R.Sound S f (Eval.prepare exec init) fun _ _ => True := by
  cases init with
  | none => exact .pure fun _ _ => trivial
  | some s => exact .bind (hex (h s rfl)) fun _ _ _ _ => .pure fun _ _ => trivial

/-! ## Calls -/

/-- The body of a function runs in a frame with its parameters. -/
theorem Sound.body (hc : R.Callable S c) (ha : ∀ v ∈ args, R.Holds S v) :
    R.Sound S f (Eval.within c.scope ((c.decl.params.map Ident.name).zip args)
      (Eval.executeAll exec c.decl.body))
      R.FlowHolds := by
  obtain ⟨hscope, hparams, hbody⟩ := R.callable hc
  refine .within hscope (carries_params hparams ha) fun T new _ hown hruns =>
    .executeAll hex fun s hs => ?_
  exact .of_own hown (hruns _ (hbody s hs))

theorem Sound.invoke (hc : R.Callable S c) (ha : ∀ v ∈ args, R.Holds S v) :
    R.Sound S f (Eval.invoke exec c args) R.Holds := by
  refine .bind .record fun _ T hT _ => ?_
  have hc := R.callable_mono hT hc
  refine .bind (.body hex hc fun v hv => R.holds_mono hT (ha v hv)) fun flow U hU hflow => ?_
  split
  · refine .query fun W hW hm => ?_
    cases h : W.lookup? c.scope .this with
    | none => exact R.holds_plain rfl
    | some v => exact R.lookup hm (R.scope_mono (R.grows_trans hU hW) (R.callable hc).1) h
  · cases flow with
    | normal => exact .pure fun _ _ => R.holds_plain rfl
    | returned v span => exact .pure fun _ hW => R.holds_mono hW hflow.1

/-- A new object is held, and its initializer is called on it. -/
theorem Sound.instantiate (hk : R.Holds S (.class_ k)) (ha : ∀ v ∈ args, R.Holds S v)
    (hsite : R.Site span) :
    R.Sound S f (Eval.instantiate exec k args span) R.Holds := by
  intro names m hcurrent hg hm
  obtain ⟨hgood, hgrows, ho⟩ := R.addObject hm (R.holds_mono hg hk)
  have hcls : (m.store.addObject { cls := k }).2.objectClass? (m.store.addObject { cls := k }).1 =
      some k := by
    simp [Store.objectClass?, Store.addObject]
  refine Ends.bind (V := fun T o => T = (m.store.addObject { cls := k }).2 ∧
    o = (m.store.addObject { cls := k }).1)
    ⟨⟨rfl, hgrows, hgood⟩, rfl, rfl⟩ fun o m₁ h₁ hmade => ?_
  rw [← hmade.1, ← hmade.2] at ho hcls
  -- Up to the arity check the store stays as it is, so that the method is bound to an object of the
  -- class.
  refine Ends.bind (V := fun T _ => T = m₁.store) ⟨.still h₁.good rfl rfl, rfl⟩
    fun shown m₂ h₂ hstore₂ => ?_
  refine Ends.bind (V := fun T found => T = m₁.store ∧ found = T.findMethod? k .init)
    ⟨.still h₂.good rfl rfl, hstore₂, rfl⟩ fun found m₃ h₃ hfound => ?_
  have hsame : ∀ m' : Machine, m'.store = m₃.store → m'.store = m₁.store := fun m' h =>
    h.trans hfound.1
  cases found with
  | none =>
    refine (ends_checkArity h₃.good hsite).bind fun _ m₄ h₄ hstore₄ => ⟨.still h₄.good rfl rfl, ?_⟩
    rw [hsame m₄ hstore₄]
    exact ho
  | some c =>
    refine (ends_checkArity h₃.good hsite).bind fun _ m₄ h₄ hstore₄ => ?_
    rw [← hsame m₄ hstore₄] at ho hcls
    have hinit : m₄.store.findMethod? k .init = some c := hstore₄ ▸ hfound.2.symm
    obtain ⟨hgood₅, hgrows₅, hcallable⟩ := R.bindMethod h₄.good ho hcls hinit
    refine Ends.bind (V := R.Callable) ⟨⟨rfl, hgrows₅, hgood₅⟩, hcallable⟩
      fun ready m₅ h₅ hready => ?_
    have hSm₅ := R.grows_trans hg ((((h₁.trans h₂).trans h₃).trans h₄).trans h₅).grows
    have hinvoke := Sound.invoke hex hready (fun v hv => R.holds_mono hSm₅ (ha v hv)) names m₅ rfl
      R.grows_refl h₅.good
    refine hinvoke.bind fun _ m₆ h₆ _ => ⟨.still h₆.good rfl rfl, ?_⟩
    exact R.holds_mono (R.grows_trans h₅.grows h₆.grows) ho

theorem Sound.callWith (hcallee : R.Holds S callee) (ha : ∀ v ∈ args, R.Holds S v)
    (hsite : R.Site span) :
    R.Sound S f (Eval.callWith exec callee args span) R.Holds := by
  cases callee with
  | function g =>
    refine .bind (V := fun T r => ∀ c ∈ r, R.Callable T c)
      (.query fun T hg hm c h => R.function hm (R.holds_mono hg hcallee) h)
        fun found T hT hfound => ?_
    cases found with
    | none => exact .raise fun _ _ _ _ => R.blame_callee hsite
    | some c =>
      refine .bind (.checkArity hsite) fun _ U hU _ => ?_
      refine .invoke hex (R.callable_mono hU (hfound c rfl)) ?_
      exact fun v hv => R.holds_mono (R.grows_trans hT hU) (ha v hv)
  | class_ k => exact .instantiate hex hcallee ha hsite
  | _ => exact .raise fun _ _ _ _ => R.blame_callee hsite

end

/-! ## Programs -/

/-- The three mutually recursive parts of a run keep the regime with `n` units of fuel. -/
structure SoundWith (R : Regime) (n : Nat) : Prop where
  evaluate : ∀ {S f e}, R.Scope S f → R.Runs S f (.expr e) → R.Sound S f (Eval.evaluate n e) R.Holds
  execute : ∀ {S f s}, R.Executes S f s → R.Sound S f (Eval.execute n s) R.FlowHolds
  call : ∀ {S callee args span} (f : FrameId), R.Holds S callee → (∀ v ∈ args, R.Holds S v) →
    R.Site span → R.Sound S f (Eval.call n callee args span) R.Holds

/-- One case for each form of an expression. -/
theorem SoundWith.evaluate_succ (ih : R.SoundWith n) (hf : R.Scope S f)
    (hrun : R.Runs S f (.expr e)) :
    R.Sound S f (Eval.evaluate (n + 1) e) R.Holds := by
  have hpart : ∀ {T d}, R.Grows S T → d ∈ e.parts → R.Sound T f (Eval.evaluate n d) R.Holds :=
    fun hT hd => ih.evaluate (R.scope_mono hT hf) (R.runs_mono hT hf (runs_part hrun hd))
  have hparts : ∀ {T}, R.Grows S T → R.RunsAll T f e.parts :=
    fun hT => RunsAll.mono ⟨hf, fun d hd => runs_part hrun hd⟩ hT
  have hblame : ∀ {names T err}, R.Grows S T → R.Good T → Code.Blames names T f (.expr e) err →
      R.Fault names err :=
    fun hT hm => R.blame hm (R.scope_mono hT hf) (R.runs_mono hT hf hrun)
  cases e with
  | literal l span =>
    refine fun _ m _ _ hm => ⟨.still hm rfl rfl, R.holds_plain ?_⟩
    cases l <;> rfl
  | grouping e span => exact hpart R.grows_refl List.mem_cons_self
  | unary op e span =>
    refine .bind (hpart R.grows_refl List.mem_cons_self) fun v T hT _ => ?_
    exact .ofExcept (fun w U _ h => holds_unary h)
      fun err names U hU hm h => hblame (R.grows_trans hT hU) hm (.unary h)
  | binary l op r span =>
    refine .bind (hpart R.grows_refl List.mem_cons_self) fun v T hT hv => ?_
    cases h : op.decided? v with
    | some w => exact .pure fun U hU => R.holds_mono hU (holds_decided hv h)
    | none =>
      refine .bind (hpart hT (List.mem_cons_of_mem _ List.mem_cons_self)) fun w U hU hw => ?_
      refine .ofExcept (fun x W hW h => holds_binary (R.holds_mono hW hw) h)
        fun err names W hW hm h => ?_
      exact hblame (R.grows_trans hT (R.grows_trans hU hW)) hm (.binary h)
  | var x => exact .lookup hf fun names T hT hm hnone => hblame hT hm (.var hnone)
  | assign x e =>
    refine .bind (hpart R.grows_refl List.mem_cons_self) fun v T hT hv => ?_
    exact .assign (R.scope_mono hT hf) (R.runs_mono hT hf hrun) hv
  | call g args span =>
    refine .bind (hpart R.grows_refl List.mem_cons_self) fun v T hT hv => ?_
    have hargs := (hparts hT).subset (List.subset_cons_self g args)
    refine .bind (.evaluateAll ih.evaluate hargs) fun vs U hU hvs => ?_
    exact ih.call f (R.holds_mono hU hv) hvs.2 (R.runs_call hrun)
  | get e x =>
    refine .bind (hpart R.grows_refl List.mem_cons_self) fun v T hT hv => ?_
    exact .property (R.scope_mono hT hf) (R.runs_mono hT hf hrun) hv
  | set e x value =>
    refine .bind (hpart R.grows_refl List.mem_cons_self) fun v T hT hv => ?_
    cases v with
    | object o =>
      refine .bind (hpart hT (List.mem_cons_of_mem _ List.mem_cons_self)) fun w U hU hw =>
        .update fun W hW hm => ?_
      have hw := R.holds_mono hW hw
      obtain ⟨hgood, hgrows⟩ :=
        R.setField (x := x.name) hm (R.holds_mono (R.grows_trans hU hW) hv) hw
      exact ⟨⟨hgood, hgrows⟩, R.holds_mono hgrows hw⟩
    | _ => exact .raise fun names U hU hm => hblame (R.grows_trans hT hU) hm .set
  | this span => exact .lookup hf fun names T hT hm hnone => hblame hT hm (.this hnone)
  | super x span => exact .superMethod hf hrun
  | letIn x d b span =>
    refine .bind (hpart R.grows_refl List.mem_cons_self) fun v T hT hv => ?_
    refine .nested (R.scope_mono hT hf) (fun p hp => ?_) fun U new _ hown hruns => ?_
    · rw [List.mem_singleton.mp hp]
      exact ⟨R.runs_ident hrun List.mem_cons_self, hv⟩
    · have hb := (hparts hT).2 b (List.mem_cons_of_mem _ List.mem_cons_self)
      exact ih.evaluate (R.scope_of_own hown) (hruns _ hb)
  | seq es span =>
    refine .nested hf carries_nil fun T new _ hown hruns => ?_
    have hes : R.RunsAll T new es :=
      ⟨R.scope_of_own hown, fun d hd => hruns _ ((hparts R.grows_refl).2 d hd)⟩
    exact .evaluateLast ih.evaluate hes (R.holds_plain rfl)
  | cond c yes no span =>
    refine .bind (hpart R.grows_refl List.mem_cons_self) fun v T hT _ => ?_
    split
    · exact hpart hT (List.mem_cons_of_mem _ List.mem_cons_self)
    · exact hpart hT (List.mem_cons_of_mem _ (List.mem_cons_of_mem _ List.mem_cons_self))
  | tuple es span =>
    exact .bind (.evaluateAll ih.evaluate (hparts R.grows_refl)) fun vs T hT hvs =>
      .pure fun U hU =>
      R.holds_mono hU (R.holds_tuple (R.runs_mono hT hf hrun) hvs.1 hvs.2)
  | vector es span =>
    exact .bind (.evaluateAll ih.evaluate (hparts R.grows_refl)) fun vs T _ hvs => .pure fun U hU =>
      R.holds_mono hU (R.holds_vector.mpr hvs.2)
  | case e arms span =>
    refine .bind (hpart R.grows_refl List.mem_cons_self) fun v T hT hv => ?_
    refine .firstArm ih.evaluate (fun arm harm => ⟨?_, ?_⟩) (R.scope_mono hT hf)
      (R.runs_mono hT hf hrun) hv
    · exact (hparts hT).subset fun d hd => List.mem_cons_of_mem _ (List.mem_flatMap_of_mem harm hd)
    · exact R.runs_pattern hrun (List.mem_map_of_mem harm)

theorem Sound.normal : R.Sound S f (Pure.pure .normal) R.FlowHolds :=
  .pure fun _ _ => trivial

theorem Sound.nothing : R.Sound S f (Pure.pure ()) fun _ _ => True :=
  .pure fun _ _ => trivial

/-- Only a statement that declares a name needs a frame to declare in: the bodies of blocks and
loops have frames of their own, and a `while` whose body declares nothing declares nothing
either. -/
theorem SoundWith.execute_succ (ih : R.SoundWith n) (h : R.Executes S f s) :
    R.Sound S f (Eval.execute (n + 1) s) R.FlowHolds := by
  have hev := @ih.evaluate
  have hex := @ih.execute
  have hdeclare : ∀ {x act}, s.declares = true → x ∈ s.idents → R.Sound S f act R.Holds →
      R.Sound S f (do Eval.define x.name (← act)) fun _ _ => True := by
    intro x act hs hx hact
    refine .bind hact fun v T hT hv => ?_
    exact .define (R.own_mono hT (h.own hs)) (R.runs_ident h.runs hx) hv
  cases s with
  | expr e => exact .bind (hev h.scope (h.exprs.2 e List.mem_cons_self)) fun _ _ _ _ => .normal
  | print e span =>
    refine .bind (hev h.scope (h.exprs.2 e List.mem_cons_self)) fun v T hT _ => ?_
    exact .bind (.print (h.mono hT).scope (h.mono hT).runs) fun _ _ _ _ => .normal
  | varDecl x e =>
    have hx := hdeclare rfl List.mem_cons_self (.optional hev h.exprs)
    have hrest := Sound.bind hx fun _ _ _ _ => .normal
    rwa [Eval.bind_assoc] at hrest
  | block ss span => exact .block hex h.scope fun t ht => runs_stmt h.runs ht
  | fnDecl decl =>
    exact .bind (hdeclare rfl List.mem_cons_self (.functionHere h.scope h.runs)) fun _ _ _ _ =>
      .normal
  | classDecl x sup methods =>
    exact .bind (hdeclare rfl List.mem_cons_self (.newClass h.scope h.runs)) fun _ _ _ _ => .normal
  | ret e span =>
    exact .bind (.optional hev h.exprs) fun v T _ hv => .pure fun U hU =>
      ⟨R.holds_mono hU hv, R.runs_ret h.runs⟩
  | whileLoop c body span =>
    have hbody : R.Executes S f body := ⟨h.scope, runs_stmt h.runs List.mem_cons_self, h.own⟩
    exact .repeatWhile (.holds hev h.exprs) (hex hbody) .nothing n
  | forever body span =>
    exact .repeatWhile (.pure fun _ _ => trivial)
      (.block hex h.scope fun t ht => runs_stmt h.runs ht) .nothing n
  | forLoop init c inc body span =>
    refine .nested h.scope carries_nil fun T new _ hown hruns => ?_
    have hexprs : R.RunsAll T new (c.toList ++ inc.toList) :=
      ⟨R.scope_of_own hown, fun e he => hruns _ (h.exprs.2 e he)⟩
    have hstmt : ∀ t ∈ init.toList ++ [body], R.Executes T new t :=
      fun t ht => .of_own hown (hruns _ (runs_stmt h.runs ht))
    refine .bind (.prepare hex fun t ht =>
      hstmt t (List.mem_append_left _ (Option.mem_toList.mpr ht)))
      fun _ U hU _ => ?_
    have hbody := (hstmt body (List.mem_append_right _ List.mem_cons_self)).mono hU
    refine .repeatWhile (.holdsIfGiven hev ?_) (hex hbody) (.effect hev ?_) n
    · exact (hexprs.mono hU).subset (List.subset_append_left _ _)
    · exact (hexprs.mono hU).subset (List.subset_append_right _ _)

/-- By induction on the fuel. -/
theorem soundWith (R : Regime) (n : Nat) : R.SoundWith n := by
  induction n with
  | zero => exact ⟨fun _ _ => .exhausted, fun _ => .exhausted, fun _ _ _ _ => .exhausted⟩
  | succ n ih =>
    exact ⟨ih.evaluate_succ, ih.execute_succ, fun _ hcallee ha hsite =>
      .callWith ih.execute hcallee ha hsite⟩

/-- Evaluating an expression keeps every regime under which it runs. -/
theorem evaluate (R : Regime) (n : Nat) (hf : R.Scope S f) (hrun : R.Runs S f (.expr e)) :
    R.Sound S f (Eval.evaluate n e) R.Holds :=
  (R.soundWith n).evaluate hf hrun

/-- Executing a statement keeps every regime under which it runs. -/
theorem execute (R : Regime) (n : Nat) (h : R.Executes S f s) :
    R.Sound S f (Eval.execute n s) R.FlowHolds :=
  (R.soundWith n).execute h

/-- Calling a function or class keeps every regime, whatever the current frame. -/
theorem call (R : Regime) (n : Nat) (f : FrameId) (hcallee : R.Holds S callee)
    (ha : ∀ v ∈ args, R.Holds S v) (hsite : R.Site span) :
    R.Sound S f (Eval.call n callee args span) R.Holds :=
  (R.soundWith n).call f hcallee ha hsite

/-- Programs keep the store good. -/
theorem executeProgram (R : Regime) (n : Nat) (h : ∀ s ∈ ss, R.Executes S f s) :
    R.Sound S f (Eval.executeProgram n ss) fun _ _ => True := by
  induction ss generalizing S with
  | nil => exact .nothing
  | cons s ss ih =>
    refine .bind (R.execute n (h s List.mem_cons_self)) fun flow T hT hflow => ?_
    cases flow with
    | normal => exact ih fun t ht => (h t (List.mem_cons_of_mem _ ht)).mono hT
    | returned v span => exact .raise fun _ _ _ _ => R.blame_ret hflow.2

end Regime

end TreeWalk
