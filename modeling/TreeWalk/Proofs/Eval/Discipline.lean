import TreeWalk.Proofs.Eval.Regime

/-!
# Disciplines of the store

A `Discipline` is a property of stores that every single access keeps, together with what it says of
the values a program holds, of the frames it runs in, and of how the store develops. It asks nothing
of the code that runs, and so it is a regime for all code (`Discipline.regime`): whole evaluations,
executions and calls keep it too (`Discipline.evaluate`, `Discipline.execute`, `Discipline.call`),
and all of them end in the frame in which they started. What programs do to the store is derived
from this by giving a discipline.
-/

namespace TreeWalk

/-- Where a computation runs: in any frame, in one whose names it may use, or in one in which it may
declare. -/
inductive Stance where
  | anywhere
  | reading
  | declaring

structure Discipline where
  /-- What holds of the store between any two accesses. -/
  Good : Store → Prop
  /-- How the store may develop. -/
  Grows : Store → Store → Prop
  /-- The values that the program may hold. -/
  Holds : Store → Value → Prop
  /-- The frames whose names the program may use. -/
  Scope : Store → FrameId → Prop
  /-- The frames in which the program may declare names. -/
  Own : Store → FrameId → Prop
  grows_refl {S} : Grows S S
  grows_trans {S T U} : Grows S T → Grows T U → Grows S U
  holds_mono {S T v} : Grows S T → Holds S v → Holds T v
  scope_mono {S T f} : Grows S T → Scope S f → Scope T f
  own_mono {S T f} : Grows S T → Own S f → Own T f
  scope_of_own {S f} : Own S f → Scope S f
  holds_plain {S v} : v.isPlain → Holds S v
  holds_tuple {S vs} : Holds S (.tuple vs) ↔ ∀ v ∈ vs, Holds S v
  holds_vector {S vs} : Holds S (.vector vs) ↔ ∀ v ∈ vs, Holds S v
  lookup {S f x v} : Good S → Scope S f → S.lookup? f x = some v → Holds S v
  assign {S f g x v} : Good S → Scope S f → S.owner? f x = some g → Holds S v →
    Good (S.define g x v) ∧ Grows S (S.define g x v)
  define {S f x v} : Good S → Own S f → Holds S v → Good (S.define f x v) ∧ Grows S (S.define f x v)
  extend {S f pairs} : Good S → Scope S f → (∀ p ∈ pairs, Holds S p.2) →
    Good (S.extend f pairs).2 ∧ Grows S (S.extend f pairs).2 ∧
      Own (S.extend f pairs).2 (S.extend f pairs).1
  function {S f c} : Good S → Holds S (.function f) → S.functions[f]? = some c → Scope S c.scope
  method {S k x c} : Good S → Holds S (.class_ k) → S.findMethod? k x = some c → Scope S c.scope
  objectClass {S o k} : Good S → Holds S (.object o) → S.objectClass? o = some k →
    Holds S (.class_ k)
  field {S o x v} : Good S → Holds S (.object o) → S.field? o x = some v → Holds S v
  setField {S o x v} : Good S → Holds S (.object o) → Holds S v →
    Good (S.setField o x v) ∧ Grows S (S.setField o x v)
  addFunction {S c} : Good S → Scope S c.scope →
    Good (S.addFunction c).2 ∧ Grows S (S.addFunction c).2 ∧
      Holds (S.addFunction c).2 (.function (S.addFunction c).1)
  addClass {S} (info : ClassInfo) : Good S → (∀ k, info.superclass = some k → Holds S (.class_ k)) →
    (∀ x c, info.methods.get? x = some c → Scope S c.scope) →
    Good (S.addClass info).2 ∧ Grows S (S.addClass info).2 ∧
      Holds (S.addClass info).2 (.class_ (S.addClass info).1)
  addObject {S k} : Good S → Holds S (.class_ k) →
    Good (S.addObject { cls := k }).2 ∧ Grows S (S.addObject { cls := k }).2 ∧
      Holds (S.addObject { cls := k }).2 (.object (S.addObject { cls := k }).1)

namespace Discipline

variable {D : Discipline} {α : Type} {st : Stance} {S : Store} {V : Store → α → Prop}

theorem bindMethod (hS : D.Good S) (hc : D.Scope S c.scope) (hr : D.Holds S r) :
    D.Good (S.bindMethod c r).2 ∧ D.Grows S (S.bindMethod c r).2 ∧
      D.Scope (S.bindMethod c r).2 (S.bindMethod c r).1.scope := by
  have hpairs : ∀ p ∈ [(Symbol.this, r)], D.Holds S p.2 := by simpa using hr
  obtain ⟨hgood, hgrows, hown⟩ := D.extend hS hc hpairs
  exact ⟨hgood, hgrows, D.scope_of_own hown⟩

theorem methodScope (hS : D.Good S) (hf : D.Scope S f) (hk : ∀ j ∈ k, D.Holds S (.class_ j)) :
    D.Good (S.methodScope f k).2 ∧ D.Grows S (S.methodScope f k).2 ∧
      D.Scope (S.methodScope f k).2 (S.methodScope f k).1 := by
  cases k with
  | none => exact ⟨hS, D.grows_refl, hf⟩
  | some j =>
    have hpairs : ∀ p ∈ [(Symbol.super, Value.class_ j)], D.Holds S p.2 := by simpa using hk j rfl
    obtain ⟨hgood, hgrows, hown⟩ := D.extend hS hf hpairs
    exact ⟨hgood, hgrows, D.scope_of_own hown⟩

/-- A discipline is a regime under which all code runs and every error is allowed. -/
def regime (D : Discipline) : Regime where
  Good := D.Good
  Grows := D.Grows
  Holds := D.Holds
  Scope := D.Scope
  Own := D.Own
  Runs _ _ _ := True
  Callable S c := D.Scope S c.scope
  Binds _ := True
  Site _ := True
  Leaves _ := True
  Fault _ _ := True
  grows_refl := D.grows_refl
  grows_trans := D.grows_trans
  holds_mono := D.holds_mono
  scope_mono := D.scope_mono
  own_mono := D.own_mono
  runs_mono _ _ _ := trivial
  callable_mono := D.scope_mono
  scope_of_own := D.scope_of_own
  holds_plain := D.holds_plain
  holds_tuple _ _ h := D.holds_tuple.mpr h
  holds_element h hv := D.holds_tuple.mp h _ hv
  holds_vector := D.holds_vector
  runs_inner _ _ := trivial
  runs_ident _ _ := trivial
  runs_pattern _ _ _ _ _ _ := trivial
  runs_call _ := trivial
  runs_ret _ := trivial
  blame _ _ _ _ := trivial
  blame_arity _ := trivial
  blame_callee _ := trivial
  blame_ret _ := trivial
  lookup := D.lookup
  assign hS hf _ ho hv := D.assign hS hf ho hv
  define hS hf _ hv := D.define hS hf hv
  extend hS hf hpairs := by
    obtain ⟨hgood, hgrows, hown⟩ := D.extend hS hf fun p hp => (hpairs p hp).2
    exact ⟨hgood, hgrows, hown, fun _ _ => trivial⟩
  callable hc := ⟨hc, fun _ _ => trivial, fun _ _ => trivial⟩
  function := D.function
  functionHere _ _ hf _ := hf
  addFunction := D.addFunction
  newClass {S f x sup methods k info} hS hf _ _ hk hsup htable := by
    obtain ⟨hgood, hgrows, hscope⟩ := methodScope hS hf hk
    have hsup' : ∀ j, info.superclass = some j → D.Holds (S.methodScope f k).2 (.class_ j) :=
      fun j hj => D.holds_mono hgrows (hk j (hsup.symm.trans hj))
    obtain ⟨hgood', hgrows', hclass⟩ := D.addClass info hgood hsup' fun y c hc =>
      (htable y c hc).2.1 ▸ hscope
    exact ⟨hgood', D.grows_trans hgrows hgrows', hclass⟩
  bindMethod hS ho hk hc := bindMethod hS (D.method hS (D.objectClass hS ho hk) hc) ho
  bindSuper hS hf _ hsuper hthis hc :=
    bindMethod hS (D.method hS (D.lookup hS hf hsuper) hc) (D.lookup hS hf hthis)
  field := D.field
  setField := D.setField
  addObject := D.addObject

/-- What a stance asks of the current frame. -/
def Stands (D : Discipline) : Stance → Store → FrameId → Prop
  | .anywhere => fun _ _ => True
  | .reading => D.Scope
  | .declaring => D.Own

/-- The state `m'` is one that a computation started in `m` may end in. -/
structure Follows (D : Discipline) (m m' : Machine) : Prop where
  current : m'.current = m.current
  grows : D.Grows m.store m'.store
  good : D.Good m'.store

/-- An outcome of a computation started in `m` is as it should be, and so is its value. -/
def Ends (D : Discipline) (m : Machine) (V : Store → α → Prop) : Outcome α → Prop
  | .ok a m' => D.Follows m m' ∧ V m'.store a
  | .fault _ m' => D.Follows m m'
  | .exhausted => True

/-- The computation keeps the discipline from `S` on, and gives values of which `V` holds. -/
def Sound (D : Discipline) (st : Stance) (S : Store) (act : Eval α) (V : Store → α → Prop) : Prop :=
  ∀ names m, D.Grows S m.store → D.Good m.store → D.Stands st m.store m.current →
    D.Ends m V (act names m)

/-- A computation that keeps the regime of a discipline in every frame it may start in keeps the
discipline. -/
theorem Sound.of_regime {W : Store → α → Prop}
    (h : ∀ T f, D.Grows S T → D.Stands st T f → D.regime.Sound T f act W)
    (himp : ∀ T a, W T a → V T a) :
    D.Sound st S act V := by
  intro names m hg hm hs
  have hends := h m.store m.current hg hs names m rfl D.grows_refl hm
  cases hact : act names m with
  | ok a m' =>
    rw [hact] at hends
    exact ⟨⟨hends.1.current, hends.1.grows, hends.1.good⟩, himp _ a hends.2⟩
  | fault e m' =>
    rw [hact] at hends
    exact ⟨hends.1.current, hends.1.grows, hends.1.good⟩
  | exhausted => trivial

/-- What holds of the way in which a statement ended. -/
def FlowHolds (D : Discipline) (S : Store) : Flow → Prop
  | .normal => True
  | .returned v _ => D.Holds S v

theorem flowHolds_of_regime (T : Store) (flow : Flow) (h : D.regime.FlowHolds T flow) :
    D.FlowHolds T flow := by
  cases flow with
  | normal => trivial
  | returned v span => exact h.1

/-- Evaluating an expression keeps every discipline. -/
theorem evaluate (D : Discipline) (n : Nat) (e : Expr) (S : Store) :
    D.Sound .reading S (Eval.evaluate n e) D.Holds :=
  .of_regime (fun _ _ _ hf => D.regime.evaluate n hf trivial) fun _ _ h => h

theorem optional (D : Discipline) (n : Nat) (e : Option Expr) (S : Store) :
    D.Sound .reading S (Eval.optional (Eval.evaluate n) e) D.Holds :=
  .of_regime (fun _ _ _ hf => .optional (D.regime.evaluate n) ⟨hf, fun _ _ => trivial⟩)
    fun _ _ h => h

theorem functionHere (D : Discipline) (decl : FunctionDecl) (S : Store) :
    D.Sound .reading S (Eval.functionHere decl) D.Holds :=
  .of_regime (fun _ _ _ hf => .functionHere hf trivial) fun _ _ h => h

theorem newClass (D : Discipline) (x : Ident) (sup : Option Ident) (methods : List FunctionDecl)
    (S : Store) :
    D.Sound .reading S (Eval.newClass x sup methods) D.Holds :=
  .of_regime (fun _ _ _ hf => .newClass hf trivial) fun _ _ h => h

/-- Executing a statement keeps every discipline, where the current frame is one to declare in. -/
theorem execute (D : Discipline) (n : Nat) (s : Stmt) (S : Store) :
    D.Sound .declaring S (Eval.execute n s) D.FlowHolds :=
  .of_regime (fun _ _ _ hf => D.regime.execute n (.of_own hf trivial)) flowHolds_of_regime

/-- Executing a statement that declares nothing keeps every discipline, whatever the current frame
is for. -/
theorem execute_quiet (D : Discipline) (n : Nat) (hs : s.declares = false) (S : Store) :
    D.Sound .reading S (Eval.execute n s) D.FlowHolds :=
  .of_regime (fun _ _ _ hf =>
    D.regime.execute n ⟨hf, trivial, fun h => absurd (hs.symm.trans h) Bool.false_ne_true⟩)
    flowHolds_of_regime

theorem executeProgram (D : Discipline) (n : Nat) (ss : List Stmt) (S : Store) :
    D.Sound .declaring S (Eval.executeProgram n ss) fun _ _ => True :=
  .of_regime (fun _ _ _ hf => D.regime.executeProgram n fun _ _ => .of_own hf trivial)
    fun _ _ h => h

/-- Calling a function or class keeps every discipline, whatever the current frame. -/
theorem call (D : Discipline) (n : Nat) (hcallee : D.Holds S callee)
    (ha : ∀ v ∈ args, D.Holds S v) :
    D.Sound .anywhere S (Eval.call n callee args span) D.Holds :=
  .of_regime (fun _ f hg _ =>
    D.regime.call n f (D.holds_mono hg hcallee) (fun v hv => D.holds_mono hg (ha v hv))
    trivial) fun _ _ h => h

end Discipline

end TreeWalk
