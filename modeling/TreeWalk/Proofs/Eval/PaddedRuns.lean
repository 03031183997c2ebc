import TreeWalk.Eval.Run
import TreeWalk.Proofs.Eval.Padding
import TreeWalk.Proofs.Tree

/-!
# Runs in padded stores

Code that runs in a padded store does what it does in the other one: it ends alike, with the same
value or the same error, prints the same and leaves a store that is padded again. The two runs make
functions, classes and objects in the same order, so that values are the same in both. Only frames
have other numbers. What code declares has to go to a frame that has bindings, so a statement that
declares a name runs in twins; for other code it is enough that the one current frame stands for the
other.
-/

namespace TreeWalk

/-- The machine `m'` does in a padded store what `m` does; their current frames are `f'` and `f`. -/
structure Machine.Padded (σ : List FrameId) (f f' : FrameId) (m m' : Machine) : Prop where
  store : m.store.Padded σ m'.store
  here : m.current = f
  here' : m'.current = f'
  output : m.output = m'.output
  events : m.events = m'.events

/-- The outcomes are alike, with more frames than `σ` tells of. -/
inductive Outcome.Padded (σ : List FrameId) (f f' : FrameId) (V : List FrameId → α → β → Prop) :
    Outcome α → Outcome β → Prop where
  | ok : σ <+: τ → V τ a b → Machine.Padded τ f f' m m' → Padded σ f f' V (.ok a m) (.ok b m')
  | fault : σ <+: τ → Machine.Padded τ f f' m m' → Padded σ f f' V (.fault e m) (.fault e m')
  | exhausted : Padded σ f f' V .exhausted .exhausted

/-- More frames may have been made before. -/
theorem Outcome.Padded.mono {V : List FrameId → α → β → Prop} (hσ : σ <+: τ)
    (h : Outcome.Padded τ f f' V o o') :
    Outcome.Padded σ f f' V o o' := by
  cases h with
  | ok hτ hab hm => exact .ok (hσ.trans hτ) hab hm
  | fault hτ hm => exact .fault (hσ.trans hτ) hm
  | exhausted => exact .exhausted

/-- Both runs go back to the frames they came from. -/
theorem Outcome.Padded.backTo {V : List FrameId → α → β → Prop} (h : Outcome.Padded σ g g' V o o')
    (f f' : FrameId) :
    Outcome.Padded σ f f' V (Eval.backTo f o) (Eval.backTo f' o') := by
  cases h with
  | ok hτ hab hm => exact .ok hτ hab ⟨hm.store, rfl, rfl, hm.output, hm.events⟩
  | fault hτ hm => exact .fault hτ ⟨hm.store, rfl, rfl, hm.output, hm.events⟩
  | exhausted => exact .exhausted

theorem Outcome.Padded.backTo_self {V : List FrameId → α → β → Prop}
    (h : Outcome.Padded σ f f' V o o') :
    Eval.backTo f o = o := by
  cases h with
  | ok _ _ hm | fault _ hm => cases hm.here; rfl
  | exhausted => rfl

/-- Names are the same on both sides here. -/
theorem Link.oneToOne_same : Link.same.OneToOne := by
  rintro x y x' y' rfl rfl
  exact Iff.rfl

namespace Eval

/-- Wherever its store is padded, the second computation does what the first does. -/
def Pads (σ : List FrameId) (f f' : FrameId) (V : List FrameId → α → β → Prop) (act : Eval α)
    (act' : Eval β) : Prop :=
  ∀ names τ m m', σ <+: τ → Machine.Padded τ f f' m m' →
    Outcome.Padded τ f f' V (act names m) (act' names m')

namespace Pads

/-- The same, whatever the origins. -/
abbrev Same (_ : List FrameId) (a b : α) : Prop :=
  a = b

variable {α β γ δ : Type} {V : List FrameId → α → β → Prop} {W : List FrameId → γ → δ → Prop}
  {σ : List FrameId} {f f' : FrameId}

/-! ## Sequences -/

theorem mono {act : Eval α} {act' : Eval β} (hσ : σ <+: τ) (h : Pads σ f f' V act act') :
    Pads τ f f' V act act' :=
  fun names _ m m' hτ hm => h names _ m m' (hσ.trans hτ) hm

theorem pure (h : ∀ τ, σ <+: τ → V τ a b) : Pads σ f f' V (Pure.pure a : Eval α) (Pure.pure b) :=
  fun _ _ _ _ hτ hm => .ok List.prefix_rfl (h _ hτ) hm

theorem same (a : α) : Pads σ f f' Same (Pure.pure a : Eval α) (Pure.pure a) :=
  .pure fun _ _ => rfl

theorem exhausted : Pads σ f f' V (Eval.exhausted : Eval α) (Eval.exhausted : Eval β) :=
  fun _ _ _ _ _ _ => .exhausted

theorem raise (e : RuntimeError) : Pads σ f f' V (Eval.raise e : Eval α) (Eval.raise e : Eval β) :=
  fun _ _ _ _ _ hm => .fault List.prefix_rfl hm

/-- The second parts run in stores that have got more frames. -/
theorem bind {act : Eval α} {act' : Eval β} {next : α → Eval γ} {next' : β → Eval δ}
    (h : Pads σ f f' V act act')
    (hnext : ∀ τ a b, σ <+: τ → V τ a b → Pads τ f f' W (next a) (next' b)) :
    Pads σ f f' W (act >>= next) (act' >>= next') := by
  intro names τ m m' hτ hm
  have ho := h names τ m m' hτ hm
  simp only [Bind.bind]
  generalize act names m = o at ho
  generalize act' names m' = o' at ho
  cases ho with
  | ok hτ' hab hm => exact (hnext _ _ _ (hτ.trans hτ') hab names _ _ _ List.prefix_rfl hm).mono hτ'
  | fault hτ' hm => exact .fault hτ' hm
  | exhausted => exact .exhausted

/-- After a computation with the same value in both runs. -/
theorem next {act act' : Eval α} {next : α → Eval γ} {next' : α → Eval δ}
    (h : Pads σ f f' Same act act') (hnext : ∀ τ a, σ <+: τ → Pads τ f f' W (next a) (next' a)) :
    Pads σ f f' W (act >>= next) (act' >>= next') := by
  refine h.bind ?_
  rintro τ a _ hτ rfl
  exact hnext τ a hτ

theorem ofExcept (r : Except RuntimeError α) :
    Pads σ f f' Same (Eval.ofExcept r) (Eval.ofExcept r) := by
  cases r with
  | ok a => exact .same a
  | error e => exact .raise e

theorem nameOf (x : Symbol) : Pads σ f f' Same (Eval.nameOf x) (Eval.nameOf x) :=
  fun _ _ _ _ _ hm => .ok List.prefix_rfl rfl hm

/-- Questions to padded stores have answers that go together, however many frames there are by then.
-/
theorem query {q : Store → α} {q' : Store → β}
    (h : ∀ τ S T, σ <+: τ → S.Padded τ T → V τ (q S) (q' T)) :
    Pads σ f f' V (Eval.query q) (Eval.query q') :=
  fun _ _ _ _ hτ hm => .ok List.prefix_rfl (h _ _ _ hτ hm.store) hm

/-- The same, for changes that leave a padded store. New frames may be made. -/
theorem update {q : Store → α × Store} {q' : Store → β × Store}
    (h : ∀ τ S T, σ <+: τ → S.Padded τ T → ∃ υ, τ <+: υ ∧ V υ (q S).1 (q' T).1 ∧
        (q S).2.Padded υ (q' T).2) :
    Pads σ f f' V (Eval.update q) (Eval.update q') := by
  intro names τ m m' hτ hm
  obtain ⟨υ, hυ, hv, hstore⟩ := h τ _ _ hτ hm.store
  exact .ok hυ hv ⟨hstore, hm.here, hm.here', hm.output, hm.events⟩

theorem record (event : Event) : Pads σ f f' Same (Eval.record event) (Eval.record event) :=
  fun _ _ _ _ _ hm =>
    .ok List.prefix_rfl rfl ⟨hm.store, hm.here, hm.here', hm.output,
      congrArg (·.push event) hm.events⟩

theorem printed (v : Value) :
    Pads σ f f' Same (Eval.query (·.printed v)) (Eval.query (·.printed v)) :=
  .query fun _ _ _ _ hS => hS.sameNames.printed v

/-! ## Names and frames -/

theorem unbound (x : Ident) : Pads σ f f' V (Eval.unbound x : Eval α) (Eval.unbound x : Eval β) :=
  .next (.nameOf x.name) fun _ _ _ => .raise _

/-- A padding frame binds nothing, so looking outwards goes through it. -/
theorem lookup (hf : Near σ f f') (x : Ident) :
    Pads σ f f' Same (Eval.lookup x) (Eval.lookup x) := by
  intro names τ m m' hτ hm
  unfold Eval.lookup
  rw [hm.here, hm.here', hm.store.lookup? (hf.mono hτ) x.name]
  split
  · exact .ok List.prefix_rfl rfl hm
  · exact unbound x names τ m m' hτ hm

/-- What is declared has to go to a frame that stands for one with bindings. -/
theorem define (hf : Twin σ f f') (x : Symbol) (v : Value) :
    Pads σ f f' Same (Eval.define x v) (Eval.define x v) := by
  intro names τ m m' hτ hm
  unfold Eval.define
  rw [hm.here, hm.here']
  exact .ok List.prefix_rfl rfl ⟨hm.store.define (hf.mono hτ) x v, rfl, rfl, hm.output, hm.events⟩

theorem assign (hf : Near σ f f') (x : Ident) (v : Value) :
    Pads σ f f' Same (Eval.assign x v) (Eval.assign x v) := by
  intro names τ m m' hτ hm
  have howner := hm.store.owner? (hf.mono hτ) x.name
  unfold Eval.assign
  rw [hm.here, hm.here']
  generalize m.store.owner? f x.name = r at howner
  generalize m'.store.owner? f' x.name = r' at howner
  cases howner with
  | none => exact unbound x names τ m m' hτ hm
  | some htwin =>
    exact .ok List.prefix_rfl rfl ⟨hm.store.define htwin x.name v, rfl, rfl, hm.output, hm.events⟩

/-- Both go back to the frames in which they were. -/
theorem inFrame {act : Eval α} {act' : Eval β} (h : Pads σ g g' V act act') :
    Pads σ f f' V (Eval.inFrame g act) (Eval.inFrame g' act') := by
  intro names τ m m' hτ hm
  have ho := h names τ { m with current := g } { m' with current := g' } hτ ⟨hm.store, rfl, rfl,
    hm.output, hm.events⟩
  have hback := ho.backTo m.current m'.current
  rw [hm.here, hm.here'] at hback
  unfold Eval.inFrame
  rw [hm.here, hm.here']
  exact hback

/-- A new frame in both runs; the new frames are twins. -/
theorem within {act : Eval α} {act' : Eval β} (hg : Near σ g g') (pairs : List (Symbol × Value))
    (h : ∀ τ new new', σ <+: τ → Twin τ new new' → Pads τ new new' V act act') :
    Pads σ f f' V (Eval.within g pairs act) (Eval.within g' pairs act') := by
  refine .bind (V := Twin) (.update fun τ S T hτ hS => ?_) fun τ new new' hτ hnew =>
    .inFrame (h τ new new' hτ hnew)
  obtain ⟨hstore, hnew⟩ := hS.extend (hg.mono hτ) pairs
  exact ⟨_, List.prefix_append _ _, hnew, hstore⟩

theorem nested {act : Eval α} {act' : Eval β} (hf : Near σ f f') (pairs : List (Symbol × Value))
    (h : ∀ τ new new', σ <+: τ → Twin τ new new' → Pads τ new new' V act act') :
    Pads σ f f' V (Eval.nested pairs act) (Eval.nested pairs act') := by
  intro names τ m m' hτ hm
  unfold Eval.nested
  rw [hm.here, hm.here']
  exact within hf pairs h names τ m m' hτ hm

/-- A new empty frame in the second run alone. -/
theorem nested_right {act : Eval α} {act' : Eval β} (hf : Near σ f f')
    (h : ∀ τ new', σ <+: τ → Near τ f new' → Pads τ f new' V act act') :
    Pads σ f f' V act (Eval.nested [] act') := by
  intro names τ m m' hτ hm
  obtain ⟨hstore, hnew⟩ := hm.store.extend_right (hf.mono hτ)
  have hstep : τ <+: τ ++ [f] := List.prefix_append _ _
  have ho := h _ _ (hτ.trans hstep) hnew names _ m
    { m' with store := (m'.store.extend f' []).2, current := (m'.store.extend f' []).1 }
    List.prefix_rfl ⟨hstore, hm.here, rfl, hm.output, hm.events⟩
  have hback := (ho.backTo f m'.current).mono hstep
  -- The first run made no frame, and has none to come back from.
  rw [ho.backTo_self, hm.here'] at hback
  unfold Eval.nested
  rw [hm.here']
  unfold Eval.within Eval.inFrame
  simp only [Bind.bind, Eval.update, hm.here']
  exact hback

/-- The output does not depend on frames. -/
theorem print (v : Value) (span : Span) :
    Pads σ f f' Same (Eval.print v span) (Eval.print v span) := by
  intro names τ m m' hτ hm
  unfold Eval.print
  rw [hm.output, hm.store.sameNames.pieces]
  split
  · exact .ok List.prefix_rfl rfl ⟨hm.store, hm.here, hm.here', rfl, hm.events⟩
  · exact .fault List.prefix_rfl ⟨hm.store, hm.here, hm.here', rfl, hm.events⟩

/-! ## Functions, classes and objects -/

theorem closure (hg : Near σ g g') (decl : FunctionDecl) (isInitializer : Bool) :
    Pads σ f f' Closure.Near (Eval.closure decl g isInitializer)
      (Eval.closure decl g' isInitializer) :=
  .next (.nameOf decl.name.name) fun _ _ hτ => .pure fun _ hυ =>
    ⟨rfl, rfl, hg.mono (hτ.trans hυ), rfl⟩

theorem newFunction (hc : Closure.Near σ c c') :
    Pads σ f f' Same (Eval.newFunction c) (Eval.newFunction c') := by
  refine .next (.update fun τ S T hτ hS => ?_) fun _ f _ => .same _
  obtain ⟨hfunction, hstore⟩ := hS.addFunction (hc.mono hτ)
  exact ⟨τ, List.prefix_rfl, hfunction, hstore⟩

/-- The new frame for `this` is a twin of its own. -/
theorem bindMethod (hc : Closure.Near σ c c') (v : Value) :
    Pads σ f f' Closure.Near (Eval.bindMethod c v) (Eval.bindMethod c' v) := by
  refine .update fun τ S T hτ hS => ?_
  obtain ⟨hstore, hnew⟩ := hS.extend (hc.scope.mono hτ) [(.this, v)]
  exact ⟨_, List.prefix_append _ _, ⟨hc.name, hc.decl, hnew.near, hc.isInitializer⟩, hstore⟩

/-- A method that was found is bound, and becomes a new function. -/
theorem newMethod (hc : Closure.Near σ c c') (v : Value) :
    Pads σ f f' Same (Eval.bindMethod c v >>= Eval.newFunction)
      (Eval.bindMethod c' v >>= Eval.newFunction) :=
  .bind (.bindMethod hc v) fun _ _ _ _ hd => .newFunction hd

theorem declareFunction (hf : Twin σ f f') (decl : FunctionDecl) :
    Pads σ f f' Same (Eval.declareFunction decl) (Eval.declareFunction decl) := by
  have hfunction : Pads σ f f' Same (Eval.functionHere decl) (Eval.functionHere decl) := by
    intro names τ m m' hτ hm
    unfold Eval.functionHere
    rw [hm.here, hm.here']
    have hnew : Pads σ f f' Same (Eval.closure decl f false >>= Eval.newFunction)
        (Eval.closure decl f' false >>= Eval.newFunction) :=
      .bind (.closure hf.near decl false) fun _ _ _ _ hc => .newFunction hc
    exact hnew names τ m m' hτ hm
  exact .next hfunction fun _ v hτ => .define (hf.mono hτ) decl.name.name v

theorem superclass? (hf : Near σ f f') (x : Option Ident) :
    Pads σ f f' Same (Eval.superclass? x) (Eval.superclass? x) := by
  cases x with
  | none => exact .same _
  | some x =>
    refine .next (.next (.lookup hf x) fun _ v _ => ?_) fun _ _ _ => .same _
    cases v with
    | class_ c => exact .same _
    | _ => exact .next (.nameOf x.name) fun _ _ _ => .raise _

theorem methodScope (hf : Near σ f f') (c : Option ClassId) :
    Pads σ f f' Near (Eval.methodScope c) (Eval.methodScope c) := by
  intro names τ m m' hτ hm
  cases c with
  | none => exact .ok List.prefix_rfl (hm.here ▸ hm.here' ▸ hf.mono hτ) hm
  | some c =>
    obtain ⟨hstore, hnew⟩ := hm.store.extend (hf.mono hτ) [(.super, .class_ c)]
    have hok : Outcome.Padded τ f f' Near
        (.ok (m.store.extend f [(.super, .class_ c)]).1
          { m with store := (m.store.extend f [(.super, .class_ c)]).2 })
        (.ok (m'.store.extend f' [(.super, .class_ c)]).1
          { m' with store := (m'.store.extend f' [(.super, .class_ c)]).2 }) :=
      .ok (List.prefix_append _ _) hnew.near ⟨hstore, hm.here, hm.here', hm.output, hm.events⟩
    rw [← hm.here, ← hm.here'] at hok ⊢
    exact hok

/-- By induction on the methods. -/
theorem methodTable (hg : Near σ g g') (decls : List FunctionDecl)
    (ht : Bindings.Linked .same (Closure.Near σ) table table') :
    Pads σ f f' (fun τ => Bindings.Linked .same (Closure.Near τ)) (Eval.methodTable g table decls)
      (Eval.methodTable g' table' decls) := by
  induction decls generalizing σ table table' with
  | nil => exact .pure fun _ hτ => ht.mono ⟨id, id⟩ fun _ _ hc => hc.mono hτ
  | cons decl decls ih =>
    refine .bind (.closure hg decl _) fun τ _ _ hτ hc => ih (hg.mono hτ) ?_
    exact .insert Link.oneToOne_same (ht.mono ⟨id, id⟩ fun _ _ hc => hc.mono hτ) rfl hc

theorem declareClass (hf : Twin σ f f') (x : Ident) (sup : Option Ident)
    (decls : List FunctionDecl) :
    Pads σ f f' Same (Eval.declareClass x sup decls) (Eval.declareClass x sup decls) := by
  have hnew : Pads σ f f' Same (Eval.newClass x sup decls) (Eval.newClass x sup decls) := by
    refine .next (.superclass? hf.near sup) fun τ c hτ => ?_
    refine .bind (.methodScope (hf.near.mono hτ) c) fun υ g g' _ hg => ?_
    refine .bind (.methodTable hg decls .empty) fun τ table table' _ ht => ?_
    refine .next (.nameOf x.name) fun υ shown hυ => ?_
    have hsize : table.size = table'.size := ht.length_eq
    rw [hsize]
    refine .next (.record _) fun ω _ hω =>
      .next (.update fun ρ S T hρ hS => ?_) fun _ _ _ => .same _
    have hmono := (hυ.trans hω).trans hρ
    have hnear : ClassInfo.Near ρ ⟨shown, c, table⟩ ⟨shown, c, table'⟩ :=
      ⟨rfl, rfl, fun y =>
        optionRel_mono (fun _ _ hc => hc.mono hmono) (ht.get? Link.oneToOne_same rfl)⟩
    obtain ⟨hclass, hstore⟩ := hS.addClass hnear
    exact ⟨ρ, List.prefix_rfl, hclass, hstore⟩
  exact .next hnew fun _ v hτ => .define (hf.mono hτ) x.name v

theorem findMethod (k : ClassId) (x : Symbol) : Pads σ f f' (fun τ => Option.Rel (Closure.Near τ))
    (Eval.query (·.findMethod? k x)) (Eval.query (·.findMethod? k x)) :=
  .query fun _ _ _ _ hS => hS.findMethod? k x

theorem property (v : Value) (x : Ident) :
    Pads σ f f' Same (Eval.property v x) (Eval.property v x) := by
  cases v with
  | object o =>
    refine .next (.query fun _ _ _ _ hS => hS.field? o x.name) fun τ field _ => ?_
    cases field with
    | some w => exact .same _
    | none =>
      refine .bind (V := fun υ => Option.Rel (Closure.Near υ)) (.query fun υ S T _ hS => ?_)
        fun υ r r' _ hr => ?_
      · rw [hS.sameNames.object o]
        cases T.objectClass? o with
        | none => exact .none
        | some c => exact hS.findMethod? c x.name
      · cases hr with
        | some hc => exact .newMethod hc (.object o)
        | none => exact .next (.nameOf x.name) fun _ _ _ => .raise _
  | _ => exact .raise _

theorem superMethod (hf : Near σ f f') (x : Ident) (span : Span) :
    Pads σ f f' Same (Eval.superMethod x span) (Eval.superMethod x span) := by
  refine .next (.lookup hf _) fun τ v hτ => ?_
  cases v with
  | class_ c =>
    refine .next (.lookup (hf.mono hτ) _) fun υ r _ => ?_
    refine .bind (.findMethod c x.name) fun υ found found' _ hfound => ?_
    cases hfound with
    | some hc => exact .newMethod hc r
    | none => exact .next (.nameOf x.name) fun _ _ _ => .raise _
  | _ => exact .next (.printed _) fun _ _ _ => .raise _

theorem checkArity (shown : String) (n k : Nat) (span : Span) :
    Pads σ f f' Same (Eval.checkArity shown n k span) (Eval.checkArity shown n k span) := by
  unfold Eval.checkArity
  split
  · exact .same _
  · exact .raise _

/-! ## Parts in order -/

section

variable {eval : Expr → Eval Value}
  (hev : ∀ {σ f f'} e, Near σ f f' → Pads σ f f' Same (eval e) (eval e))
  (hf : Near σ f f')
include hev hf

theorem evaluateAll (es : List Expr) :
    Pads σ f f' Same (Eval.evaluateAll eval es) (Eval.evaluateAll eval es) := by
  induction es generalizing σ with
  | nil => exact .same _
  | cons e es ih =>
    exact .next (hev e hf) fun τ v hτ => .next (ih (hf.mono hτ)) fun _ _ _ => .same _

theorem evaluateLast (last : Value) (es : List Expr) :
    Pads σ f f' Same (Eval.evaluateLast eval last es) (Eval.evaluateLast eval last es) := by
  induction es generalizing σ last with
  | nil => exact .same _
  | cons e es ih => exact .next (hev e hf) fun τ v hτ => ih (hf.mono hτ) v

theorem optional (e : Option Expr) :
    Pads σ f f' Same (Eval.optional eval e) (Eval.optional eval e) := by
  cases e with
  | none => exact .same _
  | some e => exact hev e hf

theorem holds (e : Expr) : Pads σ f f' Same (Eval.holds eval e) (Eval.holds eval e) :=
  .next (hev e hf) fun _ _ _ => .same _

theorem holdsIfGiven (e : Option Expr) :
    Pads σ f f' Same (Eval.holdsIfGiven eval e) (Eval.holdsIfGiven eval e) := by
  cases e with
  | none => exact .same _
  | some e => exact holds hev hf e

theorem effect (e : Option Expr) : Pads σ f f' Same (Eval.effect eval e) (Eval.effect eval e) :=
  .next (optional hev hf e) fun _ _ _ => .same _

/-- An arm runs in a frame of its own on both sides. -/
theorem armValue (arm : CaseArm) :
    Pads σ f f' Same (Eval.armValue eval arm) (Eval.armValue eval arm) := by
  have hbody : ∀ {τ}, Near τ f f' →
      Pads τ f f' Same (do return some (← eval arm.body)) (do return some (← eval arm.body)) :=
    fun hf => .next (hev arm.body hf) fun _ _ _ => .same _
  unfold Eval.armValue
  cases arm.guard with
  | none => exact hbody hf
  | some guard =>
    refine .next (hev guard hf) fun τ v hτ => ?_
    split
    · exact hbody (hf.mono hτ)
    · exact .same _

theorem firstArm (v : Value) (span : Span) (arms : List CaseArm) :
    Pads σ f f' Same (Eval.firstArm eval v span arms) (Eval.firstArm eval v span arms) := by
  induction arms generalizing σ with
  | nil => exact .next (.printed v) fun _ _ _ => .raise _
  | cons arm arms ih =>
    have hmatching : Pads σ f f' Same (Eval.matching arm.pattern v) (Eval.matching arm.pattern v) :=
      fun _ _ _ _ _ hm => .ok List.prefix_rfl rfl hm
    refine .next hmatching fun τ r hτ => ?_
    obtain ⟨matched, bound⟩ := r
    cases matched with
    | false => exact ih (hf.mono hτ)
    | true =>
      refine .next (.nested (hf.mono hτ) bound fun υ new new' _ hnew => armValue hev hnew.near arm)
        fun υ r hυ => ?_
      cases r with
      | some w => exact .same _
      | none => exact ih (hf.mono (hτ.trans hυ))

end

theorem repeatWhile {test test' : Eval Bool} {body body' : Eval Flow} {step step' : Eval Unit}
    (ht : Pads σ f f' Same test test') (hb : Pads σ f f' Same body body')
    (hs : Pads σ f f' Same step step') (n : Nat) :
    Pads σ f f' Same (Eval.repeatWhile test body step n)
      (Eval.repeatWhile test' body' step' n) := by
  induction n generalizing σ with
  | zero => exact .exhausted
  | succ n ih =>
    refine .next ht fun τ b hτ => ?_
    cases b with
    | false => exact .same _
    | true =>
      refine .next (hb.mono hτ) fun υ flow hυ => ?_
      have hυ := hτ.trans hυ
      cases flow with
      | normal =>
        refine .next (hs.mono hυ) fun ω _ hω => ?_
        have hω := hυ.trans hω
        exact ih (ht.mono hω) (hb.mono hω) (hs.mono hω)
      | returned v span => exact .same _

section

variable {exec : Stmt → Eval Flow}
  (hex : ∀ {σ f f'} s, Near σ f f' → (s.declares = true → Twin σ f f') →
    Pads σ f f' Same (exec s) (exec s))
include hex

/-- Statements in a row may declare names, so they run in twins. -/
theorem executeAll (hf : Twin σ f f') (ss : List Stmt) :
    Pads σ f f' Same (Eval.executeAll exec ss) (Eval.executeAll exec ss) := by
  induction ss generalizing σ with
  | nil => exact .same _
  | cons s ss ih =>
    refine .next (hex s hf.near fun _ => hf) fun τ flow hτ => ?_
    cases flow with
    | normal => exact ih (hf.mono hτ)
    | returned v span => exact .same _

theorem prepare (hf : Twin σ f f') (s : Option Stmt) :
    Pads σ f f' Same (Eval.prepare exec s) (Eval.prepare exec s) := by
  cases s with
  | none => exact .same _
  | some s => exact .next (hex s hf.near fun _ => hf) fun _ _ _ => .same _

/-! ## Calls -/

/-- A call starts from the frame of the function, not from the current one. -/
theorem invoke (hc : Closure.Near σ c c') (args : List Value) :
    Pads σ f f' Same (Eval.invoke exec c args) (Eval.invoke exec c' args) := by
  unfold Eval.invoke
  rw [hc.name, hc.decl, hc.isInitializer]
  refine .next (.record _) fun τ _ hτ => ?_
  refine .next (.within (hc.scope.mono hτ) _ fun υ new new' _ hnew => executeAll hex hnew _)
    fun υ flow hυ => ?_
  split
  · refine .query fun ω S T hω hS => ?_
    rw [hS.lookup? (hc.scope.mono ((hτ.trans hυ).trans hω))]
  · cases flow <;> exact .same _

theorem instantiate (k : ClassId) (args : List Value) (span : Span) :
    Pads σ f f' Same (Eval.instantiate exec k args span) (Eval.instantiate exec k args span) := by
  refine .next (.update fun τ S T _ hS => ?_) fun τ o _ => ?_
  · obtain ⟨ho, hstore⟩ := hS.addObject { cls := k }
    exact ⟨τ, List.prefix_rfl, ho, hstore⟩
  refine .next (.query fun _ _ _ _ hS => hS.sameNames.class_ k) fun τ shown _ => ?_
  refine .bind (.findMethod k .init) fun υ found found' _ hfound => ?_
  cases hfound with
  | none => exact .next (.checkArity shown 0 args.length span) fun _ _ _ => .same _
  | @some c c' hc =>
    have harity : c.arity = c'.arity := congrArg FunctionDecl.arity hc.decl
    dsimp only
    rw [harity]
    refine .next (.checkArity shown _ args.length span) fun ω _ hω => ?_
    refine .bind (.bindMethod (hc.mono hω) (.object o)) fun _ _ _ _ hready => ?_
    exact .next (invoke hex hready args) fun _ _ _ => .same _

theorem callWith (callee : Value) (args : List Value) (span : Span) :
    Pads σ f f' Same (Eval.callWith exec callee args span)
      (Eval.callWith exec callee args span) := by
  cases callee with
  | function g =>
    refine .bind (V := fun υ => Option.Rel (Closure.Near υ))
      (.query fun υ S T _ hS => hS.functions.entry g)
      fun υ found found' _ hfound => ?_
    cases hfound with
    | none => exact .raise _
    | @some c c' hc =>
      have harity : c.arity = c'.arity := congrArg FunctionDecl.arity hc.decl
      dsimp only
      rw [hc.name, harity]
      exact .next (.checkArity _ _ args.length span) fun _ _ hω => invoke hex (hc.mono hω) args
  | class_ k => exact instantiate hex k args span
  | _ => exact .raise _

end

end Pads

/-! ## Programs -/

/-- The three mutually recursive parts of a run go alike in padded stores, with `n` units of
fuel. -/
structure PadsWith (n : Nat) : Prop where
  evaluate : ∀ {σ f f'} e, Near σ f f' → Pads σ f f' Pads.Same (evaluate n e) (evaluate n e)
  execute : ∀ {σ f f'} s, Near σ f f' → (s.declares = true → Twin σ f f') →
    Pads σ f f' Pads.Same (execute n s) (execute n s)
  call : ∀ {σ f f'} callee args span, Pads σ f f' Pads.Same (call n callee args span)
    (call n callee args span)

namespace PadsWith

variable {n : Nat} (ih : PadsWith n)
include ih

theorem evaluate_succ (e : Expr) (hf : Near σ f f') :
    Pads σ f f' Pads.Same (Eval.evaluate (n + 1) e) (Eval.evaluate (n + 1) e) := by
  have hev := @ih.evaluate
  cases e with
  | literal => exact fun _ _ _ _ _ hm => .ok List.prefix_rfl rfl hm
  | grouping e => exact hev e hf
  | unary op e span => exact .next (hev e hf) fun _ v _ => .ofExcept _
  | binary l op r span =>
    refine .next (hev l hf) fun τ v hτ => ?_
    cases op.decided? v with
    | some w => exact .same _
    | none => exact .next (hev r (hf.mono hτ)) fun _ w _ => .ofExcept _
  | var x => exact .lookup hf x
  | assign x e => exact .next (hev e hf) fun _ v hτ => .assign (hf.mono hτ) x v
  | call e args span =>
    refine .next (hev e hf) fun τ v hτ => ?_
    exact .next (.evaluateAll hev (hf.mono hτ) args) fun _ vs _ => ih.call v vs span
  | get e x => exact .next (hev e hf) fun _ v _ => .property v x
  | set e x d =>
    refine .next (hev e hf) fun τ v hτ => ?_
    cases v with
    | object o =>
      refine .next (hev d (hf.mono hτ)) fun υ w _ => .update fun ω S T _ hS => ?_
      exact ⟨ω, List.prefix_rfl, rfl, hS.setField o x.name w⟩
    | _ => exact .raise _
  | this span => exact .lookup hf _
  | super x span => exact .superMethod hf x span
  | letIn x d e span =>
    exact .next (hev d hf) fun τ v hτ => .nested (hf.mono hτ) _ fun _ _ _ _ hnew => hev e hnew.near
  | seq es span => exact .nested hf [] fun _ _ _ _ hnew => .evaluateLast hev hnew.near .nil es
  | cond c d e span =>
    refine .next (hev c hf) fun τ v hτ => ?_
    split
    · exact hev d (hf.mono hτ)
    · exact hev e (hf.mono hτ)
  | tuple es span | vector es span => exact .next (.evaluateAll hev hf es) fun _ _ _ => .same _
  | case e arms span => exact .next (hev e hf) fun τ v hτ => .firstArm hev (hf.mono hτ) v span arms

/-- One case for each kind of statement. Only declarations need twins. -/
theorem execute_succ (s : Stmt) (hf : Near σ f f') (hdeclares : s.declares = true → Twin σ f f') :
    Pads σ f f' Pads.Same (Eval.execute (n + 1) s) (Eval.execute (n + 1) s) := by
  have hev := @ih.evaluate
  have hex := @ih.execute
  cases s with
  | expr e => exact .next (hev e hf) fun _ _ _ => .same _
  | print e span => exact .next (hev e hf) fun _ v _ => .next (.print v span) fun _ _ _ => .same _
  | varDecl x e =>
    have htwin := hdeclares rfl
    refine .next (.optional hev hf e) fun τ v hτ => ?_
    exact .next (.define (htwin.mono hτ) x.name v) fun _ _ _ => .same _
  | block ss span => exact .nested hf [] fun _ _ _ _ hnew => .executeAll hex hnew ss
  | fnDecl decl => exact .next (.declareFunction (hdeclares rfl) decl) fun _ _ _ => .same _
  | classDecl x sup decls =>
    exact .next (.declareClass (hdeclares rfl) x sup decls) fun _ _ _ => .same _
  | ret e span => exact .next (.optional hev hf e) fun _ _ _ => .same _
  | whileLoop c body span =>
    exact .repeatWhile (.holds hev hf c) (hex body hf hdeclares) (.same ()) n
  | forever ss span =>
    exact .repeatWhile (.same true) (.nested hf [] fun _ _ _ _ hnew => .executeAll hex hnew ss)
      (.same ()) n
  | forLoop init c inc body span =>
    refine .nested hf [] fun τ new new' _ hnew => .next (.prepare hex hnew init) fun υ _ hυ => ?_
    have hnew := hnew.mono hυ
    exact .repeatWhile (.holdsIfGiven hev hnew.near c) (hex body hnew.near fun _ => hnew)
      (.effect hev hnew.near inc) n

end PadsWith

/-- By induction on the fuel. -/
theorem padsWith (n : Nat) : PadsWith n := by
  induction n with
  | zero => exact ⟨fun _ _ => .exhausted, fun _ _ _ => .exhausted, fun _ _ _ => .exhausted⟩
  | succ n ih =>
    exact ⟨ih.evaluate_succ, ih.execute_succ, fun callee args span =>
      .callWith @ih.execute callee args span⟩

end Eval

end TreeWalk
