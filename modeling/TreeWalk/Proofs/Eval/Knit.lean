import TreeWalk.Proofs.Eval.Reachability

/-!
# How frames, methods and classes hang together

`this` and `super` are bound like other names, but only in frames made for the purpose: a frame with
a receiver when a method is bound to one, a frame with a superclass when a class is declared. A
store is `Knit` if all its frames, methods and functions come about in this way. What `this` and
`super` stand for as seen from a frame then never changes (`Store.Keeps`), and where `super` is
seen, so is a receiver (`Store.Knit.exists_receiver`).
-/

namespace TreeWalk

/-- Neither `this` nor `super`. -/
def Symbol.Plain (x : Symbol) : Prop :=
  x ≠ .this ∧ x ≠ .super

namespace Frame

/-- The frame of a method with its receiver, where the method sees `scope`. -/
def receiver (scope : FrameId) (o : ObjectId) : Frame :=
  { bindings := .ofList [(.this, .object o)], parent := some scope }

/-- The frame that the methods of a class see, where the class is declared in `scope` and has the
superclass `k`. -/
def super (scope : FrameId) (k : ClassId) : Frame :=
  { bindings := .ofList [(.super, .class_ k)], parent := some scope }

/-- Binds neither `this` nor `super`. -/
structure Ordinary (frame : Frame) : Prop where
  this : frame.bindings.get? .this = none
  super : frame.bindings.get? .super = none

theorem ordinary_iff {frame : Frame} :
    frame.Ordinary ↔ ∀ x, ¬ x.Plain → frame.bindings.get? x = none := by
  constructor
  · intro h x hx
    by_cases hthis : x = .this
    · exact hthis ▸ h.this
    · by_cases hsuper : x = .super
      · exact hsuper ▸ h.super
      · exact absurd ⟨hthis, hsuper⟩ hx
  · intro h
    exact ⟨h _ fun hx => hx.1 rfl, h _ fun hx => hx.2 rfl⟩

theorem ordinary_ofList {pairs : List (Symbol × Value)} (h : ∀ p ∈ pairs, p.1.Plain)
    (parent : Option FrameId) :
    Ordinary { bindings := .ofList pairs, parent } := by
  refine ordinary_iff.mpr fun x hx => ?_
  cases hget : (Bindings.ofList pairs).get? x with
  | none => rfl
  | some v => exact absurd (h _ (Bindings.mem_of_get?_ofList hget)) hx

theorem Ordinary.insert {frame : Frame} (h : frame.Ordinary) (hx : x.Plain) (v : Value) :
    Ordinary { frame with bindings := frame.bindings.insert x v } := by
  refine ordinary_iff.mpr fun y hy => ?_
  have hne : y ≠ x := fun heq => hy (heq ▸ hx)
  rw [Bindings.get?_insert, if_neg hne]
  exact ordinary_iff.mp h y hy

/-- The frame stays inside the same frame, and if it binds `this` or `super` then it stays as it
is. -/
structure KeptAs (frame frame' : Frame) : Prop where
  parent : frame'.parent = frame.parent
  same : frame' = frame ∨ frame.Ordinary ∧ frame'.Ordinary

theorem KeptAs.refl (frame : Frame) : frame.KeptAs frame :=
  ⟨rfl, .inl rfl⟩

theorem KeptAs.trans (h : KeptAs frame₁ frame₂) (h' : KeptAs frame₂ frame₃) :
    KeptAs frame₁ frame₃ := by
  refine ⟨h'.parent.trans h.parent, ?_⟩
  rcases h.same with rfl | hord
  · exact h'.same
  · rcases h'.same with rfl | hord'
    · exact .inr hord
    · exact .inr ⟨hord.1, hord'.2⟩

theorem KeptAs.get? (h : KeptAs frame frame') (hx : ¬ x.Plain) :
    frame'.bindings.get? x = frame.bindings.get? x := by
  rcases h.same with rfl | ⟨hord, hord'⟩
  · rfl
  · rw [ordinary_iff.mp hord x hx, ordinary_iff.mp hord' x hx]

end Frame

namespace Store

variable {S T U : Store} {f : FrameId} {frame : Frame} {k : ClassId} {c : Closure}

/-! ## Looking up from a frame -/

theorem lookup?_eq (hframe : S.frames[f]? = some frame) (hlt : ∀ p, frame.parent = some p → p < f)
    (x : Symbol) :
    S.lookup? f x = (frame.bindings.get? x).or (frame.parent.bind fun p => S.lookup? p x) := by
  have hparent : S.parentOf? f = frame.parent := by rw [parentOf?, hframe]; rfl
  have hbindings := bindingsOf_eq hframe
  unfold lookup? owner?
  rw [chain, hparent]
  cases hp : frame.parent with
  | none =>
    cases hx : frame.bindings.get? x with
    | none => simp [hbindings, Bindings.contains, hx]
    | some v => simp [hbindings, Bindings.contains, hx]
  | some p =>
    cases hx : frame.bindings.get? x with
    | none => simp [hlt p hp, hbindings, Bindings.contains, hx]
    | some v => simp [hlt p hp, hbindings, Bindings.contains, hx]

theorem owner?_eq {frame : Frame} (hframe : S.frames[f]? = some frame)
    (hlt : ∀ p, frame.parent = some p → p < f) (x : Symbol) : S.owner? f x =
      if frame.bindings.contains x then some f else frame.parent.bind fun p => S.owner? p x := by
  have hparent : S.parentOf? f = frame.parent := by rw [parentOf?, hframe]; rfl
  unfold owner?
  rw [chain, hparent]
  cases hp : frame.parent with
  | none => cases hx : frame.bindings.contains x <;> simp [bindingsOf_eq hframe, hx]
  | some p => cases hx : frame.bindings.contains x <;> simp [hlt p hp, bindingsOf_eq hframe, hx]

/-- The frame around every frame was made before it. -/
def ParentsOlder (S : Store) : Prop :=
  ∀ (f : FrameId) (frame : Frame), S.frames[f]? = some frame → ∀ p, frame.parent = some p → p < f

/-- From `S` to `T`, frames keep the frames around them, and those that bind `this` or `super` keep
all that they bind; functions, classes and the classes of objects stay; and `this` and `super` stand
for the same as seen from any frame. -/
structure Keeps (S T : Store) : Prop where
  frame : ∀ (f : FrameId) (frame : Frame), S.frames[f]? = some frame →
    ∃ frame', T.frames[f]? = some frame' ∧ frame.KeptAs frame'
  function : ∀ (f : FunctionId) (c : Closure), S.functions[f]? = some c → T.functions[f]? = some c
  class_ : ∀ (k : ClassId) (info : ClassInfo), S.classes[k]? = some info → T.classes[k]? = some info
  object : ∀ o k, S.objectClass? o = some k → T.objectClass? o = some k
  sees : ∀ f x, f < S.frames.size → ¬ x.Plain → T.lookup? f x = S.lookup? f x

namespace Keeps

theorem refl (S : Store) : S.Keeps S :=
  ⟨fun _ frame h => ⟨frame, h, .refl frame⟩, fun _ _ h => h, fun _ _ h => h, fun _ _ h => h,
    fun _ _ _ _ => rfl⟩

theorem size_le (h : S.Keeps T) (hf : f < S.frames.size) : f < T.frames.size := by
  obtain ⟨frame', hframe', -⟩ := h.frame f _ (Array.getElem?_eq_getElem hf)
  exact (Array.getElem?_eq_some_iff.mp hframe').1

theorem trans (h : S.Keeps T) (h' : T.Keeps U) : S.Keeps U where
  frame f frame hf := by
    obtain ⟨frame₁, hf₁, hkept₁⟩ := h.frame f frame hf
    obtain ⟨frame₂, hf₂, hkept₂⟩ := h'.frame f frame₁ hf₁
    exact ⟨frame₂, hf₂, hkept₁.trans hkept₂⟩
  function f c hc := h'.function f c (h.function f c hc)
  class_ k info hk := h'.class_ k info (h.class_ k info hk)
  object o k ho := h'.object o k (h.object o k ho)
  sees f x hf hx := (h'.sees f x (h.size_le hf) hx).trans (h.sees f x hf hx)

/-- What is seen from a frame is decided by the frames around it. -/
theorem of_frames (hS : S.ParentsOlder)
    (hframe : ∀ (f : FrameId) (frame : Frame), S.frames[f]? = some frame →
      ∃ frame', T.frames[f]? = some frame' ∧ frame.KeptAs frame')
    (hfunction : ∀ (f : FunctionId) (c : Closure), S.functions[f]? = some c →
      T.functions[f]? = some c)
    (hclass : ∀ (k : ClassId) (info : ClassInfo), S.classes[k]? = some info →
      T.classes[k]? = some info)
    (hobject : ∀ o k, S.objectClass? o = some k → T.objectClass? o = some k) : S.Keeps T := by
  refine ⟨hframe, hfunction, hclass, hobject, fun f x hf hx => ?_⟩
  induction f using Nat.strongRecOn with
  | ind f ih =>
    have hframe' := Array.getElem?_eq_getElem hf
    obtain ⟨frame', hf', hkept⟩ := hframe f _ hframe'
    have hlt := hS f _ hframe'
    rw [lookup?_eq hframe' hlt, lookup?_eq hf' (by rwa [hkept.parent]), hkept.get? hx, hkept.parent]
    cases hp : S.frames[f].parent with
    | none => rfl
    | some p =>
      have hpf := hlt p hp
      simp only [Option.bind_some]
      rw [ih p hpf (Nat.lt_trans hpf hf)]

theorem frame_of_receiver (h : S.Keeps T) (hf : S.frames[f]? = some (Frame.receiver scope o)) :
    T.frames[f]? = some (Frame.receiver scope o) := by
  obtain ⟨frame', hf', -, rfl | hord⟩ := h.frame f _ hf
  · exact hf'
  · cases hord.1.this

theorem frame_of_super (h : S.Keeps T) (hf : S.frames[f]? = some (Frame.super scope k)) :
    T.frames[f]? = some (Frame.super scope k) := by
  obtain ⟨frame', hf', -, rfl | hord⟩ := h.frame f _ hf
  · exact hf'
  · cases hord.1.super

end Keeps

/-! ## Classes and their methods -/

/-- The superclass that the class was declared with. -/
def superclass? (S : Store) (k : ClassId) : Option ClassId :=
  S.classes[k]?.bind ClassInfo.superclass

/-- The method is in the table of the class. -/
def Declares (S : Store) (k : ClassId) (c : Closure) : Prop :=
  ∃ info x, S.classes[k]? = some info ∧ info.methods.get? x = some c

theorem self_mem_classChain (S : Store) (k : ClassId) : k ∈ S.classChain k := by
  rw [classChain]
  cases S.classes[k]?.bind ClassInfo.superclass with
  | none => exact List.mem_cons_self
  | some l => dsimp only; split <;> exact List.mem_cons_self

theorem classChain_of_superclass (h : S.superclass? k = some l) (hlt : l < k) :
    S.classChain k = k :: S.classChain l := by
  rw [superclass?] at h
  rw [classChain, h]
  exact if_pos hlt

/-- The initializers of a class are the methods of that name. -/
def Marked (S : Store) (k : ClassId) : Prop :=
  ∀ info x c, S.classes[k]? = some info → info.methods.get? x = some c →
    c.isInitializer = (x == .init)

theorem exists_declares (h : S.findMethod? k x = some c) :
    ∃ d ∈ S.classChain k, S.Declares d c := by
  obtain ⟨d, hd, hx⟩ := List.exists_of_findSome?_eq_some h
  obtain ⟨info, hinfo, hx⟩ := Option.bind_eq_some_iff.mp hx
  exact ⟨d, hd, info, x, hinfo, hx⟩

theorem Keeps.superclass? (h : S.Keeps T) (hk : S.superclass? k = some l) :
    T.superclass? k = some l := by
  obtain ⟨info, hinfo, hl⟩ := Option.bind_eq_some_iff.mp hk
  exact Option.bind_eq_some_iff.mpr ⟨info, h.class_ k info hinfo, hl⟩

theorem Keeps.declares (h : S.Keeps T) (hc : S.Declares k c) : T.Declares k c := by
  obtain ⟨info, x, hinfo, hx⟩ := hc
  exact ⟨info, x, h.class_ k info hinfo, hx⟩

theorem Keeps.mem_classChain (h : S.Keeps T) (hd : d ∈ S.classChain k) : d ∈ T.classChain k := by
  fun_induction S.classChain k with
  | case1 k _ =>
    rw [List.mem_singleton.mp hd]
    exact T.self_mem_classChain k
  | case2 k l hl hlt ih =>
    rw [classChain_of_superclass (h.superclass? hl) hlt]
    rcases List.mem_cons.mp hd with rfl | hd
    · exact List.mem_cons_self
    · exact List.mem_cons_of_mem _ (ih hd)
  | case3 k l _ _ =>
    rw [List.mem_singleton.mp hd]
    exact T.self_mem_classChain k

end Store

/-! ## Code -/

namespace Code

/-- Declares a class without a superclass. -/
def isRootClass : Code → Bool
  | .stmt (.classDecl _ none _) => true
  | _ => false

/-- No class without a superclass is declared in the code, at any depth. -/
def Rootless (a : Code) : Prop :=
  a.Everywhere fun b => b.isRootClass = false

end Code

/-- What holds of all code that runs. If it is `tidy`, no class without a superclass is declared in
a method of a class with one. -/
structure CodeRule where
  Allows : Code → Prop
  tidy : Prop
  ident {a x} : Allows a → x ∈ a.idents → x.name.Plain
  pattern {e p} : Allows (.expr e) → p ∈ e.patterns → p.Everywhere fun q =>
    ∀ x ∈ q.idents, x.name.Plain
  rootless {x y methods decl s} : tidy → Allows (.stmt (.classDecl x (some y) methods)) →
    decl ∈ methods → s ∈ decl.body → (Code.stmt s).Rootless

namespace Store

section

variable (rule : CodeRule) (S : Store)

/-- The code may run in the frame. -/
structure Runs (f : FrameId) (a : Code) : Prop where
  allows : a.Everywhere rule.Allows
  rootless : rule.tidy → S.lookup? f .super ≠ none → a.Rootless

/-- The code of a function may run in the frame it sees. -/
structure CodeOf (c : Closure) : Prop where
  body : ∀ s ∈ c.decl.body, S.Runs rule c.scope (.stmt s)
  params : ∀ x ∈ c.decl.params, x.name.Plain

/-- Code runs in the frame or inside it: it is not one between a class and its methods. -/
def Lexical (f : FrameId) : Prop :=
  ∃ frame, S.frames[f]? = some frame ∧ frame.bindings.get? .super = none

/-- Names may be declared in the frame. -/
def Open (f : FrameId) : Prop :=
  ∃ frame, S.frames[f]? = some frame ∧ frame.Ordinary

/-- The methods of a class see the frame that was made for them, or if it has no superclass the
frame that it was declared in. -/
structure MethodOf (k : ClassId) (c : Closure) : Prop where
  code : S.CodeOf rule c
  subclass : ∀ l, S.superclass? k = some l → ∃ g, S.frames[c.scope]? = some (.super g l)
  root : S.superclass? k = none → S.Lexical c.scope ∧ (rule.tidy → S.lookup? c.scope .super = none)

/-- The function may be called. One that makes objects ready has a receiver. -/
structure Ready (c : Closure) : Prop where
  code : S.CodeOf rule c
  scope : S.Lexical c.scope
  initializer : c.isInitializer = true → ∃ g o, S.frames[c.scope]? = some (.receiver g o)

/-- How the frame at a place came about. -/
inductive MadeAt (f : FrameId) : Frame → Prop
  | code : frame.Ordinary → (∀ p, frame.parent = some p → S.Lexical p) → MadeAt f frame
  | method : S.Declares k c → S.objectClass? o = some j → (rule.tidy → k ∈ S.classChain j) →
      MadeAt f (.receiver c.scope o)
  | class_ : S.superclass? k = some l → (∀ c, S.Declares k c → c.scope = f) → S.Lexical g →
      MadeAt f (.super g l)

end

/-- All frames, classes and functions came about in the way they should. -/
structure Knit (rule : CodeRule) (S : Store) : Prop where
  older : S.ParentsOlder
  made : ∀ (f : FrameId) (frame : Frame), S.frames[f]? = some frame → S.MadeAt rule f frame
  superclass_lt : ∀ k l, S.superclass? k = some l → l < k
  method : ∀ k c, S.Declares k c → S.MethodOf rule k c
  marked : ∀ k, S.Marked k
  function : ∀ (f : FunctionId) (c : Closure), S.functions[f]? = some c → S.Ready rule c

variable {rule : CodeRule} {S T : Store} {f : FrameId} {frame : Frame} {k : ClassId} {c : Closure}

theorem Lexical.lt (h : S.Lexical f) : f < S.frames.size := by
  obtain ⟨frame, hf, -⟩ := h
  exact (Array.getElem?_eq_some_iff.mp hf).1

theorem Open.lexical (h : S.Open f) : S.Lexical f := by
  obtain ⟨frame, hf, hord⟩ := h
  exact ⟨frame, hf, hord.super⟩

/-! ## What stays -/

section

variable (h : S.Keeps T)
include h

theorem Keeps.lexical (hf : S.Lexical f) : T.Lexical f := by
  obtain ⟨frame, hf, hsuper⟩ := hf
  obtain ⟨frame', hf', hkept⟩ := h.frame f frame hf
  exact ⟨frame', hf', (hkept.get? fun hx => hx.2 rfl).trans hsuper⟩

theorem Keeps.isOpen (hf : S.Open f) : T.Open f := by
  obtain ⟨frame, hf, hord⟩ := hf
  obtain ⟨frame', hf', hkept⟩ := h.frame f frame hf
  refine ⟨frame', hf', Frame.ordinary_iff.mpr fun x hx => ?_⟩
  rw [hkept.get? hx, Frame.ordinary_iff.mp hord x hx]

theorem Keeps.runs (hf : f < S.frames.size) (ha : S.Runs rule f a) : T.Runs rule f a := by
  refine ⟨ha.allows, fun htidy hsuper => ha.rootless htidy ?_⟩
  rwa [← h.sees f .super hf fun hx => hx.2 rfl]

theorem Keeps.codeOf (hscope : c.scope < S.frames.size) (hc : S.CodeOf rule c) : T.CodeOf rule c :=
  ⟨fun s hs => h.runs hscope (hc.body s hs), hc.params⟩

theorem Keeps.ready (hc : S.Ready rule c) : T.Ready rule c := by
  refine ⟨h.codeOf hc.scope.lt hc.code, h.lexical hc.scope, fun hinit => ?_⟩
  obtain ⟨g, o, hframe⟩ := hc.initializer hinit
  exact ⟨g, o, h.frame_of_receiver hframe⟩

/-- A class that was there has the methods and the superclass it had. -/
theorem Keeps.of_declares (hk : k < S.classes.size) (hc : T.Declares k c) : S.Declares k c := by
  obtain ⟨info, x, hinfo, hx⟩ := hc
  have hold := Array.getElem?_eq_getElem hk
  have hnew := h.class_ k _ hold
  rw [hinfo] at hnew
  cases hnew
  exact ⟨_, x, hold, hx⟩

theorem Keeps.superclass?_eq (hk : k < S.classes.size) : T.superclass? k = S.superclass? k := by
  have hold := Array.getElem?_eq_getElem hk
  rw [Store.superclass?, Store.superclass?, hold, h.class_ k _ hold]

end

theorem Declares.lt (h : S.Declares k c) : k < S.classes.size := by
  obtain ⟨info, x, hinfo, -⟩ := h
  exact (Array.getElem?_eq_some_iff.mp hinfo).1

theorem lt_of_superclass (h : S.superclass? k = some l) : k < S.classes.size := by
  obtain ⟨info, hinfo, -⟩ := Option.bind_eq_some_iff.mp h
  exact (Array.getElem?_eq_some_iff.mp hinfo).1

theorem MethodOf.scope_lt (h : S.MethodOf rule k c) : c.scope < S.frames.size := by
  cases hk : S.superclass? k with
  | none => exact (h.root hk).1.lt
  | some l =>
    obtain ⟨g, hframe⟩ := h.subclass l hk
    exact (Array.getElem?_eq_some_iff.mp hframe).1

theorem Keeps.methodOf (h : S.Keeps T) (hk : k < S.classes.size) (hc : S.MethodOf rule k c) :
    T.MethodOf rule k c := by
  refine ⟨h.codeOf hc.scope_lt hc.code, fun l hl => ?_, fun hroot => ?_⟩
  · rw [h.superclass?_eq hk] at hl
    obtain ⟨g, hframe⟩ := hc.subclass l hl
    exact ⟨g, h.frame_of_super hframe⟩
  · rw [h.superclass?_eq hk] at hroot
    obtain ⟨hlexical, htidy⟩ := hc.root hroot
    refine ⟨h.lexical hlexical, fun ht => ?_⟩
    rw [h.sees c.scope .super hlexical.lt fun hx => hx.2 rfl]
    exact htidy ht

theorem Keeps.madeAt (h : S.Keeps T) (hf : S.MadeAt rule f frame) : T.MadeAt rule f frame := by
  cases hf with
  | code hord hparent => exact .code hord fun p hp => h.lexical (hparent p hp)
  | method hc ho htidy =>
    exact .method (h.declares hc) (h.object _ _ ho) fun ht => h.mem_classChain (htidy ht)
  | class_ hl hscope hg =>
    exact .class_ (h.superclass? hl) (fun c hc => hscope c (h.of_declares (lt_of_superclass hl) hc))
      (h.lexical hg)

/-! ## Single accesses -/

theorem MadeAt.keptAs (h : S.MadeAt rule f frame) (hkept : frame.KeptAs frame') :
    S.MadeAt rule f frame' := by
  rcases hkept.same with rfl | ⟨hord, hord'⟩
  · exact h
  · cases h with
    | code _ hparent => exact .code hord' (hkept.parent ▸ hparent)
    | method => cases hord.this
    | class_ => cases hord.super

/-- A class that has just been declared is as it should be. -/
structure NewClass (rule : CodeRule) (S : Store) (k : ClassId) : Prop where
  superclass_lt : ∀ l, S.superclass? k = some l → l < k
  method : ∀ c, S.Declares k c → S.MethodOf rule k c
  marked : S.Marked k

/-- What was there stays, and what is new is as it should be. -/
theorem Knit.grow (hS : S.Knit rule) (hkeeps : S.Keeps T)
    (hframe : ∀ (f : FrameId) (frame' : Frame), T.frames[f]? = some frame' →
      (∃ frame, S.frames[f]? = some frame ∧ frame.KeptAs frame') ∨
        (∀ p, frame'.parent = some p → p < f) ∧ T.MadeAt rule f frame')
    (hclass : ∀ k < T.classes.size, k < S.classes.size ∨ T.NewClass rule k)
    (hfunction : ∀ (f : FunctionId) (c : Closure), T.functions[f]? = some c →
      S.functions[f]? = some c ∨ T.Ready rule c) : T.Knit rule where
  older f frame' hf p hp := by
    rcases hframe f frame' hf with ⟨frame, hold, hkept⟩ | ⟨hlt, -⟩
    · exact hS.older f frame hold p (hkept.parent ▸ hp)
    · exact hlt p hp
  made f frame' hf := by
    rcases hframe f frame' hf with ⟨frame, hold, hkept⟩ | ⟨-, hmade⟩
    · exact (hkeeps.madeAt (hS.made f frame hold)).keptAs hkept
    · exact hmade
  superclass_lt k l hl := by
    rcases hclass k (lt_of_superclass hl) with hold | hnew
    · exact hS.superclass_lt k l ((hkeeps.superclass?_eq hold).symm.trans hl)
    · exact hnew.superclass_lt l hl
  method k c hc := by
    rcases hclass k hc.lt with hold | hnew
    · exact hkeeps.methodOf hold (hS.method k c (hkeeps.of_declares hold hc))
    · exact hnew.method c hc
  marked k info x c hinfo hx := by
    have hk := (Array.getElem?_eq_some_iff.mp hinfo).1
    rcases hclass k hk with hold | hnew
    · have hsame := hkeeps.class_ k _ (Array.getElem?_eq_getElem hold)
      cases hsame.symm.trans hinfo
      exact hS.marked k _ x c (Array.getElem?_eq_getElem hold) hx
    · exact hnew.marked info x c hinfo hx
  function f c hc := by
    rcases hfunction f c hc with hold | hnew
    · exact hkeeps.ready (hS.function f c hold)
    · exact hnew

/-- A new frame, where nothing else changes. -/
theorem Knit.extend (hS : S.Knit rule) (hg : g < S.frames.size)
    (hmade : S.Keeps (S.extend g pairs).2 →
      (S.extend g pairs).2.MadeAt rule S.frames.size
        { bindings := .ofList pairs, parent := some g }) :
    (S.extend g pairs).2.Knit rule ∧ S.Keeps (S.extend g pairs).2 := by
  have hkeeps : S.Keeps (S.extend g pairs).2 := by
    refine .of_frames hS.older (fun f frame hf => ⟨frame, ?_, .refl frame⟩) (fun _ _ h => h)
      (fun _ _ h => h)
      fun _ _ h => h
    rw [frame_extend_of_lt S (Array.getElem?_eq_some_iff.mp hf).1, hf]
  refine ⟨hS.grow hkeeps (fun f frame' hf => ?_) (fun k hk => .inl hk) fun _ _ h => .inl h, hkeeps⟩
  by_cases hlt : f < S.frames.size
  · rw [frame_extend_of_lt S hlt] at hf
    exact .inl ⟨frame', hf, .refl frame'⟩
  · have hsize := (Array.getElem?_eq_some_iff.mp hf).1
    rw [size_extend] at hsize
    obtain rfl : f = S.frames.size :=
      Nat.le_antisymm (Nat.le_of_lt_succ hsize) (Nat.le_of_not_lt hlt)
    rw [frame_extend_new] at hf
    cases hf
    refine .inr ⟨fun p hp => ?_, hmade hkeeps⟩
    cases hp
    exact hg

theorem Knit.extend_plain (hS : S.Knit rule) (hg : S.Lexical g) (hpairs : ∀ p ∈ pairs, p.1.Plain) :
    (S.extend g pairs).2.Knit rule ∧ S.Keeps (S.extend g pairs).2 ∧
      (S.extend g pairs).2.Open (S.extend g pairs).1 := by
  have hord := Frame.ordinary_ofList hpairs (some g)
  obtain ⟨hT, hkeeps⟩ := hS.extend hg.lt fun hkeeps => .code hord fun p hp => by
    cases hp
    exact hkeeps.lexical hg
  exact ⟨hT, hkeeps, _, frame_extend_new S g pairs, hord⟩

theorem Knit.define (hS : S.Knit rule) (hf : S.Open f) (hx : x.Plain) (v : Value) :
    (S.define f x v).Knit rule ∧ S.Keeps (S.define f x v) := by
  obtain ⟨frame₀, hframe₀, hord₀⟩ := hf
  have hkept : ∀ (g : FrameId) (frame : Frame), S.frames[g]? = some frame →
      frame.KeptAs
        (if f = g then { frame with bindings := frame.bindings.insert x v } else frame) := by
    intro g frame hg
    split
    · next heq =>
      subst heq
      rw [hframe₀] at hg
      cases hg
      exact ⟨rfl, .inr ⟨hord₀, hord₀.insert hx v⟩⟩
    · exact .refl frame
  have hkeeps : S.Keeps (S.define f x v) := by
    refine .of_frames hS.older (fun g frame hg => ⟨_, ?_, hkept g frame hg⟩) (fun _ _ h => h)
      (fun _ _ h => h)
      fun _ _ h => h
    rw [frame_define, hg]
    rfl
  refine ⟨hS.grow hkeeps (fun g frame' hg => .inl ?_) (fun k hk => .inl hk) fun _ _ h => .inl h,
    hkeeps⟩
  rw [frame_define] at hg
  obtain ⟨frame, hold, rfl⟩ := Option.map_eq_some_iff.mp hg
  exact ⟨frame, hold, hkept g frame hold⟩

/-- The frame that binds a name that a program may use is open. -/
theorem Knit.owner (hS : S.Knit rule) (hx : x.Plain) (h : S.owner? f x = some g) : S.Open g := by
  have hbinds : (S.bindingsOf g).contains x = true := by
    unfold owner? at h
    have hfound := List.find?_some h
    exact hfound
  cases hg : S.frames[g]? with
  | none => simp [bindingsOf, hg, Bindings.contains] at hbinds
  | some frame =>
    rw [bindingsOf_eq hg, Bindings.contains] at hbinds
    cases hS.made g frame hg with
    | code hord _ => exact ⟨frame, hg, hord⟩
    | method =>
      obtain ⟨v, hv⟩ := Option.isSome_iff_exists.mp hbinds
      cases List.mem_singleton.mp (Bindings.mem_of_get?_ofList hv)
      exact absurd rfl hx.1
    | class_ =>
      obtain ⟨v, hv⟩ := Option.isSome_iff_exists.mp hbinds
      cases List.mem_singleton.mp (Bindings.mem_of_get?_ofList hv)
      exact absurd rfl hx.2

/-- Stores with the same frames and classes, where all functions may be called. -/
theorem Knit.of_same (hS : S.Knit rule) (hframes : T.frames = S.frames)
    (hclasses : T.classes = S.classes)
    (hkept : ∀ (f : FunctionId) (c : Closure), S.functions[f]? = some c → T.functions[f]? = some c)
    (hobject : ∀ o k, S.objectClass? o = some k → T.objectClass? o = some k)
    (hfunction : S.Keeps T → ∀ (f : FunctionId) (c : Closure), T.functions[f]? = some c →
      S.functions[f]? = some c ∨ T.Ready rule c) : T.Knit rule ∧ S.Keeps T := by
  have hkeeps : S.Keeps T := by
    refine .of_frames hS.older (fun f frame hf => ⟨frame, ?_, .refl frame⟩) hkept
      (fun k info hk => ?_) hobject
    · rw [hframes, hf]
    · rw [hclasses, hk]
  refine ⟨hS.grow hkeeps (fun f frame' hf => .inl ⟨frame', ?_, .refl frame'⟩) (fun k hk => .inl ?_)
    (hfunction hkeeps), hkeeps⟩
  · rwa [← hframes]
  · rwa [← hclasses]

theorem Knit.addFunction (hS : S.Knit rule) (hc : S.Ready rule c) :
    (S.addFunction c).2.Knit rule ∧ S.Keeps (S.addFunction c).2 := by
  refine hS.of_same rfl rfl (fun f d hd => ?_) (fun _ _ h => h) fun hkeeps f d hd => ?_
  · have hlt := (Array.getElem?_eq_some_iff.mp hd).1
    simp only [Store.addFunction, Array.getElem?_push, if_neg (Nat.ne_of_lt hlt)]
    exact hd
  · simp only [Store.addFunction, Array.getElem?_push] at hd
    split at hd
    · cases hd
      exact .inr (hkeeps.ready hc)
    · exact .inl hd

theorem Knit.setField (hS : S.Knit rule) (o : ObjectId) (x : Symbol) (v : Value) :
    (S.setField o x v).Knit rule ∧ S.Keeps (S.setField o x v) := by
  refine hS.of_same rfl rfl (fun _ _ h => h) (fun o' k ho => ?_) fun _ _ _ h => .inl h
  obtain ⟨object, hobject, rfl⟩ := Option.map_eq_some_iff.mp ho
  rw [objectClass?, Store.setField, Array.getElem?_modify]
  split
  · rw [hobject]
    rfl
  · rw [hobject]
    rfl

theorem Knit.addObject (hS : S.Knit rule) (object : Object) :
    (S.addObject object).2.Knit rule ∧ S.Keeps (S.addObject object).2 := by
  refine hS.of_same rfl rfl (fun _ _ h => h) (fun o k ho => ?_) fun _ _ _ h => .inl h
  obtain ⟨old, hold, rfl⟩ := Option.map_eq_some_iff.mp ho
  have hlt := (Array.getElem?_eq_some_iff.mp hold).1
  rw [objectClass?, Store.addObject, Array.getElem?_push, if_neg (Nat.ne_of_lt hlt), hold]
  rfl

/-! ## Classes -/

theorem superclass?_addClass (S : Store) (info : ClassInfo) :
    (S.addClass info).2.superclass? S.classes.size = info.superclass := by
  simp [Store.superclass?, addClass]

theorem get?_of_declares_addClass (h : (S.addClass info).2.Declares S.classes.size c) :
    ∃ x, info.methods.get? x = some c := by
  obtain ⟨info', x, hinfo, hx⟩ := h
  simp only [addClass, Array.getElem?_push_size] at hinfo
  cases hinfo
  exact ⟨x, hx⟩

theorem TableOf.marked (h : TableOf methods g info.methods) (S : Store) :
    (S.addClass info).2.Marked S.classes.size := by
  intro info' x c hinfo hx
  simp only [addClass, Array.getElem?_push_size] at hinfo
  cases hinfo
  exact (h x c hx).2.2.2

theorem class_addClass (S : Store) (info : ClassInfo) (h : S.classes[k]? = some old) :
    (S.addClass info).2.classes[k]? = some old := by
  have hlt := (Array.getElem?_eq_some_iff.mp h).1
  simp only [addClass, Array.getElem?_push, if_neg (Nat.ne_of_lt hlt)]
  exact h

/-- A class is new or was there. -/
theorem lt_or_eq_of_addClass (h : k < (S.addClass info).2.classes.size) :
    k < S.classes.size ∨ k = S.classes.size := by
  rw [addClass, Array.size_push] at h
  exact Nat.lt_succ_iff_lt_or_eq.mp h

/-- The methods in a table see one frame, in which all their code may run. -/
theorem TableOf.codeOf (h : TableOf methods g table) (hc : table.get? x = some c)
    (hallows : (Code.stmt (.classDecl name sup methods)).Everywhere rule.Allows)
    (hrootless : rule.tidy → S.lookup? g .super ≠ none →
        ∀ decl ∈ methods, ∀ s ∈ decl.body, (Code.stmt s).Rootless) :
    S.CodeOf rule c := by
  obtain ⟨hdecl, hscope, -⟩ := h x c hc
  refine ⟨fun s hs => ⟨hallows.body hdecl hs, fun htidy hsuper => ?_⟩, fun y hy => ?_⟩
  · exact hrootless htidy (hscope ▸ hsuper) c.decl hdecl s hs
  · apply rule.ident hallows.self
    apply List.mem_cons_of_mem
    apply List.mem_append_right
    exact List.mem_flatMap_of_mem hdecl (List.mem_cons_of_mem _ hy)

/-- A class without a superclass is declared where `super` is not seen, if all code is tidy. -/
theorem Runs.super_eq_none (h : S.Runs rule f (.stmt (.classDecl x none methods)))
    (htidy : rule.tidy) :
    S.lookup? f .super = none := by
  apply Classical.byContradiction
  intro hsuper
  cases (h.rootless htidy hsuper).self

theorem Knit.newRoot (hS : S.Knit rule) (hf : S.Lexical f)
    (hrun : S.Runs rule f (.stmt (.classDecl x none methods))) (hsup : info.superclass = none)
    (htable : TableOf methods f info.methods) :
    (S.addClass info).2.Knit rule ∧ S.Keeps (S.addClass info).2 := by
  have hkeeps : S.Keeps (S.addClass info).2 :=
    .of_frames hS.older (fun f frame hf => ⟨frame, hf, .refl frame⟩) (fun _ _ h => h)
      (fun _ _ h => S.class_addClass info h) fun _ _ h => h
  have hroot : (S.addClass info).2.superclass? S.classes.size = none :=
    (S.superclass?_addClass info).trans hsup
  have hscope : ∀ {c}, (S.addClass info).2.Declares S.classes.size c → c.scope = f := by
    intro c hc
    obtain ⟨y, hy⟩ := get?_of_declares_addClass hc
    exact (htable y c hy).2.1
  have hnew : (S.addClass info).2.NewClass rule S.classes.size := by
    refine ⟨fun l hl => ?_, fun c hc => ⟨?_, fun l hl => ?_, fun _ => ?_⟩, htable.marked S⟩
    · cases hroot.symm.trans hl
    · obtain ⟨y, hy⟩ := get?_of_declares_addClass hc
      refine htable.codeOf hy hrun.allows fun htidy hsuper => ?_
      rw [hkeeps.sees f .super hf.lt fun hx => hx.2 rfl] at hsuper
      exact absurd (hrun.super_eq_none htidy) hsuper
    · cases hroot.symm.trans hl
    · rw [hscope hc]
      refine ⟨hkeeps.lexical hf, fun htidy => ?_⟩
      rw [hkeeps.sees f .super hf.lt fun hx => hx.2 rfl]
      exact hrun.super_eq_none htidy
  refine ⟨hS.grow hkeeps (fun g frame hg => .inl ⟨frame, hg, .refl frame⟩) (fun l hl => ?_)
    fun _ _ h => .inl h, hkeeps⟩
  rcases lt_or_eq_of_addClass hl with hl | rfl
  · exact .inl hl
  · exact .inr hnew

/-- The frame that binds `super` and the class are made in one step: before there is the class,
nothing tells what the frame is for. -/
theorem Knit.newSubclass (hS : S.Knit rule) (hf : S.Lexical f)
    (hrun : S.Runs rule f (.stmt (.classDecl x (some y) methods))) (hj : j < S.classes.size)
    (hsup : info.superclass = some j) (htable : TableOf methods S.frames.size info.methods)
    (hT : T = ((S.extend f [(.super, .class_ j)]).2.addClass info).2) :
    T.Knit rule ∧ S.Keeps T := by
  have hframes : ∀ g < S.frames.size, T.frames[g]? = S.frames[g]? := by
    intro g hg
    rw [hT]
    exact frame_extend_of_lt S hg f _
  have hframe : T.frames[S.frames.size]? = some (Frame.super f j) := by
    rw [hT]
    exact frame_extend_new S f _
  have hsize : T.frames.size = S.frames.size + 1 := by
    rw [hT]
    exact size_extend S f _
  have hkeeps : S.Keeps T := by
    refine .of_frames hS.older (fun g frame hg => ⟨frame, ?_, .refl frame⟩) (fun _ _ h => hT ▸ h)
      (fun _ _ h => hT ▸ class_addClass _ info h) fun _ _ h => hT ▸ h
    rw [hframes g (Array.getElem?_eq_some_iff.mp hg).1, hg]
  have hsub : T.superclass? S.classes.size = some j := by
    rw [hT]
    exact (superclass?_addClass _ info).trans hsup
  have hmethod : ∀ {c}, T.Declares S.classes.size c → ∃ z, info.methods.get? z = some c := by
    intro c hc
    rw [hT] at hc
    exact get?_of_declares_addClass hc
  have hscope : ∀ {c}, T.Declares S.classes.size c → c.scope = S.frames.size := by
    intro c hc
    obtain ⟨z, hz⟩ := hmethod hc
    exact (htable z c hz).2.1
  have hclass : ∀ l < T.classes.size, l < S.classes.size ∨ l = S.classes.size := by
    intro l hl
    rw [hT] at hl
    exact lt_or_eq_of_addClass hl
  have hnew : T.NewClass rule S.classes.size := by
    refine ⟨fun l hl => ?_, fun c hc => ⟨?_, fun l hl => ⟨f, ?_⟩, fun hroot => ?_⟩,
      hT ▸ htable.marked _⟩
    · cases hsub.symm.trans hl
      exact hj
    · obtain ⟨z, hz⟩ := hmethod hc
      exact htable.codeOf hz hrun.allows fun htidy _ decl hdecl s hs =>
        rule.rootless htidy hrun.allows.self hdecl hs
    · cases hsub.symm.trans hl
      rw [hscope hc]
      exact hframe
    · cases hsub.symm.trans hroot
  refine ⟨hS.grow hkeeps (fun g frame hg => ?_) (fun l hl => ?_) fun g d hd => .inl ?_, hkeeps⟩
  · by_cases hlt : g < S.frames.size
    · rw [hframes g hlt] at hg
      exact .inl ⟨frame, hg, .refl frame⟩
    · have hlt' := (Array.getElem?_eq_some_iff.mp hg).1
      rw [hsize] at hlt'
      obtain rfl : g = S.frames.size :=
        Nat.le_antisymm (Nat.le_of_lt_succ hlt') (Nat.le_of_not_lt hlt)
      cases hframe.symm.trans hg
      refine .inr ⟨fun p hp => ?_, .class_ hsub (fun c hc => hscope hc) (hkeeps.lexical hf)⟩
      cases hp
      exact hf.lt
  · rcases hclass l hl with hl | rfl
    · exact .inl hl
    · exact .inr hnew
  · rw [hT] at hd
    exact hd

/-! ## Receivers -/

theorem get?_ofList_one (x y : Symbol) (v : Value) :
    (Bindings.ofList [(x, v)]).get? y = if y = x then some v else none := by
  change (Bindings.empty.insert x v).get? y = _
  rw [Bindings.get?_insert, Bindings.get?_empty]

theorem lookup?_receiver (hS : S.ParentsOlder) (hf : S.frames[f]? = some (Frame.receiver g o))
    (x : Symbol) :
    S.lookup? f x = if x = .this then some (.object o) else S.lookup? g x := by
  rw [lookup?_eq hf (hS f _ hf), Frame.receiver, get?_ofList_one]
  split <;> rfl

theorem lookup?_super (hS : S.ParentsOlder) (hf : S.frames[f]? = some (Frame.super g k)) :
    S.lookup? f .super = some (.class_ k) := by
  rw [lookup?_eq hf (hS f _ hf), Frame.super, get?_ofList_one]
  rfl

/-- Through a frame of code `this` and `super` are seen as from the frame around it. -/
theorem lookup?_ordinary (hS : S.ParentsOlder) (hf : S.frames[f]? = some frame)
    (hord : frame.Ordinary) (hx : ¬ x.Plain) :
    S.lookup? f x = frame.parent.bind fun p => S.lookup? p x := by
  rw [lookup?_eq hf (hS f _ hf), Frame.ordinary_iff.mp hord x hx]
  rfl

/-- A method is bound to an object of a class that has it. -/
theorem Knit.bindMethod (hS : S.Knit rule) (hc : S.Declares k c) (ho : S.objectClass? o = some j)
    (htidy : rule.tidy → k ∈ S.classChain j) :
    (S.bindMethod c (.object o)).2.Knit rule ∧ S.Keeps (S.bindMethod c (.object o)).2 ∧
      (S.bindMethod c (.object o)).2.Ready rule (S.bindMethod c (.object o)).1 := by
  have hmethod := hS.method k c hc
  obtain ⟨hT, hkeeps⟩ := hS.extend hmethod.scope_lt fun hkeeps =>
    .method (hkeeps.declares hc) (hkeeps.object o j ho) fun ht => hkeeps.mem_classChain (htidy ht)
  have hframe : (S.bindMethod c (.object o)).2.frames[S.frames.size]? =
      some (.receiver c.scope o) :=
    frame_extend_new S c.scope _
  have hcode := hkeeps.codeOf hmethod.scope_lt hmethod.code
  refine ⟨hT, hkeeps, ⟨fun s hs => ⟨(hcode.body s hs).allows, fun ht hsuper => ?_⟩, hcode.params⟩,
    ⟨_, hframe, rfl⟩, fun _ => ⟨c.scope, o, hframe⟩⟩
  -- From the new frame `super` is seen as the method sees it.
  have hsees := (lookup?_receiver hT.older hframe .super).trans (if_neg (by decide))
  exact (hcode.body s hs).rootless ht fun hnone => hsuper (hsees.trans hnone)

/-- Where `super` is seen it is a class, and there is a receiver. If all code is tidy, then it is an
object of the class whose superclass this is, or of one below it. -/
theorem Knit.exists_receiver (hS : S.Knit rule) (hf : S.Lexical f)
    (hsuper : S.lookup? f .super = some v) :
    ∃ k l o j, v = .class_ l ∧ S.superclass? k = some l ∧ S.lookup? f .this = some (.object o) ∧
      S.objectClass? o = some j ∧ (rule.tidy → k ∈ S.classChain j) := by
  induction f using Nat.strongRecOn with
  | ind f ih =>
    obtain ⟨frame, hframe, hnone⟩ := hf
    cases hS.made f frame hframe with
    | code hord hparent =>
      rw [lookup?_ordinary hS.older hframe hord fun hx => hx.2 rfl] at hsuper
      rw [lookup?_ordinary hS.older hframe hord fun hx => hx.1 rfl]
      obtain ⟨p, hp, hsuper⟩ := Option.bind_eq_some_iff.mp hsuper
      rw [hp]
      exact ih p (hS.older f frame hframe p hp) (hparent p hp) hsuper
    | @method k c o j hc ho htidy =>
      have hmethod := hS.method k c hc
      have hthis := lookup?_receiver hS.older hframe .this
      rw [lookup?_receiver hS.older hframe, if_neg (by decide)] at hsuper
      cases hk : S.superclass? k with
      | some l =>
        obtain ⟨g, hg⟩ := hmethod.subclass l hk
        rw [lookup?_super hS.older hg] at hsuper
        cases hsuper
        exact ⟨k, l, o, j, rfl, hk, hthis, ho, htidy⟩
      | none =>
        -- The class sees `super` from outside, which it does not if all code is tidy.
        obtain ⟨hlexical, hunseen⟩ := hmethod.root hk
        obtain ⟨k', l, -, -, hv, hl, -⟩ := ih c.scope (hS.older f _ hframe _ rfl) hlexical hsuper
        refine ⟨k', l, o, j, hv, hl, hthis, ho, fun ht => ?_⟩
        cases (hunseen ht).symm.trans hsuper
    | class_ => cases hnone

end Store

end TreeWalk
