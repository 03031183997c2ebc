import TreeWalk.Proofs.Eval.Scope

/-!
# What a program can reach

A place of the store refers to others: a frame to the frame around it and to what its names are
bound to, a function to its frame, a class to its methods and its superclass, an object to its class
and what its fields hold. What an evaluation cannot reach from the current frame it neither changes
nor gives out; for a call the roots are the callee and the arguments alone.
-/

namespace TreeWalk

/-- A place in the store. -/
inductive Place where
  | frame (id : FrameId)
  | function (id : FunctionId)
  | class_ (id : ClassId)
  | object (id : ObjectId)
deriving DecidableEq

/-- The value holds the place, at any depth of tuples and vectors. -/
inductive Value.Mentions : Value → Place → Prop
  | function : Mentions (.function f) (.function f)
  | class_ : Mentions (.class_ k) (.class_ k)
  | object : Mentions (.object o) (.object o)
  | tuple : v ∈ vs → Mentions v p → Mentions (.tuple vs) p
  | vector : v ∈ vs → Mentions v p → Mentions (.vector vs) p

namespace Store

/-- There is something at the place. -/
def Has (S : Store) : Place → Prop
  | .frame f => f < S.frames.size
  | .function f => f < S.functions.size
  | .class_ k => k < S.classes.size
  | .object o => o < S.objects.size

/-- What is at the first place refers to the second. -/
inductive Refers (S : Store) : Place → Place → Prop
  | parent : S.parentOf? f = some g → Refers S (.frame f) (.frame g)
  | binding : (S.bindingsOf f).get? x = some v → v.Mentions p → Refers S (.frame f) p
  | closure : S.functions[f]? = some c → Refers S (.function f) (.frame c.scope)
  | method : S.classes[k]? = some info → info.methods.get? x = some c →
      Refers S (.class_ k) (.frame c.scope)
  | superclass :
      S.classes[k]? = some info → info.superclass = some l → Refers S (.class_ k) (.class_ l)
  | objectClass : S.objectClass? o = some k → Refers S (.object o) (.class_ k)
  | field : S.field? o x = some v → v.Mentions p → Refers S (.object o) p

/-- The place is found by following references from one of the roots. -/
def Reaches (S : Store) (roots : Place → Prop) (p : Place) : Prop :=
  ∃ r, roots r ∧ Relation.ReflTransGen S.Refers r p

theorem Reaches.root (h : roots p) : Reaches S roots p :=
  ⟨p, h, .refl⟩

theorem Reaches.step (h : Reaches S roots p) (hq : S.Refers p q) : Reaches S roots q :=
  let ⟨r, hr, hp⟩ := h
  ⟨r, hr, hp.tail hq⟩

/-- A set of places that has the roots and is closed under references has everything that is
reached. -/
theorem Reaches.mem {S : Store} {K : Place → Prop} (h : S.Reaches roots p)
    (hroots : ∀ r, roots r → K r) (hK : ∀ p q, K p → S.Refers p q → K q) : K p := by
  obtain ⟨r, hr, hp⟩ := h
  induction hp with
  | refl => exact hroots r hr
  | tail _ hq ih => exact hK _ _ ih hq

theorem Refers.has {S : Store} (h : S.Refers p q) : S.Has p := by
  cases h with
  | parent h =>
    obtain ⟨frame, hf, _⟩ := Option.bind_eq_some_iff.mp h
    exact (Array.getElem?_eq_some_iff.mp hf).1
  | @binding f _ _ _ h _ =>
    cases hf : S.frames[f]? with
    | none => simp [bindingsOf, hf] at h
    | some frame => exact (Array.getElem?_eq_some_iff.mp hf).1
  | closure h => exact (Array.getElem?_eq_some_iff.mp h).1
  | method h _ => exact (Array.getElem?_eq_some_iff.mp h).1
  | superclass h _ => exact (Array.getElem?_eq_some_iff.mp h).1
  | objectClass h =>
    obtain ⟨object, ho, _⟩ := Option.map_eq_some_iff.mp h
    exact (Array.getElem?_eq_some_iff.mp ho).1
  | field h _ =>
    obtain ⟨object, ho, _⟩ := Option.bind_eq_some_iff.mp h
    exact (Array.getElem?_eq_some_iff.mp ho).1

/-! ## Lookups follow references -/

/-- The frames around a frame are in every set of places that is closed under references and has the
frame. -/
theorem mem_chain {S : Store} {K : Place → Prop} (hK : ∀ p q, K p → S.Refers p q → K q)
    (hf : K (.frame f)) (hg : g ∈ S.chain f) : K (.frame g) := by
  fun_induction S.chain f with
  | case1 f hp =>
    cases List.mem_singleton.mp hg
    exact hf
  | case2 f parent hp hlt ih =>
    rcases List.mem_cons.mp hg with rfl | hg
    · exact hf
    · exact ih (hK _ _ hf (.parent hp)) hg
  | case3 f parent hp hlt =>
    cases List.mem_singleton.mp hg
    exact hf

theorem mem_classChain {S : Store} {K : Place → Prop} (hK : ∀ p q, K p → S.Refers p q → K q)
    (hk : K (.class_ k)) (hl : l ∈ S.classChain k) : K (.class_ l) := by
  fun_induction S.classChain k with
  | case1 k hp =>
    cases List.mem_singleton.mp hl
    exact hk
  | case2 k sup hp hlt ih =>
    rcases List.mem_cons.mp hl with rfl | hl
    · exact hk
    · obtain ⟨info, hinfo, hsup⟩ := Option.bind_eq_some_iff.mp hp
      exact ih (hK _ _ hk (.superclass hinfo hsup)) hl
  | case3 k sup hp hlt =>
    cases List.mem_singleton.mp hl
    exact hk

theorem owner_mem {S : Store} {K : Place → Prop} (hK : ∀ p q, K p → S.Refers p q → K q)
    (hf : K (.frame f)) (h : S.owner? f x = some g) : K (.frame g) :=
  mem_chain hK hf (List.mem_of_find?_eq_some h)

/-! ## What one access changes -/

/-- What is at the place is in `T` what it was in `S`. -/
def SameAt (S T : Store) : Place → Prop
  | .frame f => T.frames[f]? = S.frames[f]?
  | .function f => T.functions[f]? = S.functions[f]?
  | .class_ k => T.classes[k]? = S.classes[k]?
  | .object o => T.objects[o]? = S.objects[o]?

theorem SameAt.rfl {S : Store} : S.SameAt S p := by
  cases p <;> exact Eq.refl _

theorem SameAt.trans {S T U : Store} (h : S.SameAt T p) (h' : T.SameAt U p) : S.SameAt U p := by
  cases p <;> exact Eq.trans h' h

theorem SameAt.has {S T : Store} (h : S.SameAt T p) (hp : S.Has p) : T.Has p := by
  have hlt {α : Type} {as bs : Array α} {i : Nat} (h : bs[i]? = as[i]?)
      (hi : i < as.size) : i < bs.size :=
    (Array.getElem?_eq_some_iff.mp (h.trans (Array.getElem?_eq_getElem hi))).1
  cases p <;> exact hlt h hp

theorem SameAt.refers {S T : Store} (h : S.SameAt T p) (hq : T.Refers p q) : S.Refers p q := by
  cases hq with
  | parent hg => exact .parent (by rw [← hg]; exact congrArg (·.bind Frame.parent) h.symm)
  | @binding f x v _ hx hv =>
    have hf : T.bindingsOf f = S.bindingsOf f :=
      congrArg (fun o => (o.map Frame.bindings).getD .empty) h
    exact .binding (hf ▸ hx) hv
  | closure hc => exact .closure (h ▸ hc)
  | method hk hx => exact .method (h ▸ hk) hx
  | superclass hk hl => exact .superclass (h ▸ hk) hl
  | objectClass hk => exact .objectClass (by rw [← hk]; exact congrArg (·.map Object.cls) h.symm)
  | @field o x v _ hx hv =>
    have ho : T.field? o x = S.field? o x := congrArg (·.bind fun object => object.fields.get? x) h
    exact .field (ho ▸ hx) hv

theorem sameAt_define (S : Store) (h : p ≠ .frame f) : S.SameAt (S.define f x v) p := by
  cases p with
  | frame g =>
    have hne : f ≠ g := fun hfg => h (by rw [hfg])
    simp [SameAt, frame_define, hne]
  | _ => exact .refl _

theorem refers_define (S : Store) (h : (S.define f x v).Refers (.frame f) q) :
    S.Refers (.frame f) q ∨ v.Mentions q := by
  cases h with
  | parent h => exact .inl (.parent (by simpa using h))
  | @binding _ y w _ hy hw =>
    by_cases hf : f < S.frames.size
    · rw [bindingsOf_define_self S hf, Bindings.get?_insert] at hy
      split at hy
      · cases hy; exact .inr hw
      · exact .inl (.binding hy hw)
    · simp [bindingsOf, frame_define, Array.getElem?_eq_none (Nat.le_of_not_lt hf)] at hy

theorem sameAt_setField (S : Store) (h : p ≠ .object o) : S.SameAt (S.setField o x v) p := by
  cases p with
  | object o' =>
    have hne : o ≠ o' := fun ho => h (by rw [ho])
    simp [SameAt, setField, Array.getElem?_modify, hne]
  | _ => exact .refl _

theorem refers_setField (S : Store) (h : (S.setField o x v).Refers (.object o) q) :
    S.Refers (.object o) q ∨ v.Mentions q := by
  cases h with
  | objectClass h =>
    refine .inl (.objectClass (Eq.trans ?_ h))
    simp only [objectClass?, setField, Array.getElem?_modify, if_true, Option.map_map]
    rfl
  | @field _ y w _ hy hw =>
    simp only [field?, setField, Array.getElem?_modify, if_true] at hy
    cases ho : S.objects[o]? with
    | none => simp [ho] at hy
    | some object =>
      simp only [ho, Option.map_some, Option.bind_some, Bindings.get?_insert] at hy
      split at hy
      · cases hy; exact .inr hw
      · exact .inl (.field (by simp only [field?, ho, Option.bind_some]; exact hy) hw)

theorem sameAt_extend (S : Store) (h : p ≠ .frame S.frames.size) :
    S.SameAt (S.extend f pairs).2 p := by
  cases p with
  | frame g =>
    have hne : g ≠ S.frames.size := fun hg => h (by rw [hg])
    simp [SameAt, extend, addFrame, Array.getElem?_push, hne]
  | _ => exact .refl _

theorem refers_extend (S : Store) (h : (S.extend f pairs).2.Refers (.frame S.frames.size) q) :
    q = .frame f ∨ ∃ pair ∈ pairs, pair.2.Mentions q := by
  cases h with
  | parent h =>
    rw [parentOf?, frame_extend_new] at h
    cases h
    exact .inl rfl
  | binding hx hv =>
    rw [bindingsOf_eq (frame_extend_new S f pairs)] at hx
    exact .inr ⟨_, Bindings.mem_of_get?_ofList hx, hv⟩

theorem sameAt_addFunction (S : Store) (h : p ≠ .function S.functions.size) :
    S.SameAt (S.addFunction c).2 p := by
  cases p with
  | function f =>
    have hne : f ≠ S.functions.size := fun hf => h (by rw [hf])
    simp [SameAt, addFunction, Array.getElem?_push, hne]
  | _ => exact .refl _

theorem refers_addFunction (S : Store)
    (h : (S.addFunction c).2.Refers (.function S.functions.size) q) :
    q = .frame c.scope := by
  cases h with
  | closure h =>
    simp only [addFunction, Array.getElem?_push_size] at h
    cases h
    rfl

theorem sameAt_addClass (S : Store) (h : p ≠ .class_ S.classes.size) :
    S.SameAt (S.addClass info).2 p := by
  cases p with
  | class_ k =>
    have hne : k ≠ S.classes.size := fun hk => h (by rw [hk])
    simp [SameAt, addClass, Array.getElem?_push, hne]
  | _ => exact .refl _

theorem refers_addClass (S : Store) (h : (S.addClass info).2.Refers (.class_ S.classes.size) q) :
    (∃ x c, info.methods.get? x = some c ∧ q = .frame c.scope) ∨
      ∃ k, info.superclass = some k ∧ q = .class_ k := by
  cases h with
  | method h hx =>
    simp only [addClass, Array.getElem?_push_size] at h
    cases h
    exact .inl ⟨_, _, hx, rfl⟩
  | superclass h hl =>
    simp only [addClass, Array.getElem?_push_size] at h
    cases h
    exact .inr ⟨_, hl, rfl⟩

theorem sameAt_addObject (S : Store) (h : p ≠ .object S.objects.size) :
    S.SameAt (S.addObject object).2 p := by
  cases p with
  | object o =>
    have hne : o ≠ S.objects.size := fun ho => h (by rw [ho])
    simp [SameAt, addObject, Array.getElem?_push, hne]
  | _ => exact .refl _

theorem refers_addObject (S : Store)
    (h : (S.addObject { cls := k }).2.Refers (.object S.objects.size) q) : q = .class_ k := by
  cases h with
  | objectClass h =>
    simp only [objectClass?, addObject, Array.getElem?_push_size] at h
    cases h
    rfl
  | field h _ =>
    simp only [field?, addObject, Array.getElem?_push_size] at h
    cases h

/-! ## Confinement -/

/-- What a program that was started in `S₀` from `roots` may know in `S`: what it could reach then,
and what was made since. -/
def Known (S₀ : Store) (roots : Place → Prop) (S : Store) (p : Place) : Prop :=
  S₀.Reaches roots p ∨ ¬ S₀.Has p ∧ S.Has p

/-- Nothing that is known refers to something that is not. -/
structure Confined (S₀ : Store) (roots : Place → Prop) (S : Store) : Prop where
  has : ∀ p, S₀.Has p → S.Has p
  known : ∀ p q, S₀.Known roots S p → S.Refers p q → S₀.Known roots S q

/-- What was there in `S₀` and is not known to the program stays as it is. -/
structure Spares (S₀ : Store) (roots : Place → Prop) (S T : Store) : Prop where
  has : ∀ p, S.Has p → T.Has p
  same : ∀ p, S₀.Has p → ¬ S₀.Reaches roots p → S.SameAt T p

variable {S₀ S T : Store} {roots : Place → Prop}

theorem Known.mono (h : S₀.Spares roots S T) (hp : S₀.Known roots S p) : S₀.Known roots T p :=
  hp.imp_right fun ⟨hnew, hS⟩ => ⟨hnew, h.has p hS⟩

theorem Known.reached (hp : S₀.Known roots S p) (h₀ : S₀.Has p) : S₀.Reaches roots p :=
  hp.elim id fun hnew => absurd h₀ hnew.1

/-- At the start, what is known is what can be reached. -/
theorem confined_self : S₀.Confined roots S₀ where
  has _ hp := hp
  known _ _ hp hq := hp.elim (fun hp => .inl (hp.step hq)) fun ⟨hnew, hS⟩ => absurd hS hnew

/-- A change at one place, a new or a known one, after which it refers to nothing unknown. -/
theorem Confined.change (h : S₀.Confined roots S) (hp : S₀.Has p → S₀.Reaches roots p)
    (hhas : S.Has p → T.Has p) (hsame : ∀ q, q ≠ p → S.SameAt T q)
    (hrefs : ∀ q, T.Refers p q → S.Refers p q ∨ S₀.Known roots S q) :
    S₀.Confined roots T ∧ S₀.Spares roots S T := by
  have hspares : S₀.Spares roots S T := by
    refine ⟨fun q hq => ?_, fun q hq hreach => hsame q fun heq => ?_⟩
    · by_cases hqp : q = p
      · exact hqp ▸ hhas (hqp ▸ hq)
      · exact (hsame q hqp).has hq
    · exact hreach (heq ▸ hp (heq ▸ hq))
  refine ⟨⟨fun q hq => hspares.has q (h.has q hq), fun q r hq hr => ?_⟩, hspares⟩
  have hold : S.Refers q r ∨ S₀.Known roots S r := by
    by_cases hqp : q = p
    · exact hqp ▸ hrefs r (hqp ▸ hr)
    · exact .inl ((hsame q hqp).refers hr)
  refine Known.mono hspares (hold.elim (fun hqr => ?_) id)
  -- What refers to something in `S` is there, so it was known before the change.
  exact h.known q r (hq.imp_right fun ⟨hnew, _⟩ => ⟨hnew, hqr.has⟩) hqr

/-- A new place that refers to nothing unknown. -/
theorem Confined.new (h : S₀.Confined roots S) (hS : ¬ S.Has p) (hT : T.Has p)
    (hsame : ∀ q, q ≠ p → S.SameAt T q) (hrefs : ∀ q, T.Refers p q → S₀.Known roots S q) :
    S₀.Confined roots T ∧ S₀.Spares roots S T ∧ S₀.Known roots T p := by
  have hp : ¬ S₀.Has p := fun h₀ => hS (h.has p h₀)
  obtain ⟨hconfined, hspares⟩ :=
    h.change (absurd · hp) (absurd · hS) hsame fun q hq => .inr (hrefs q hq)
  exact ⟨hconfined, hspares, .inr ⟨hp, hT⟩⟩

theorem Confined.define (h : S₀.Confined roots S) (hf : S₀.Known roots S (.frame f))
    (hv : ∀ p, v.Mentions p → S₀.Known roots S p) :
    S₀.Confined roots (S.define f x v) ∧ S₀.Spares roots S (S.define f x v) :=
  h.change hf.reached (by simp [Has]) (fun _ => S.sameAt_define) fun q hq =>
    (S.refers_define hq).imp_right (hv q)

end Store

/-- The discipline of a program that was started in `S₀` and knows only what can be reached from
`roots`. -/
def Discipline.confined (S₀ : Store) (roots : Place → Prop) : Discipline where
  Good S := S₀.Confined roots S
  Grows S T := S₀.Spares roots S T
  Holds S v := ∀ p, v.Mentions p → S₀.Known roots S p
  Scope S f := S₀.Known roots S (.frame f)
  Own S f := S₀.Known roots S (.frame f)
  grows_refl := ⟨fun _ h => h, fun _ _ _ => .rfl⟩
  grows_trans h h' :=
    ⟨fun p hp => h'.has p (h.has p hp), fun p hp hr => (h.same p hp hr).trans (h'.same p hp hr)⟩
  holds_mono h hv p hp := (hv p hp).mono h
  scope_mono h hf := hf.mono h
  own_mono h hf := hf.mono h
  scope_of_own h := h
  holds_plain {S v} hv p hp := by cases hp <;> cases hv
  holds_tuple := ⟨fun h _ hv p hp => h p (.tuple hv hp), fun h p hp => by
    cases hp with | tuple hv hp => exact h _ hv p hp⟩
  holds_vector := ⟨fun h _ hv p hp => h p (.vector hv hp), fun h p hp => by
    cases hp with | vector hv hp => exact h _ hv p hp⟩
  lookup {S f x v} hS hf hx p hp := by
    obtain ⟨g, hg, hx⟩ := Option.bind_eq_some_iff.mp hx
    exact hS.known _ p (Store.owner_mem hS.known hf hg) (.binding hx hp)
  assign hS hf hg hv := hS.define (Store.owner_mem hS.known hf hg) hv
  define hS hf hv := hS.define hf hv
  extend {S f pairs} hS hf hpairs := by
    refine hS.new (p := .frame S.frames.size) (by simp [Store.Has]) (by simp [Store.Has])
      (fun _ => S.sameAt_extend) fun q hq => ?_
    rcases S.refers_extend hq with rfl | ⟨pair, hmem, hq⟩
    · exact hf
    · exact hpairs pair hmem q hq
  function hS hf hc := hS.known _ _ (hf _ .function) (.closure hc)
  method {S k x c} hS hk hx := by
    obtain ⟨l, hl, hx⟩ := List.exists_of_findSome?_eq_some hx
    obtain ⟨info, hinfo, hx⟩ := Option.bind_eq_some_iff.mp hx
    exact hS.known _ _ (Store.mem_classChain hS.known (hk _ .class_) hl) (.method hinfo hx)
  objectClass hS ho hk p hp := by
    cases hp
    exact hS.known _ _ (ho _ .object) (.objectClass hk)
  field hS ho hx p hp := hS.known _ p (ho _ .object) (.field hx hp)
  setField {S o x v} hS ho hv :=
    hS.change (ho _ .object).reached (by simp [Store.Has, Store.setField])
      (fun _ => S.sameAt_setField)
      fun q hq => (S.refers_setField hq).imp_right (hv q)
  addFunction {S c} hS hc := by
    obtain ⟨hT, hspares, hp⟩ := hS.new (T := (S.addFunction c).2) (p := .function S.functions.size)
      (by simp [Store.Has]) (by simp [Store.Has, Store.addFunction]) (fun _ => S.sameAt_addFunction)
      fun q hq => S.refers_addFunction hq ▸ hc
    exact ⟨hT, hspares, fun q hq => by cases hq; exact hp⟩
  addClass {S} info hS hsup hmethods := by
    obtain ⟨hT, hspares, hp⟩ := hS.new (T := (S.addClass info).2) (p := .class_ S.classes.size)
      (by simp [Store.Has]) (by simp [Store.Has, Store.addClass]) (fun _ => S.sameAt_addClass)
        fun q hq => by
        rcases S.refers_addClass hq with ⟨x, c, hx, rfl⟩ | ⟨k, hk, rfl⟩
        · exact hmethods x c hx
        · exact hsup k hk _ .class_
    exact ⟨hT, hspares, fun q hq => by cases hq; exact hp⟩
  addObject {S k} hS hk := by
    obtain ⟨hT, hspares, hp⟩ :=
      hS.new (T := (S.addObject { cls := k }).2) (p := .object S.objects.size)
        (by simp [Store.Has]) (by simp [Store.Has, Store.addObject]) (fun _ => S.sameAt_addObject)
        fun q hq => S.refers_addObject hq ▸ hk _ .class_
    exact ⟨hT, hspares, fun q hq => by cases hq; exact hp⟩

/-- The value on the way out of a function. -/
def Flow.value? : Flow → Option Value
  | .normal => none
  | .returned v _ => some v

/-- From `m` to `m'`, everything there was that the roots do not reach is kept as it was, and what
the resulting value reaches was reached from the roots before or has been made since. -/
structure Machine.KeptTo (roots : Place → Prop) (m m' : Machine)
    (result : Option Value) : Prop where
  same : ∀ p, m.store.Has p → ¬ m.store.Reaches roots p → m.store.SameAt m'.store p
  result : ∀ v ∈ result, ∀ p, m'.store.Reaches v.Mentions p →
    m.store.Reaches roots p ∨ ¬ m.store.Has p ∧ m'.store.Has p

namespace Eval

open Discipline

theorem keptTo_of_sound (st : Stance) (result : α → Option Value) {act : Eval α}
    {V : Store → α → Prop} (h : (confined m.store roots).Sound st m.store act V)
    (hst : (confined m.store roots).Stands st m.store m.current)
    (hV : ∀ S a, V S a → ∀ v ∈ result a, (confined m.store roots).Holds S v)
    (hm : (act names m).machine? = some m') :
    m.KeptTo roots m' ((act names m).value?.bind result) := by
  have hends := h names m (confined _ _).grows_refl Store.confined_self hst
  have hfollows := hends.follows hm
  refine ⟨hfollows.grows.same, fun v hv p hp => ?_⟩
  obtain ⟨a, ha, hv⟩ := Option.bind_eq_some_iff.mp hv
  have hholds := hV _ a (hends.value hm ha) v hv
  exact hp.mem hholds hfollows.good.known

/-- The only root is the current frame. -/
theorem known_current (m : Machine) :
    m.store.Known (· = .frame m.current) m.store (.frame m.current) :=
  .inl (.root rfl)

theorem evaluate_keptTo (hm : (evaluate fuel e names m).machine? = some m') :
    m.KeptTo (· = .frame m.current) m' (evaluate fuel e names m).value? := by
  have h := keptTo_of_sound .reading some ((confined _ _).evaluate fuel e m.store)
    (known_current m) (fun S a ha v hv => by cases hv; exact ha) hm
  simpa using h

theorem execute_keptTo (hm : (execute fuel s names m).machine? = some m') :
    m.KeptTo (· = .frame m.current) m' ((execute fuel s names m).value?.bind Flow.value?) := by
  refine keptTo_of_sound .declaring Flow.value? ((confined _ _).execute fuel s m.store)
    (known_current m) ?_ hm
  intro S flow hflow v hv
  cases flow with
  | normal => cases hv
  | returned w span => cases hv; exact hflow

theorem call_keptTo (hm : (call fuel callee args span names m).machine? = some m') :
    m.KeptTo (fun p => callee.Mentions p ∨ ∃ v ∈ args, v.Mentions p) m'
      (call fuel callee args span names m).value? := by
  have h := keptTo_of_sound .anywhere some
    ((confined m.store fun p => callee.Mentions p ∨ ∃ v ∈ args, v.Mentions p).call fuel
      (fun p hp => .inl (.root (.inl hp))) fun v hv p hp => .inl (.root (.inr ⟨v, hv, hp⟩)))
    trivial (fun S a ha v hv => by cases hv; exact ha) hm
  simpa using h

end Eval

/-- What a program cannot reach it neither changes nor gives out. An evaluation and an execution
reach out from the current frame; a call reaches out from the callee and the arguments, and not from
the frame it is made in. This holds in every state, and however the computation ends. -/
theorem unreachable_state_is_private :
    (∀ fuel e names m m', (Eval.evaluate fuel e names m).machine? = some m' →
      m.KeptTo (· = .frame m.current) m' (Eval.evaluate fuel e names m).value?) ∧
    (∀ fuel s names m m', (Eval.execute fuel s names m).machine? = some m' →
      m.KeptTo (· = .frame m.current) m' ((Eval.execute fuel s names m).value?.bind Flow.value?)) ∧
    (∀ fuel callee args span names m m',
      (Eval.call fuel callee args span names m).machine? = some m' →
      m.KeptTo (fun p => callee.Mentions p ∨ ∃ v ∈ args, v.Mentions p) m'
        (Eval.call fuel callee args span names m).value?) :=
  ⟨fun _ _ _ _ _ => Eval.evaluate_keptTo, fun _ _ _ _ _ => Eval.execute_keptTo,
    fun _ _ _ _ _ _ _ => Eval.call_keptTo⟩

/-- A function that sets a variable `x` of its own, called where another `x` is in scope. -/
def Machine.twoScopes : Machine where
  store := {
    frames := #[{ bindings := .ofList [(⟨24⟩, .nil)] }, { bindings := .ofList [(⟨24⟩, .nil)] }]
    functions := #[{
      name := "set"
      decl :=
        .mk ⟨⟨25⟩, default⟩ [] [.expr (.assign ⟨⟨24⟩, default⟩ (.literal (.bool true) default))]
      scope := 1
      isInitializer := false }] }

/-- The call sets the function's own `x`, and leaves the frame it is made in as it is. -/
theorem call_spares_the_caller :
    ∃ m', (Eval.call 9 (.function 0) [] default .initial .twoScopes).machine? = some m' ∧
      (m'.store.lookup? 1 ⟨24⟩).map Value.isTruthy = some true ∧
      m'.store.frames[0]? = Machine.twoScopes.store.frames[0]? := by
  have hset : (Eval.call 9 (.function 0) [] default .initial .twoScopes).machine?.map
      (fun m' => (m'.store.lookup? 1 ⟨24⟩).map Value.isTruthy) = some (some true) := by
    decide +kernel
  obtain ⟨m', hm, hset⟩ := Option.map_eq_some_iff.mp hset
  refine ⟨m', hm, hset,
    (unreachable_state_is_private.2.2 _ _ _ _ _ _ m' hm).same (.frame 0) Nat.two_pos ?_⟩
  -- The function and the frame it was declared in refer to nothing else.
  intro hreach
  have hmem : (Place.frame 0) = .function 0 ∨ (Place.frame 0) = .frame 1 := by
    refine hreach.mem (K := fun p => p = .function 0 ∨ p = .frame 1) ?_ ?_
    · rintro r (hr | ⟨v, hv, _⟩)
      · cases hr; exact .inl rfl
      · cases hv
    · rintro p q (rfl | rfl) hpq
      · cases hpq with | closure h => cases h; exact .inr rfl
      · cases hpq with
        | parent h => cases h
        | @binding _ x v _ h hv =>
          have hmem : (x, v) ∈ [(⟨24⟩, .nil)] := Bindings.mem_of_get?_ofList h
          cases List.mem_singleton.mp hmem
          cases hv
  simp at hmem

end TreeWalk
