import TreeWalk.Proofs.Eval.Knit

/-!
# Code and values in the store

The only code that runs is that of the program and that of the functions and methods in the store,
and these got it from code that ran before. So what holds of all code that a program starts with
holds of all code that comes to run and of all code that is left in the store (`Regime.written`).
The same goes for the number of elements of tuples, which are only made by code.
-/

namespace TreeWalk

namespace Value

/-- The elements of a tuple or a vector. -/
def items : Value → List Value
  | .tuple vs | .vector vs => vs
  | _ => []

/-- The first value stands in the second, at any depth of tuples and vectors. -/
inductive Inside (w : Value) : Value → Prop
  | refl : Inside w w
  | tuple : v ∈ vs → Inside w v → Inside w (.tuple vs)
  | vector : v ∈ vs → Inside w v → Inside w (.vector vs)

/-- All tuples in the value have at least `n` elements. -/
def Wide (n : Nat) (v : Value) : Prop :=
  ∀ vs, (tuple vs).Inside v → n ≤ vs.length

theorem Wide.mono {v : Value} (h : v.Wide n) (hn : k ≤ n) : v.Wide k :=
  fun vs hvs => Nat.le_trans hn (h vs hvs)

/-- A tuple is wide if it is long enough itself and all of its elements are wide. -/
theorem wide_tuple : (tuple vs).Wide n ↔ n ≤ vs.length ∧ ∀ v ∈ vs, v.Wide n := by
  constructor
  · exact fun h => ⟨h vs .refl, fun v hv ws hws => h ws (.tuple hv hws)⟩
  · intro ⟨hn, h⟩ ws hws
    cases hws with
    | refl => exact hn
    | tuple hv hin => exact h _ hv ws hin

theorem wide_vector : (vector vs).Wide n ↔ ∀ v ∈ vs, v.Wide n := by
  constructor
  · exact fun h v hv ws hws => h ws (.vector hv hws)
  · intro h ws hws
    cases hws with
    | vector hv hin => exact h _ hv ws hin

/-- Values without elements have no tuples in them. -/
theorem wide_plain {v : Value} (h : v.isPlain) : v.Wide n := by
  intro ws hws
  cases hws <;> cases h

theorem wide_function : (function f).Wide n := by
  intro ws hws
  cases hws

theorem wide_class : (class_ k).Wide n := by
  intro ws hws
  cases hws

theorem wide_object : (object o).Wide n := by
  intro ws hws
  cases hws

end Value

/-- What holds of the code that runs, and how many elements its tuples have at least. -/
structure CodeForm where
  Allows : Code → Prop
  width : Nat
  tuple {es span} : Allows (.expr (.tuple es span)) → width ≤ es.length

/-- All code of the function has the form. -/
def CodeForm.Covers (form : CodeForm) (decl : FunctionDecl) : Prop :=
  ∀ s ∈ decl.body, (Code.stmt s).Everywhere form.Allows

namespace Store

/-- A name is bound to the value, or a field holds it. -/
inductive Stores (S : Store) : Value → Prop
  | binding : (S.bindingsOf f).get? x = some v → Stores S v
  | field : S.field? o x = some v → Stores S v

/-- A function was made from the declaration, or it declares a method of a class. -/
inductive HasCode (S : Store) : FunctionDecl → Prop
  | function {f : FunctionId} {c : Closure} : S.functions[f]? = some c → HasCode S c.decl
  | method {k : ClassId} {c : Closure} : S.Declares k c → HasCode S c.decl

/-- All code in the store has the form, and all values in it come from such code. -/
structure Written (form : CodeForm) (S : Store) : Prop where
  values : ∀ v, S.Stores v → v.Wide form.width
  code : ∀ decl, S.HasCode decl → form.Covers decl

variable {form : CodeForm} {S T : Store}

/-! ## What one access stores -/

/-- Binding a variable stores no value but that one. -/
theorem stores_define (S : Store) (h : (S.define f x v).Stores w) : S.Stores w ∨ w = v := by
  cases h with
  | @binding g y _ hy =>
    by_cases hfg : f = g
    · subst hfg
      by_cases hf : f < S.frames.size
      · rw [bindingsOf_define_self S hf, Bindings.get?_insert] at hy
        split at hy
        · cases hy; exact .inr rfl
        · exact .inl (.binding hy)
      · simp [bindingsOf, frame_define, Array.getElem?_eq_none (Nat.le_of_not_lt hf)] at hy
    · rw [bindingsOf_define_of_ne S hfg] at hy
      exact .inl (.binding hy)
  | field ho => exact .inl (.field ho)

/-- A new frame stores the values it is made of. -/
theorem stores_extend (S : Store) (h : (S.extend f pairs).2.Stores w) :
    S.Stores w ∨ ∃ p ∈ pairs, p.2 = w := by
  cases h with
  | @binding g y _ hy =>
    by_cases hg : g = S.frames.size
    · rw [hg, bindingsOf_eq (frame_extend_new S f pairs)] at hy
      exact .inr ⟨_, Bindings.mem_of_get?_ofList hy, rfl⟩
    · have hsame : (S.extend f pairs).2.bindingsOf g = S.bindingsOf g := by
        simp [bindingsOf, extend, addFrame, Array.getElem?_push, hg]
      exact .inl (.binding (hsame ▸ hy))
  | field ho => exact .inl (.field ho)

theorem stores_setField (S : Store) (h : (S.setField o x v).Stores w) : S.Stores w ∨ w = v := by
  cases h with
  | binding hy => exact .inl (.binding hy)
  | @field o' y _ ho' =>
    simp only [field?, setField, Array.getElem?_modify] at ho'
    split at ho'
    · obtain ⟨object', hobject', hy⟩ := Option.bind_eq_some_iff.mp ho'
      obtain ⟨object, hobject, rfl⟩ := Option.map_eq_some_iff.mp hobject'
      rw [Bindings.get?_insert] at hy
      split at hy
      · cases hy; exact .inr rfl
      · exact .inl (.field (Option.bind_eq_some_iff.mpr ⟨object, hobject, hy⟩))
    · exact .inl (.field ho')

/-- A new object has no fields. -/
theorem stores_addObject (S : Store) (h : (S.addObject { cls := k }).2.Stores w) : S.Stores w := by
  cases h with
  | binding hy => exact .binding hy
  | @field o y _ ho =>
    simp only [field?, addObject, Array.getElem?_push] at ho
    split at ho
    · cases ho
    · exact .field ho

/-- An access that changes no functions and no classes changes no code. -/
theorem HasCode.of_same (h : T.HasCode decl) (hfunctions : T.functions = S.functions)
    (hclasses : T.classes = S.classes) :
    S.HasCode decl := by
  cases h with
  | function hc => exact .function (hfunctions ▸ hc)
  | method hc =>
    obtain ⟨info, x, hinfo, hx⟩ := hc
    exact .method ⟨info, x, hclasses ▸ hinfo, hx⟩

/-- The code of a new function is the only new code. -/
theorem hasCode_addFunction (S : Store) (h : (S.addFunction c).2.HasCode decl) :
    S.HasCode decl ∨ decl = c.decl := by
  cases h with
  | @function f d hd =>
    simp only [addFunction, Array.getElem?_push] at hd
    split at hd
    · cases hd; exact .inr rfl
    · exact .inl (.function hd)
  | method hc => exact .inl (.method hc)

/-- The code of a new class is that of its methods. -/
theorem hasCode_addClass (S : Store) (h : (S.addClass info).2.HasCode decl) :
    S.HasCode decl ∨ ∃ x c, info.methods.get? x = some c ∧ decl = c.decl := by
  cases h with
  | function hc => exact .inl (.function hc)
  | @method k c hc =>
    obtain ⟨info', x, hinfo', hx⟩ := hc
    simp only [addClass, Array.getElem?_push] at hinfo'
    split at hinfo'
    · cases hinfo'; exact .inr ⟨x, c, hx, rfl⟩
    · exact .inl (.method ⟨info', x, hinfo', hx⟩)

/-- A variable has its value from some frame of the store. -/
theorem stores_of_lookup? (h : S.lookup? f x = some v) : S.Stores v := by
  obtain ⟨g, -, hx⟩ := Option.bind_eq_some_iff.mp h
  exact .binding hx

/-! ## What one access keeps -/

namespace Written

/-- Wide values may be stored. -/
theorem define (h : S.Written form) (hv : v.Wide form.width) : (S.define f x v).Written form := by
  refine ⟨fun w hw => ?_, fun decl hdecl => h.code decl (hdecl.of_same rfl rfl)⟩
  rcases stores_define S hw with hw | rfl
  · exact h.values w hw
  · exact hv

theorem extend (h : S.Written form) (hpairs : ∀ p ∈ pairs, p.2.Wide form.width) :
    (S.extend f pairs).2.Written form := by
  refine ⟨fun w hw => ?_, fun decl hdecl => h.code decl (hdecl.of_same rfl rfl)⟩
  rcases stores_extend S hw with hw | ⟨p, hp, rfl⟩
  · exact h.values w hw
  · exact hpairs p hp

theorem setField (h : S.Written form) (hv : v.Wide form.width) :
    (S.setField o x v).Written form := by
  refine ⟨fun w hw => ?_, fun decl hdecl => h.code decl (hdecl.of_same rfl rfl)⟩
  rcases stores_setField S hw with hw | rfl
  · exact h.values w hw
  · exact hv

theorem addObject (h : S.Written form) : (S.addObject { cls := k }).2.Written form :=
  ⟨fun w hw => h.values w (stores_addObject S hw), fun decl hdecl =>
    h.code decl (hdecl.of_same rfl rfl)⟩

/-- Code of the right form may be stored. -/
theorem addFunction (h : S.Written form) (hc : form.Covers c.decl) :
    (S.addFunction c).2.Written form := by
  refine ⟨fun w hw => ?_, fun decl hdecl => ?_⟩
  · cases hw with
    | binding hx => exact h.values w (.binding hx)
    | field hx => exact h.values w (.field hx)
  · rcases hasCode_addFunction S hdecl with hdecl | rfl
    · exact h.code decl hdecl
    · exact hc

theorem addClass (h : S.Written form)
    (hmethods : ∀ x c, info.methods.get? x = some c → form.Covers c.decl) :
    (S.addClass info).2.Written form := by
  refine ⟨fun w hw => ?_, fun decl hdecl => ?_⟩
  · cases hw with
    | binding hx => exact h.values w (.binding hx)
    | field hx => exact h.values w (.field hx)
  · rcases hasCode_addClass S hdecl with hdecl | ⟨x, c, hx, rfl⟩
    · exact h.code decl hdecl
    · exact hmethods x c hx

/-- The frame around the methods of a class holds at most the superclass. -/
theorem methodScope (h : S.Written form) (f : FrameId) (k : Option ClassId) :
    (S.methodScope f k).2.Written form := by
  cases k with
  | none => exact h
  | some j =>
    refine h.extend fun p hp => ?_
    rw [List.mem_singleton.mp hp]
    exact Value.wide_class

/-- Binding a method makes a function of code that was there. -/
theorem bindMethod (h : S.Written form) (hc : S.findMethod? k x = some c) (hr : r.Wide form.width) :
    (S.bindMethod c r).2.Written form ∧ form.Covers (S.bindMethod c r).1.decl := by
  obtain ⟨d, -, hdeclares⟩ := exists_declares hc
  refine ⟨h.extend fun p hp => ?_, h.code c.decl (.method hdeclares)⟩
  rw [List.mem_singleton.mp hp]
  exact hr

end Written

end Store

/-- The regime of code of the form. It asks nothing of the frames. -/
def Regime.written (form : CodeForm) : Regime where
  Good S := S.Written form
  Grows _ _ := True
  Holds _ v := v.Wide form.width
  Scope _ _ := True
  Own _ _ := True
  Runs _ _ a := a.Everywhere form.Allows
  Callable _ c := form.Covers c.decl
  Binds _ := True
  Site _ := True
  Leaves _ := True
  Fault _ _ := True
  grows_refl := trivial
  grows_trans _ _ := trivial
  holds_mono _ h := h
  scope_mono _ h := h
  own_mono _ h := h
  runs_mono _ _ h := h
  callable_mono _ h := h
  scope_of_own h := h
  holds_plain := Value.wide_plain
  holds_tuple h hlength hvs := Value.wide_tuple.mpr ⟨hlength ▸ form.tuple h.self, hvs⟩
  holds_element h hv := (Value.wide_tuple.mp h).2 _ hv
  holds_vector := Value.wide_vector
  runs_inner h hb := h.inner hb
  runs_ident _ _ := trivial
  runs_pattern _ _ _ _ _ _ := trivial
  runs_call _ := trivial
  runs_ret _ := trivial
  blame _ _ _ _ := trivial
  blame_arity _ := trivial
  blame_callee _ := trivial
  blame_ret _ := trivial
  lookup hS _ hx := hS.values _ (Store.stores_of_lookup? hx)
  assign hS _ _ _ hv := ⟨hS.define hv, trivial⟩
  define hS _ _ hv := ⟨hS.define hv, trivial⟩
  extend hS _ hpairs := ⟨hS.extend fun p hp => (hpairs p hp).2, trivial, trivial, fun _ ha => ha⟩
  callable hc := ⟨trivial, fun _ _ => trivial, hc⟩
  function hS _ hc := hS.code _ (.function hc)
  functionHere _ _ _ hrun := fun _ hs => hrun.body List.mem_cons_self hs
  addFunction hS hc := ⟨hS.addFunction hc, trivial, Value.wide_function⟩
  newClass {S f x sup methods k info} hS _ hrun _ _ _ htable := by
    refine ⟨(hS.methodScope f k).addClass fun y c hc => ?_, trivial, Value.wide_class⟩
    exact fun s hs => hrun.body (htable y c hc).1 hs
  bindMethod hS ho _ hc := by
    obtain ⟨hgood, hcovers⟩ := hS.bindMethod hc ho
    exact ⟨hgood, trivial, hcovers⟩
  bindSuper hS _ _ _ hthis hc := by
    obtain ⟨hgood, hcovers⟩ := hS.bindMethod hc (hS.values _ (Store.stores_of_lookup? hthis))
    exact ⟨hgood, trivial, hcovers⟩
  field hS _ hx := hS.values _ (.field hx)
  setField hS _ hv := ⟨hS.setField hv, trivial⟩
  addObject hS _ := ⟨hS.addObject, trivial, Value.wide_object⟩

end TreeWalk
