import TreeWalk.Eval.Run
import TreeWalk.Proofs.Eval.LinkedStore

/-!
# Runs that correspond

Two runs with two tables of names, on linked code and linked states, go through linked states and
end alike: with the same values, the same printed text, and errors of the same message at linked
places. So it does not matter which number a name has, where code stands in its source, or how much
fuel is left over: the two runs may start with different fuel, and as long as both have enough of it
they agree.
-/

namespace TreeWalk

/-- Two tables of names for which linked names have the same text, and which of two runs may use up
its fuel alone. -/
structure Lockstep extends Link where
  left : Interner
  right : Interner
  leftShort : Prop
  rightShort : Prop
  text {x y} : sym x y → left.resolve? x = right.resolve? y
  oneToOne : toLink.OneToOne
  this : sym .this .this
  super : sym .super .super
  init : sym .init .init

/-- Linked stores, the same current frame and the same text written. -/
structure Machine.Linked (L : Link) (m m' : Machine) : Prop where
  store : m.store.Linked L m'.store
  current : m.current = m'.current
  output : m.output = m'.output

/-- The same error, but for its place. -/
structure RuntimeError.Linked (L : Link) (e e' : RuntimeError) : Prop where
  code : e.code = e'.code
  message : e.message = e'.message
  suggestion : e.suggestion? = e'.suggestion?
  span : L.span e.span e'.span

/-- Both go on, or both return the same value. -/
inductive Flow.Linked (L : Link) : Flow → Flow → Prop where
  | normal : Linked L .normal .normal
  | returned : L.span a b → Linked L (.returned v a) (.returned v b)

/-- Both end in the same way, or one of them has run out of the fuel that it was short of. -/
inductive Outcome.Linked (K : Lockstep) (V : α → β → Prop) : Outcome α → Outcome β → Prop where
  | ok : V a b → Machine.Linked K.toLink m m' → Linked K V (.ok a m) (.ok b m')
  | fault : RuntimeError.Linked K.toLink e e' → Machine.Linked K.toLink m m' →
      Linked K V (.fault e m) (.fault e' m')
  | exhausted : Linked K V .exhausted .exhausted
  | left : K.leftShort → Linked K V .exhausted o
  | right : K.rightShort → Linked K V o .exhausted

namespace Lockstep

variable {K : Lockstep} {α β γ δ : Type} {V : α → β → Prop} {W : γ → δ → Prop}

/-- If the run on the right cannot be the only one that is short of fuel, it ends where the other
one does. -/
theorem ends_right (h : Outcome.Linked K V o o') (hshort : ¬ K.rightShort) (ho : o ≠ .exhausted) :
    o' ≠ .exhausted := by
  rintro rfl
  cases h with
  | exhausted | left => exact ho rfl
  | right hs => exact hshort hs

theorem ends_left (h : Outcome.Linked K V o o') (hshort : ¬ K.leftShort) (ho : o' ≠ .exhausted) :
    o ≠ .exhausted := by
  rintro rfl
  cases h with
  | exhausted | right => exact ho rfl
  | left hs => exact hshort hs

/-- Linked names are the same text in their tables. -/
theorem nameOf_eq (K : Lockstep) (hx : K.sym x y) : K.left.nameOf x = K.right.nameOf y :=
  congrArg (Option.getD · "<unknown>") (K.text hx)

/-- Started in linked states, the two computations end alike. -/
def Agree (K : Lockstep) (V : α → β → Prop) (act : Eval α) (act' : Eval β) : Prop :=
  ∀ m m', Machine.Linked K.toLink m m' → Outcome.Linked K V (act K.left m) (act' K.right m')

namespace Agree

/-! ## Sequences -/

theorem pure (h : V a b) : K.Agree V (Pure.pure a : Eval α) (Pure.pure b) :=
  fun _ _ hm => .ok h hm

/-- The second parts are compared only where both first parts succeed, with what these gave. -/
theorem bind {act : Eval α} {act' : Eval β} {next : α → Eval γ} {next' : β → Eval δ}
    (h : K.Agree V act act') (hnext : ∀ a b, V a b → K.Agree W (next a) (next' b)) :
    K.Agree W (act >>= next) (act' >>= next') := by
  intro m m' hm
  have ho := h m m' hm
  simp only [Bind.bind]
  generalize act K.left m = o at ho
  generalize act' K.right m' = o' at ho
  cases ho with
  | ok hab hm => exact hnext _ _ hab _ _ hm
  | fault he hm => exact .fault he hm
  | exhausted => exact .exhausted
  | left hs => exact .left hs
  | right hs => exact .right hs

/-- Errors may stand at different places, which have to be linked. -/
theorem raise {V : α → β → Prop} (h : RuntimeError.Linked K.toLink e e') :
    K.Agree V (Eval.raise e : Eval α) (Eval.raise e') :=
  fun _ _ hm => .fault h hm

theorem ofExcept {r : Except RuntimeError α} {r' : Except RuntimeError α}
    (h : (∃ a, r = .ok a ∧ r' = .ok a) ∨ ∃ e e', r = .error e ∧ r' = .error e' ∧
        RuntimeError.Linked K.toLink e e') :
    K.Agree Eq (Eval.ofExcept r) (Eval.ofExcept r') := by
  rcases h with ⟨a, rfl, rfl⟩ | ⟨e, e', rfl, rfl, he⟩
  · exact .pure rfl
  · exact .raise he

theorem nameOf (hx : K.sym x y) : K.Agree Eq (Eval.nameOf x) (Eval.nameOf y) :=
  fun _ _ hm => .ok (K.nameOf_eq hx) hm

/-- Questions to linked stores have answers that go together. -/
theorem query {f : Store → α} {g : Store → β}
    (h : ∀ S S', Store.Linked K.toLink S S' → V (f S) (g S')) :
    K.Agree V (Eval.query f) (Eval.query g) :=
  fun _ _ hm => .ok (h _ _ hm.store) hm

/-- The same, for changes that also leave linked stores. -/
theorem update {f : Store → α × Store} {g : Store → β × Store}
    (h : ∀ S S', Store.Linked K.toLink S S' → V (f S).1 (g S').1 ∧
        (f S).2.Linked K.toLink (g S').2) :
    K.Agree V (Eval.update f) (Eval.update g) := by
  intro m m' hm
  obtain ⟨hv, hstore⟩ := h _ _ hm.store
  exact .ok hv ⟨hstore, hm.current, hm.output⟩

theorem record : K.Agree Eq (Eval.record event) (Eval.record event') :=
  fun _ _ hm => .ok rfl ⟨hm.store, hm.current, hm.output⟩

/-! ## Names and frames -/

theorem unbound {V : α → β → Prop} (hx : Ident.Linked K.toLink x y) :
    K.Agree V (Eval.unbound x : Eval α) (Eval.unbound y) := by
  refine .bind (.nameOf hx.name) ?_
  rintro shown _ rfl
  exact .raise ⟨rfl, rfl, rfl, hx.span⟩

/-- A name is bound in both or in none, and to the same value. -/
theorem lookup (hx : Ident.Linked K.toLink x y) : K.Agree Eq (Eval.lookup x) (Eval.lookup y) := by
  intro m m' hm
  unfold Eval.lookup
  rw [← hm.current, ← hm.store.lookup? K.oneToOne m.current hx.name]
  split
  · exact .ok rfl hm
  · exact unbound hx m m' hm

theorem define (hx : K.sym x y) (v : Value) : K.Agree Eq (Eval.define x v) (Eval.define y v) := by
  intro m m' hm
  unfold Eval.define
  rw [← hm.current]
  exact .ok rfl ⟨hm.store.define K.oneToOne m.current hx v, rfl, hm.output⟩

/-- The frame that is changed is the same, as linked names have the same owner. -/
theorem assign (hx : Ident.Linked K.toLink x y) (v : Value) :
    K.Agree Eq (Eval.assign x v) (Eval.assign y v) := by
  intro m m' hm
  unfold Eval.assign
  rw [← hm.current, ← hm.store.owner? K.oneToOne m.current hx.name]
  split
  · next f _ => exact .ok rfl ⟨hm.store.define K.oneToOne f hx.name v, rfl, hm.output⟩
  · exact unbound hx m m' hm

/-- Both go back to the frame in which they were. -/
theorem inFrame (f : FrameId) {act : Eval α} {act' : Eval β} (h : K.Agree V act act') :
    K.Agree V (Eval.inFrame f act) (Eval.inFrame f act') := by
  intro m m' hm
  have ho := h { m with current := f } { m' with current := f } ⟨hm.store, rfl, hm.output⟩
  unfold Eval.inFrame
  generalize act K.left { m with current := f } = o at ho
  generalize act' K.right { m' with current := f } = o' at ho
  cases ho with
  | ok hab hn => exact .ok hab ⟨hn.store, hm.current, hn.output⟩
  | fault he hn => exact .fault he ⟨hn.store, hm.current, hn.output⟩
  | exhausted => exact .exhausted
  | left hs => exact .left hs
  | right hs => exact .right hs

/-- Linked names with the same values. -/
abbrev Pairs (L : Link) (ps qs : List (Symbol × Value)) : Prop :=
  List.Forall₂ (fun p q => L.sym p.1 q.1 ∧ p.2 = q.2) ps qs

theorem within (f : FrameId) (hp : Pairs K.toLink ps qs) {act : Eval α} {act' : Eval β}
    (h : K.Agree V act act') :
    K.Agree V (Eval.within f ps act) (Eval.within f qs act') := by
  refine .bind (.update fun S S' hS => hS.extend K.oneToOne f hp) ?_
  rintro g _ rfl
  exact .inFrame g h

theorem nested (hp : Pairs K.toLink ps qs) {act : Eval α} {act' : Eval β} (h : K.Agree V act act') :
    K.Agree V (Eval.nested ps act) (Eval.nested qs act') := by
  intro m m' hm
  unfold Eval.nested
  rw [← hm.current]
  exact within m.current hp h m m' hm

/-- Values are shown alike, so the outputs take or refuse the same text. -/
theorem print (v : Value) (hs : K.span a b) : K.Agree Eq (Eval.print v a) (Eval.print v b) := by
  intro m m' hm
  unfold Eval.print
  rw [← hm.output, ← hm.store.pieces]
  split
  · exact .ok rfl ⟨hm.store, hm.current, rfl⟩
  · exact .fault ⟨rfl, rfl, rfl, hs⟩ ⟨hm.store, hm.current, rfl⟩

/-! ## Operators and patterns -/

theorem unaryOp (op : UnaryOp) (v : Value) (hs : K.span a b) :
    K.Agree Eq (Eval.ofExcept (op.apply v a)) (Eval.ofExcept (op.apply v b)) := by
  refine .ofExcept ?_
  cases op <;> cases v <;>
    first | exact .inl ⟨_, rfl, rfl⟩ | exact .inr ⟨_, _, rfl, rfl, rfl, rfl, rfl, hs⟩

/-- Errors about operands have the texts of the operator and of the types, no names. -/
theorem numeric {f : Number → Number → Value} (v w : Value) (hs : K.span a b) :
    K.Agree Eq (Eval.ofExcept (BinaryOp.numeric op f v w a))
      (Eval.ofExcept (BinaryOp.numeric op f v w b)) := by
  refine .ofExcept ?_
  unfold BinaryOp.numeric
  split
  · exact .inl ⟨_, rfl, rfl⟩
  · exact .inr ⟨_, _, rfl, rfl, rfl, rfl, rfl, hs⟩

theorem binaryOp (op : BinaryOp) (v w : Value) (hs : K.span a b) :
    K.Agree Eq (Eval.ofExcept (op.apply v w a)) (Eval.ofExcept (op.apply v w b)) := by
  cases op with
  | add | sub | mul | div | lt | gt | lte | gte => exact .numeric v w hs
  | eq | neq | and | or => exact .pure rfl
  | append =>
    refine .ofExcept ?_
    unfold BinaryOp.apply
    dsimp only
    split
    · exact .inl ⟨_, rfl, rfl⟩
    · exact .inr ⟨_, _, rfl, rfl, rfl, rfl, rfl, hs⟩

theorem ofLiteral_eq (h : Literal.Linked K.toLink l l') :
    Value.ofLiteral K.left l = Value.ofLiteral K.right l' := by
  cases h with
  | str hx => rw [Value.ofLiteral, Value.ofLiteral, K.text hx]
  | _ => rfl

mutual

/-- Linked patterns match the same values, and bind linked names to the same parts of them. -/
theorem tryMatch :
    ∀ {p q : Pattern} {v : Value} {bound bound' : List Binding}, p.Linked K.toLink q →
    Pairs K.toLink bound bound' → (p.tryMatch K.left v bound).1 = (q.tryMatch K.right v bound').1 ∧
      Pairs K.toLink (p.tryMatch K.left v bound).2 (q.tryMatch K.right v bound').2
  | .wild _, _, _, _, _, .wild _, hb => by
    rw [Pattern.tryMatch, Pattern.tryMatch]
    exact ⟨rfl, hb⟩
  | .var _, _, _, _, _, .var hn, hb => by
    rw [Pattern.tryMatch, Pattern.tryMatch]
    exact ⟨rfl, List.rel_append hb (.cons ⟨hn.name, rfl⟩ .nil)⟩
  | .unit _, _, v, _, _, .unit _, hb => by
    cases v <;> simp only [Pattern.tryMatch] <;> exact ⟨trivial, hb⟩
  | .literal _ _, _, _, _, _, .literal hl _, hb => by
    rw [Pattern.tryMatch, Pattern.tryMatch, ofLiteral_eq hl]
    exact ⟨rfl, hb⟩
  | .named _ p, _, v, _, _, .named hn hp, hb => by
    obtain ⟨hfst, hsnd⟩ := tryMatch (v := v) hp hb
    rw [Pattern.tryMatch, Pattern.tryMatch]
    generalize p.tryMatch K.left v _ = r at hfst hsnd
    generalize Pattern.tryMatch K.right _ v _ = r' at hfst hsnd
    obtain ⟨matched, bound⟩ := r
    obtain ⟨matched', bound'⟩ := r'
    cases hfst
    cases matched with
    | true => exact ⟨rfl, List.rel_append hsnd (.cons ⟨hn.name, rfl⟩ .nil)⟩
    | false => exact ⟨rfl, hsnd⟩
  | .tuple _ _, _, v, _, _, .tuple hps _, hb => by
    cases v with
    | tuple vs =>
      rw [Pattern.tryMatch, Pattern.tryMatch, hps.length_eq]
      split
      · exact tryMatchAll hps hb
      · exact ⟨rfl, hb⟩
    | _ => simp only [Pattern.tryMatch]; exact ⟨trivial, hb⟩
  | .vector _ _, _, v, _, _, .vector hps _, hb => by
    cases v with
    | vector vs =>
      rw [Pattern.tryMatch, Pattern.tryMatch, hps.length_eq]
      split
      · exact tryMatchAll hps hb
      · exact ⟨rfl, hb⟩
    | _ => simp only [Pattern.tryMatch]; exact ⟨trivial, hb⟩

theorem tryMatchAll : ∀ {ps qs : List Pattern} {vs : List Value} {bound bound' : List Binding},
    List.Forall₂ (Pattern.Linked K.toLink) ps qs → Pairs K.toLink bound bound' →
    (Pattern.tryMatchAll K.left ps vs bound).1 = (Pattern.tryMatchAll K.right qs vs bound').1 ∧
      Pairs K.toLink (Pattern.tryMatchAll K.left ps vs bound).2
        (Pattern.tryMatchAll K.right qs vs bound').2
  | [], _, _, _, _, .nil, hb => by
    simp only [Pattern.tryMatchAll]
    exact ⟨trivial, hb⟩
  | _ :: _, _, [], _, _, .cons _ _, hb => by
    simp only [Pattern.tryMatchAll]
    exact ⟨trivial, hb⟩
  | p :: _, _, v :: _, _, _, .cons hp hps, hb => by
    obtain ⟨hfst, hsnd⟩ := tryMatch (v := v) hp hb
    rw [Pattern.tryMatchAll, Pattern.tryMatchAll]
    generalize p.tryMatch K.left v _ = r at hfst hsnd
    generalize Pattern.tryMatch K.right _ v _ = r' at hfst hsnd
    obtain ⟨matched, bound⟩ := r
    obtain ⟨matched', bound'⟩ := r'
    cases hfst
    cases matched with
    | true => exact tryMatchAll hps hsnd
    | false => exact ⟨rfl, hsnd⟩

end

/-- A match fails on both sides or binds linked names to the same values. -/
theorem matching (hp : Pattern.Linked K.toLink p q) (v : Value) :
    K.Agree (fun r r' => r.1 = r'.1 ∧ Pairs K.toLink r.2 r'.2) (Eval.matching p v)
      (Eval.matching q v) :=
  fun _ _ hm => .ok (tryMatch hp .nil) hm

/-! ## Functions, classes and objects -/

theorem closure (hd : FunctionDecl.Linked K.toLink d d') (f : FrameId) (isInitializer : Bool) :
    K.Agree (Closure.Linked K.toLink) (Eval.closure d f isInitializer)
      (Eval.closure d' f isInitializer) := by
  refine .bind (.nameOf hd.name.name) ?_
  rintro shown _ rfl
  exact .pure ⟨rfl, hd, rfl, rfl⟩

theorem newFunction (hc : Closure.Linked K.toLink c c') :
    K.Agree Eq (Eval.newFunction c) (Eval.newFunction c') := by
  refine .bind (.update fun S S' hS => hS.addFunction hc) ?_
  rintro f _ rfl
  exact .pure rfl

theorem bindMethod (hc : Closure.Linked K.toLink c c') (v : Value) :
    K.Agree (Closure.Linked K.toLink) (Eval.bindMethod c v) (Eval.bindMethod c' v) := by
  refine .update fun S S' hS => ?_
  have hp : Pairs K.toLink [(.this, v)] [(.this, v)] := .cons ⟨K.this, rfl⟩ .nil
  obtain ⟨hframe, hstore⟩ := hS.extend K.oneToOne c.scope hp
  unfold Store.bindMethod
  rw [← hc.scope]
  exact ⟨⟨hc.name, hc.decl, hframe, hc.isInitializer⟩, hstore⟩

theorem functionHere (hd : FunctionDecl.Linked K.toLink d d') :
    K.Agree Eq (Eval.functionHere d) (Eval.functionHere d') := by
  intro m m' hm
  have h : K.Agree Eq (do Eval.newFunction (← Eval.closure d m.current false))
      (do Eval.newFunction (← Eval.closure d' m.current false)) :=
    .bind (.closure hd m.current false) fun _ _ hc => .newFunction hc
  unfold Eval.functionHere
  rw [← hm.current]
  exact h m m' hm

/-- The name of a superclass may be bound to something else, which is reported with its name. -/
theorem superclassOf (hx : Ident.Linked K.toLink x y) :
    K.Agree Eq (Eval.superclassOf x) (Eval.superclassOf y) := by
  refine .bind (.lookup hx) ?_
  rintro v _ rfl
  cases v with
  | class_ c => exact .pure rfl
  | _ =>
    refine .bind (.nameOf hx.name) ?_
    rintro shown _ rfl
    exact .raise ⟨rfl, rfl, rfl, hx.span⟩

theorem superclass? (hx : Option.Rel (Ident.Linked K.toLink) x y) :
    K.Agree Eq (Eval.superclass? x) (Eval.superclass? y) := by
  cases hx with
  | none => exact .pure rfl
  | some hx =>
    refine .bind (.superclassOf hx) ?_
    rintro c _ rfl
    exact .pure rfl

theorem methodScope (c : Option ClassId) :
    K.Agree Eq (Eval.methodScope c) (Eval.methodScope c) := by
  intro m m' hm
  cases c with
  | none => exact .ok hm.current hm
  | some c =>
    have hp : Pairs K.toLink [(.super, .class_ c)] [(.super, .class_ c)] :=
      .cons ⟨K.super, rfl⟩ .nil
    obtain ⟨hframe, hstore⟩ := hm.store.extend K.oneToOne m.current hp
    change Outcome.Linked K Eq
      (.ok (m.store.extend m.current [(.super, .class_ c)]).1
        { m with store := (m.store.extend m.current [(.super, .class_ c)]).2 })
      (.ok (m'.store.extend m'.current [(.super, .class_ c)]).1
        { m' with store := (m'.store.extend m'.current [(.super, .class_ c)]).2 })
    rw [← hm.current]
    exact .ok hframe ⟨hstore, rfl, hm.output⟩

/-- By induction on the methods. A later method of one name hides the earlier on both sides. -/
theorem methodTable (f : FrameId) (ht : table.Linked K.toLink (Closure.Linked K.toLink) table')
    (hds : List.Forall₂ (FunctionDecl.Linked K.toLink) ds ds') :
    K.Agree (Bindings.Linked K.toLink (Closure.Linked K.toLink)) (Eval.methodTable f table ds)
      (Eval.methodTable f table' ds') := by
  induction hds generalizing table table' with
  | nil => exact .pure ht
  | @cons d d' ds ds' hd _ ih =>
    have hname : K.sym d.name.name d'.name.name := hd.name.name
    have hinit : (d.name.name == .init) = (d'.name.name == .init) :=
      decide_eq_decide.mpr (K.oneToOne hname K.init)
    rw [Eval.methodTable, Eval.methodTable, hinit]
    exact .bind (.closure hd f _) fun _ _ hc => ih (ht.insert K.oneToOne hname hc)

theorem newClass (hx : Ident.Linked K.toLink x y)
    (hsup : Option.Rel (Ident.Linked K.toLink) sup sup')
    (hds : List.Forall₂ (FunctionDecl.Linked K.toLink) ds ds') :
    K.Agree Eq (Eval.newClass x sup ds) (Eval.newClass y sup' ds') := by
  refine .bind (.superclass? hsup) ?_
  rintro c _ rfl
  refine .bind (.methodScope c) ?_
  rintro f _ rfl
  refine .bind (.methodTable f .empty hds) fun table table' ht => .bind (.nameOf hx.name) ?_
  rintro shown _ rfl
  refine .bind .record fun _ _ _ => ?_
  refine .bind (.update fun S S' hS => hS.addClass ⟨rfl, rfl, ht⟩) ?_
  rintro k _ rfl
  exact .pure rfl

/-- A field comes before a method, and both are sought under linked names. -/
theorem property (v : Value) (hx : Ident.Linked K.toLink x y) :
    K.Agree Eq (Eval.property v x) (Eval.property v y) := by
  cases v with
  | object o =>
    refine .bind (.query fun S S' hS => hS.field? K.oneToOne o hx.name) ?_
    rintro field _ rfl
    cases field with
    | some w => exact .pure rfl
    | none =>
      refine .bind (V := Option.Rel (Closure.Linked K.toLink)) (.query fun S S' hS => ?_)
        fun r r' hr => ?_
      · rw [hS.objectClass? o]
        cases S'.objectClass? o with
        | none => exact .none
        | some c => exact hS.findMethod? K.oneToOne c hx.name
      · cases hr with
        | some hc => exact .bind (.bindMethod hc (.object o)) fun _ _ hc => .newFunction hc
        | none =>
          refine .bind (.nameOf hx.name) ?_
          rintro shown _ rfl
          exact .raise ⟨rfl, rfl, rfl, hx.span⟩
  | _ => exact .raise ⟨rfl, rfl, rfl, hx.span⟩

theorem superMethod (hx : Ident.Linked K.toLink x y) (hs : K.span a b) :
    K.Agree Eq (Eval.superMethod x a) (Eval.superMethod y b) := by
  refine .bind (.lookup ⟨K.super, hs⟩) ?_
  rintro v _ rfl
  cases v with
  | class_ c =>
    refine .bind (.lookup ⟨K.this, hs⟩) ?_
    rintro r _ rfl
    refine .bind (.query fun S S' hS => hS.findMethod? K.oneToOne c hx.name)
      fun found found' hfound => ?_
    cases hfound with
    | some hc => exact .bind (.bindMethod hc r) fun _ _ hc => .newFunction hc
    | none =>
      refine .bind (.nameOf hx.name) ?_
      rintro shown _ rfl
      exact .raise ⟨rfl, rfl, rfl, hx.span⟩
  | _ =>
    refine .bind (.query fun S S' hS => hS.printed _) ?_
    rintro shown _ rfl
    exact .raise ⟨rfl, rfl, rfl, hs⟩

theorem checkArity (shown : String) (n k : Nat) (hs : K.span a b) :
    K.Agree Eq (Eval.checkArity shown n k a) (Eval.checkArity shown n k b) := by
  unfold Eval.checkArity
  split
  · exact .pure rfl
  · exact .raise ⟨rfl, rfl, rfl, hs⟩

/-! ## Parts in order -/

section

variable {eval eval' : Expr → Eval Value}
  (hev : ∀ e e', Expr.Linked K.toLink e e' → K.Agree Eq (eval e) (eval' e'))
include hev

/-- By induction on the expressions. -/
theorem evaluateAll (hes : List.Forall₂ (Expr.Linked K.toLink) es es') :
    K.Agree Eq (Eval.evaluateAll eval es) (Eval.evaluateAll eval' es') := by
  induction hes with
  | nil => exact .pure rfl
  | cons he _ ih =>
    refine .bind (hev _ _ he) ?_
    rintro v _ rfl
    refine .bind ih ?_
    rintro vs _ rfl
    exact .pure rfl

theorem evaluateLast (v : Value) (hes : List.Forall₂ (Expr.Linked K.toLink) es es') :
    K.Agree Eq (Eval.evaluateLast eval v es) (Eval.evaluateLast eval' v es') := by
  induction hes generalizing v with
  | nil => exact .pure rfl
  | cons he _ ih =>
    refine .bind (hev _ _ he) ?_
    rintro w _ rfl
    exact ih w

theorem optional (he : Option.Rel (Expr.Linked K.toLink) e e') :
    K.Agree Eq (Eval.optional eval e) (Eval.optional eval' e') := by
  cases he with
  | none => exact .pure rfl
  | some he => exact hev _ _ he

theorem holds (he : Expr.Linked K.toLink e e') :
    K.Agree Eq (Eval.holds eval e) (Eval.holds eval' e') := by
  refine .bind (hev _ _ he) ?_
  rintro v _ rfl
  exact .pure rfl

theorem holdsIfGiven (he : Option.Rel (Expr.Linked K.toLink) e e') :
    K.Agree Eq (Eval.holdsIfGiven eval e) (Eval.holdsIfGiven eval' e') := by
  cases he with
  | none => exact .pure rfl
  | some he => exact .holds hev he

theorem effect (he : Option.Rel (Expr.Linked K.toLink) e e') :
    K.Agree Eq (Eval.effect eval e) (Eval.effect eval' e') :=
  .bind (.optional hev he) fun _ _ _ => .pure rfl

/-- The guard, and then the value, each in the frame of the arm. -/
theorem armValue (ha : CaseArm.Linked K.toLink arm arm') :
    K.Agree Eq (Eval.armValue eval arm) (Eval.armValue eval' arm') := by
  cases ha with
  | @mk _ _ _ _ e e' _ hg he =>
    have body : K.Agree Eq (do return some (← eval e)) (do return some (← eval' e')) := by
      refine .bind (hev _ _ he) ?_
      rintro v _ rfl
      exact .pure rfl
    cases hg with
    | none => exact body
    | some hg =>
      refine .bind (hev _ _ hg) ?_
      rintro v _ rfl
      split
      · exact body
      · exact .pure rfl

/-- By induction on the arms, of which both runs take the same. -/
theorem firstArm (v : Value) (hs : K.span a b)
    (harms : List.Forall₂ (CaseArm.Linked K.toLink) arms arms') :
    K.Agree Eq (Eval.firstArm eval v a arms) (Eval.firstArm eval' v b arms') := by
  induction harms with
  | nil =>
    refine .bind (.query fun S S' hS => hS.printed v) ?_
    rintro shown _ rfl
    exact .raise ⟨rfl, rfl, rfl, hs⟩
  | @cons arm arm' arms arms' ha _ ih =>
    have hp : arm.pattern.Linked K.toLink arm'.pattern := by
      cases ha with
      | mk hp _ _ => exact hp
    refine .bind (.matching hp v) fun r r' hr => ?_
    obtain ⟨matched, bound⟩ := r
    obtain ⟨matched', bound'⟩ := r'
    obtain ⟨rfl, hbound⟩ := hr
    cases matched with
    | false => exact ih
    | true =>
      refine .bind (.nested hbound (.armValue hev ha)) ?_
      rintro r _ rfl
      cases r with
      | some w => exact .pure rfl
      | none => exact ih

end

section

variable {n n' : Nat} (hshort : n < n' → K.leftShort) (hshort' : n' < n → K.rightShort)
include hshort hshort'

/-- Loops with linked parts go round as often, as far as their fuel takes them. -/
theorem repeatWhile {test test' : Eval Bool} {body body' : Eval Flow} {step step' : Eval Unit}
    (ht : K.Agree Eq test test') (hb : K.Agree (Flow.Linked K.toLink) body body')
    (hs : K.Agree Eq step step') :
    K.Agree (Flow.Linked K.toLink) (Eval.repeatWhile test body step n)
      (Eval.repeatWhile test' body' step' n') := by
  induction n generalizing n' with
  | zero =>
    intro m m' _
    cases n' with
    | zero => exact .exhausted
    | succ n' => exact .left (hshort (Nat.succ_pos n'))
  | succ n ih =>
    cases n' with
    | zero => exact fun m m' _ => .right (hshort' (Nat.succ_pos n))
    | succ n' =>
      refine .bind ht ?_
      rintro b _ rfl
      cases b with
      | false => exact .pure .normal
      | true =>
        refine .bind hb fun flow flow' hflow => ?_
        cases hflow with
        | normal =>
          exact .bind hs fun _ _ _ => ih (fun h => hshort (Nat.succ_lt_succ h)) fun h =>
            hshort' (Nat.succ_lt_succ h)
        | returned hspan => exact .pure (.returned hspan)

end

section

variable {exec exec' : Stmt → Eval Flow}
  (hex : ∀ s s', Stmt.Linked K.toLink s s' → K.Agree (Flow.Linked K.toLink) (exec s) (exec' s'))
include hex

theorem executeAll (hss : List.Forall₂ (Stmt.Linked K.toLink) ss ss') :
    K.Agree (Flow.Linked K.toLink) (Eval.executeAll exec ss) (Eval.executeAll exec' ss') := by
  induction hss with
  | nil => exact .pure .normal
  | cons hs _ ih =>
    refine .bind (hex _ _ hs) fun flow flow' hflow => ?_
    cases hflow with
    | normal => exact ih
    | returned hspan => exact .pure (.returned hspan)

theorem prepare (hs : Option.Rel (Stmt.Linked K.toLink) s s') :
    K.Agree Eq (Eval.prepare exec s) (Eval.prepare exec' s') := by
  cases hs with
  | none => exact .pure rfl
  | some hs => exact .bind (hex _ _ hs) fun _ _ _ => .pure rfl

/-! ## Calls -/

/-- Parameters are bound under linked names, and a missing `return` gives the same value. -/
theorem invoke (hc : Closure.Linked K.toLink c c') (vs : List Value) :
    K.Agree Eq (Eval.invoke exec c vs) (Eval.invoke exec' c' vs) := by
  obtain ⟨name, decl, scope, isInitializer⟩ := c
  obtain ⟨name', decl', scope', isInitializer'⟩ := c'
  obtain ⟨rfl, hd, rfl, rfl⟩ := hc
  cases hd with
  | @mk x y ps ps' ss ss' hn hps hss =>
    have hpairs : Pairs K.toLink ((ps.map Ident.name).zip vs) ((ps'.map Ident.name).zip vs) := by
      clear hss
      induction hps generalizing vs with
      | nil => exact .nil
      | cons hp _ ih =>
        cases vs with
        | nil => exact .nil
        | cons v vs => exact .cons ⟨hp.name, rfl⟩ (ih vs)
    refine .bind .record fun _ _ _ =>
      .bind (.within scope hpairs (.executeAll hex hss)) fun flow flow' hflow => ?_
    dsimp only
    split
    · refine .query fun S S' hS => ?_
      rw [hS.lookup? K.oneToOne scope K.this]
    · cases hflow with
      | normal => exact .pure rfl
      | returned => exact .pure rfl

/-- The initializer is found under one name, which both tables know. -/
theorem instantiate (c : ClassId) (vs : List Value) (hs : K.span a b) :
    K.Agree Eq (Eval.instantiate exec c vs a) (Eval.instantiate exec' c vs b) := by
  refine .bind (.update fun S S' hS => hS.addObject ⟨rfl, .empty⟩) ?_
  rintro o _ rfl
  refine .bind (.query fun S S' hS => hS.className c) ?_
  rintro shown _ rfl
  refine .bind (.query fun S S' hS => hS.findMethod? K.oneToOne c K.init)
    fun found found' hfound => ?_
  cases hfound with
  | none => exact .bind (.checkArity shown 0 vs.length hs) fun _ _ _ => .pure rfl
  | some hc =>
    dsimp only
    rw [hc.arity_eq]
    refine .bind (.checkArity shown _ vs.length hs) fun _ _ _ => ?_
    exact .bind (.bindMethod hc (.object o)) fun _ _ hready =>
      .bind (.invoke hex hready vs) fun _ _ _ => .pure rfl

theorem callWith (v : Value) (vs : List Value) (hs : K.span a b) :
    K.Agree Eq (Eval.callWith exec v vs a) (Eval.callWith exec' v vs b) := by
  cases v with
  | function f =>
    refine .bind (.query fun S S' hS => hS.functions.entry f) fun found found' hfound => ?_
    cases hfound with
    | none => exact .raise ⟨rfl, rfl, rfl, hs⟩
    | some hc =>
      dsimp only
      rw [hc.name, hc.arity_eq]
      exact .bind (.checkArity _ _ vs.length hs) fun _ _ _ => .invoke hex hc vs
  | class_ c => exact .instantiate hex c vs hs
  | _ => exact .raise ⟨rfl, rfl, rfl, hs⟩

end

end Agree

/-! ## Programs -/

/-- The three mutually recursive parts of a run go in lockstep with fuel `n` and `n'`. -/
structure AgreeWith (K : Lockstep) (n n' : Nat) : Prop where
  evaluate : ∀ e e', Expr.Linked K.toLink e e' →
    K.Agree Eq (Eval.evaluate n e) (Eval.evaluate n' e')
  execute : ∀ s s', Stmt.Linked K.toLink s s' →
    K.Agree (Flow.Linked K.toLink) (Eval.execute n s) (Eval.execute n' s')
  call : ∀ v vs a b, K.span a b → K.Agree Eq (Eval.call n v vs a) (Eval.call n' v vs b)

namespace AgreeWith

variable {n n' : Nat}

/-- One case for each kind of expression. -/
theorem evaluate_succ (ih : K.AgreeWith n n') (he : Expr.Linked K.toLink e e') :
    K.Agree Eq (Eval.evaluate (n + 1) e) (Eval.evaluate (n' + 1) e') := by
  have hev := ih.evaluate
  cases he with
  | literal hl hs => exact fun m m' hm => .ok (Agree.ofLiteral_eq hl) hm
  | grouping he hs => exact hev _ _ he
  | @unary _ _ _ _ op he hs =>
    refine .bind (hev _ _ he) ?_
    rintro v _ rfl
    exact .unaryOp op v hs
  | @binary _ _ _ _ _ _ op hl hr hs =>
    refine .bind (hev _ _ hl) ?_
    rintro v _ rfl
    cases op.decided? v with
    | some w => exact .pure rfl
    | none =>
      refine .bind (hev _ _ hr) ?_
      rintro w _ rfl
      exact .binaryOp op v w hs
  | var hn => exact .lookup hn
  | assign hn he =>
    refine .bind (hev _ _ he) ?_
    rintro v _ rfl
    exact .assign hn v
  | call hf hes hs =>
    refine .bind (hev _ _ hf) ?_
    rintro v _ rfl
    refine .bind (.evaluateAll hev hes) ?_
    rintro vs _ rfl
    exact ih.call v vs _ _ hs
  | get he hn =>
    refine .bind (hev _ _ he) ?_
    rintro v _ rfl
    exact .property v hn
  | set he hn hv =>
    refine .bind (hev _ _ he) ?_
    rintro v _ rfl
    cases v with
    | object o =>
      refine .bind (hev _ _ hv) ?_
      rintro w _ rfl
      exact .update fun S S' hS => ⟨rfl, hS.setField K.oneToOne o hn.name w⟩
    | _ => exact .raise ⟨rfl, rfl, rfl, hn.span⟩
  | this hs => exact .lookup ⟨K.this, hs⟩
  | super hn hs => exact .superMethod hn hs
  | @letIn x y _ _ _ _ _ _ hn hd he hs =>
    refine .bind (hev _ _ hd) ?_
    rintro v _ rfl
    have hpairs : Agree.Pairs K.toLink [(x.name, v)] [(y.name, v)] := .cons ⟨hn.name, rfl⟩ .nil
    exact .nested hpairs (hev _ _ he)
  | seq hes hs => exact .nested .nil (.evaluateLast hev .nil hes)
  | cond hc hy hn hs =>
    refine .bind (hev _ _ hc) ?_
    rintro v _ rfl
    split
    · exact hev _ _ hy
    · exact hev _ _ hn
  | tuple hes hs =>
    refine .bind (.evaluateAll hev hes) ?_
    rintro vs _ rfl
    exact .pure rfl
  | vector hes hs =>
    refine .bind (.evaluateAll hev hes) ?_
    rintro vs _ rfl
    exact .pure rfl
  | case he harms hs =>
    refine .bind (hev _ _ he) ?_
    rintro v _ rfl
    exact .firstArm hev v hs harms

theorem execute_succ (hshort : n < n' → K.leftShort) (hshort' : n' < n → K.rightShort)
    (ih : K.AgreeWith n n') (hs : Stmt.Linked K.toLink s s') :
    K.Agree (Flow.Linked K.toLink) (Eval.execute (n + 1) s) (Eval.execute (n' + 1) s') := by
  have hev := ih.evaluate
  have hex := ih.execute
  cases hs with
  | expr he => exact .bind (hev _ _ he) fun _ _ _ => .pure .normal
  | print he hspan =>
    refine .bind (hev _ _ he) ?_
    rintro v _ rfl
    exact .bind (.print v hspan) fun _ _ _ => .pure .normal
  | varDecl hn he =>
    refine .bind (.optional hev he) ?_
    rintro v _ rfl
    exact .bind (.define hn.name v) fun _ _ _ => .pure .normal
  | block hss hspan => exact .nested .nil (.executeAll hex hss)
  | @fnDecl f f' hf =>
    have hdeclare : K.Agree Eq (Eval.declareFunction f) (Eval.declareFunction f') := by
      refine .bind (.functionHere hf) ?_
      rintro v _ rfl
      exact .define hf.name.name v
    exact .bind hdeclare fun _ _ _ => .pure .normal
  | @classDecl x y sup sup' ds ds' hn hsup hds =>
    have hdeclare : K.Agree Eq (Eval.declareClass x sup ds) (Eval.declareClass y sup' ds') := by
      refine .bind (.newClass hn hsup hds) ?_
      rintro v _ rfl
      exact .define hn.name v
    exact .bind hdeclare fun _ _ _ => .pure .normal
  | ret he hspan =>
    refine .bind (.optional hev he) ?_
    rintro v _ rfl
    exact .pure (.returned hspan)
  | whileLoop he hb hspan =>
    exact .repeatWhile hshort hshort' (.holds hev he) (hex _ _ hb) (.pure rfl)
  | forever hss hspan =>
    exact .repeatWhile hshort hshort' (.pure rfl) (.nested .nil (.executeAll hex hss)) (.pure rfl)
  | forLoop hi hc hinc hb hspan =>
    exact .nested .nil (.bind (.prepare hex hi) fun _ _ _ =>
      .repeatWhile hshort hshort' (.holdsIfGiven hev hc) (hex _ _ hb) (.effect hev hinc))

end AgreeWith

/-- By induction on the fuel. Where one of them has less, it may run out first. -/
theorem agreeWith (K : Lockstep) (n n' : Nat) (hshort : n < n' → K.leftShort)
    (hshort' : n' < n → K.rightShort) :
    K.AgreeWith n n' := by
  induction n generalizing n' with
  | zero =>
    cases n' with
    | zero =>
      exact ⟨fun _ _ _ _ _ _ => .exhausted, fun _ _ _ _ _ _ => .exhausted,
        fun _ _ _ _ _ _ _ _ => .exhausted⟩
    | succ n' =>
      have hs := hshort (Nat.succ_pos n')
      exact ⟨fun _ _ _ _ _ _ => .left hs, fun _ _ _ _ _ _ => .left hs,
        fun _ _ _ _ _ _ _ _ => .left hs⟩
  | succ n ih =>
    cases n' with
    | zero =>
      have hs := hshort' (Nat.succ_pos n)
      exact ⟨fun _ _ _ _ _ _ => .right hs, fun _ _ _ _ _ _ => .right hs,
        fun _ _ _ _ _ _ _ _ => .right hs⟩
    | succ n' =>
      have hshort := fun h => hshort (Nat.succ_lt_succ h)
      have hshort' := fun h => hshort' (Nat.succ_lt_succ h)
      have ih := ih n' hshort hshort'
      exact ⟨fun _ _ he => ih.evaluate_succ he, fun _ _ hs => ih.execute_succ hshort hshort' hs,
        fun v vs _ _ hs => .callWith ih.execute v vs hs⟩

theorem agreeWith_self (K : Lockstep) (n : Nat) : K.AgreeWith n n :=
  K.agreeWith n n (fun h => absurd h (Nat.lt_irrefl n)) fun h => absurd h (Nat.lt_irrefl n)

/-- Linked programs run in lockstep. -/
theorem executeProgram (K : Lockstep) (n n' : Nat) (hshort : n < n' → K.leftShort)
    (hshort' : n' < n → K.rightShort) (hss : List.Forall₂ (Stmt.Linked K.toLink) ss ss') :
    K.Agree Eq (Eval.executeProgram n ss) (Eval.executeProgram n' ss') := by
  have hex := (K.agreeWith n n' hshort hshort').execute
  induction hss with
  | nil => exact .pure rfl
  | cons hs _ ih =>
    refine .bind (hex _ _ hs) fun flow flow' hflow => ?_
    cases hflow with
    | normal => exact ih
    | returned hspan => exact .raise ⟨rfl, rfl, rfl, hspan⟩

end Lockstep

end TreeWalk
