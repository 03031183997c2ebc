import TreeWalk.Eval.Basic
import TreeWalk.Proofs.Link.Identity

/-!
# Stores that correspond

In linked stores the same things stand at the same places, under linked names and with linked code.
Where a link takes different names to different names, whatever is found in one store is found in
the other, and writing to both keeps them linked. Values have no names in them, so values at the
same place are equal.
-/

namespace TreeWalk

variable {α β : Type} {R : α → β → Prop}

/-! ## Things there may be -/

/-- What is the same of related things is the same of the things there may be. -/
theorem map_eq_of_rel {γ : Type} {f : α → γ} {g : β → γ} (hfg : ∀ a b, R a b → f a = g b) :
    ∀ {o o'}, Option.Rel R o o' → o.map f = o'.map g
  | _, _, .none => rfl
  | _, _, .some h => congrArg some (hfg _ _ h)

theorem bind_eq_of_rel {γ : Type} {f : α → Option γ} {g : β → Option γ}
    (hfg : ∀ a b, R a b → f a = g b) :
    ∀ {o o'}, Option.Rel R o o' → o.bind f = o'.bind g
  | _, _, .none => rfl
  | _, _, .some h => hfg _ _ h

/-- Functions that keep a relation keep it of the things there may be. -/
theorem map_rel {γ δ : Type} {S : γ → δ → Prop} {f : α → γ} {g : β → δ}
    (hfg : ∀ a b, R a b → S (f a) (g b)) :
    ∀ {o o'}, Option.Rel R o o' → Option.Rel S (o.map f) (o'.map g)
  | _, _, .none => .none
  | _, _, .some h => .some (hfg _ _ h)

theorem getD_rel (hab : R a b) : ∀ {o o'}, Option.Rel R o o' → R (o.getD a) (o'.getD b)
  | _, _, .none => hab
  | _, _, .some h => h

/-- Of two related things there may be, both are there or none is. -/
theorem isSome_eq_of_rel : ∀ {o o'}, Option.Rel R o o' → o.isSome = o'.isSome
  | _, _, .none => rfl
  | _, _, .some _ => rfl

theorem bind_rel {γ δ : Type} {S : γ → δ → Prop} {f : α → Option γ} {g : β → Option δ}
    (hfg : ∀ a b, R a b → Option.Rel S (f a) (g b)) :
    ∀ {o o'}, Option.Rel R o o' → Option.Rel S (o.bind f) (o'.bind g)
  | _, _, .none => .none
  | _, _, .some h => hfg _ _ h

theorem eq_of_rel {o o' : Option α} (h : Option.Rel Eq o o') : o = o' := by
  cases h with
  | none => rfl
  | some h => exact congrArg some h

/-- Searching one list in two ways finds related things at the same element. -/
theorem findSome?_rel {γ : Type} {f : γ → Option α} {g : γ → Option β}
    (hfg : ∀ c, Option.Rel R (f c) (g c)) (cs : List γ) :
    Option.Rel R (cs.findSome? f) (cs.findSome? g) := by
  induction cs with
  | nil => exact .none
  | cons c cs ih =>
    have hc := hfg c
    rw [List.findSome?_cons, List.findSome?_cons]
    generalize f c = r at hc
    generalize g c = r' at hc
    cases hc with
    | none => exact ih
    | some hab => exact .some hab

/-! ## Arrays -/

/-- Arrays of one size with related entries. -/
structure Aligned (R : α → β → Prop) (as : Array α) (bs : Array β) : Prop where
  size : as.size = bs.size
  entry : ∀ i : Nat, Option.Rel R as[i]? bs[i]?

namespace Aligned

theorem empty : Aligned R #[] #[] :=
  ⟨rfl, fun _ => .none⟩

theorem self {R : α → α → Prop} (hR : ∀ a, R a a) (as : Array α) : Aligned R as as := by
  refine ⟨rfl, fun i => ?_⟩
  cases as[i]? with
  | none => exact .none
  | some a => exact .some (hR a)

theorem mono {R' : α → β → Prop} (hR : ∀ a b, R a b → R' a b) (h : Aligned R as bs) :
    Aligned R' as bs :=
  ⟨h.size, fun i => optionRel_mono hR (h.entry i)⟩

/-- Related entries at the end keep the arrays aligned. -/
theorem push (h : Aligned R as bs) (hab : R a b) : Aligned R (as.push a) (bs.push b) := by
  refine ⟨by simp [h.size], fun i => ?_⟩
  rw [Array.getElem?_push, Array.getElem?_push, h.size]
  split
  · exact .some hab
  · exact h.entry i

/-- Arrays stay aligned when the entries at one place are changed in step. -/
theorem modify (h : Aligned R as bs) {f : α → α} {g : β → β}
    (hfg : ∀ a b, R a b → R (f a) (g b)) (i : Nat) :
    Aligned R (as.modify i f) (bs.modify i g) := by
  refine ⟨by simp [h.size], fun j => ?_⟩
  rw [Array.getElem?_modify, Array.getElem?_modify]
  split
  · exact map_rel hfg (h.entry j)
  · exact h.entry j

end Aligned

/-! ## Bindings -/

/-- The same order of linked names, with related values. -/
def Bindings.Linked (L : Link) (R : α → β → Prop) (b : Bindings α) (b' : Bindings β) : Prop :=
  List.Forall₂ (fun p q => L.sym p.1 q.1 ∧ R p.2 q.2) b.entries b'.entries

namespace Bindings.Linked

variable {L L' : Link} {b : Bindings α} {b' : Bindings β}

theorem empty : Bindings.Linked L R .empty .empty :=
  .nil

theorem self {R : α → α → Prop} (h : L.Reflexive) (hR : ∀ a, R a a) (b : Bindings α) :
    b.Linked L R b :=
  List.forall₂_same.mpr fun p _ => ⟨h.sym p.1, hR p.2⟩

theorem mono {R' : α → β → Prop} (h : L.Within L') (hR : ∀ a b, R a b → R' a b)
    (hb : Bindings.Linked L R b b') :
    b.Linked L' R' b' :=
  hb.imp fun _ _ hp => ⟨h.sym hp.1, hR _ _ hp.2⟩

variable (hL : L.OneToOne)
include hL

/-- As different names are linked to different names, the first entry of a name on one side is the
first entry of its partner on the other. -/
theorem valueIn? (hx : L.sym x y) {ps : List (Symbol × α)} {qs : List (Symbol × β)}
    (h : List.Forall₂ (fun p q => L.sym p.1 q.1 ∧ R p.2 q.2) ps qs) :
    Option.Rel R (Bindings.valueIn? x ps) (Bindings.valueIn? y qs) := by
  induction h with
  | nil => exact .none
  | @cons p q ps qs hpq _ ih =>
    rw [Bindings.valueIn?, Bindings.valueIn?]
    have hiff := hL hpq.1 hx
    by_cases heq : p.1 = x
    · rw [if_pos heq, if_pos (hiff.mp heq)]
      exact .some hpq.2
    · rw [if_neg heq, if_neg fun h => heq (hiff.mpr h)]
      exact ih

/-- Linked names have related values, or none has a value. -/
theorem get? (h : Bindings.Linked L R b b') (hx : L.sym x y) :
    Option.Rel R (b.get? x) (b'.get? y) :=
  valueIn? hL hx h

theorem contains (h : Bindings.Linked L R b b') (hx : L.sym x y) : b.contains x = b'.contains y :=
  isSome_eq_of_rel (get? hL h hx)

/-- A name that is bound anew keeps its place in the order on both sides. -/
theorem insertEntry (hx : L.sym x y) (hv : R v w) {ps : List (Symbol × α)} {qs : List (Symbol × β)}
    (h : List.Forall₂ (fun p q => L.sym p.1 q.1 ∧ R p.2 q.2) ps qs) :
    List.Forall₂ (fun p q => L.sym p.1 q.1 ∧ R p.2 q.2) (Bindings.insertEntry x v ps)
      (Bindings.insertEntry y w qs) := by
  induction h with
  | nil => exact .cons ⟨hx, hv⟩ .nil
  | @cons p q ps qs hpq hrest ih =>
    rw [Bindings.insertEntry, Bindings.insertEntry]
    have hiff := hL hpq.1 hx
    by_cases heq : p.1 = x
    · rw [if_pos heq, if_pos (hiff.mp heq)]
      exact .cons ⟨hx, hv⟩ hrest
    · rw [if_neg heq, if_neg fun h => heq (hiff.mpr h)]
      exact .cons hpq ih

theorem insert (h : Bindings.Linked L R b b') (hx : L.sym x y) (hv : R v w) :
    (b.insert x v).Linked L R (b'.insert y w) :=
  insertEntry hL hx hv h

/-- Binding one list of pairs after the other, from nothing on. -/
theorem ofList {ps : List (Symbol × α)} {qs : List (Symbol × β)}
    (h : List.Forall₂ (fun p q => L.sym p.1 q.1 ∧ R p.2 q.2) ps qs) :
    (Bindings.ofList ps).Linked L R (Bindings.ofList qs) := by
  have hfold : ∀ b b', Bindings.Linked L R b b' →
      (ps.foldl (fun b p => b.insert p.1 p.2) b).Linked L R
        (qs.foldl (fun b q => b.insert q.1 q.2) b') := by
    induction h with
    | nil => exact fun _ _ hb => hb
    | cons hpq _ ih => exact fun _ _ hb => ih _ _ (insert hL hb hpq.1 hpq.2)
  exact hfold _ _ .empty

end Bindings.Linked

/-! ## What decides about chains and printed values -/

namespace Store

variable {S S' : Store}

/-- The chain of a class is told by the superclasses alone. -/
theorem classChain_congr (h : ∀ c : ClassId, S.classes[c]?.bind ClassInfo.superclass =
    S'.classes[c]?.bind ClassInfo.superclass) (c : ClassId) : S.classChain c = S'.classChain c := by
  induction c using Nat.strongRecOn with
  | ind c ih =>
    rw [classChain, classChain, h]
    cases S'.classes[c]?.bind ClassInfo.superclass with
    | none => rfl
    | some superclass =>
      dsimp only
      split
      · next hlt => rw [ih superclass hlt]
      · rfl

/-- Functions and classes have the same names, and objects the same classes. -/
structure SameNames (S S' : Store) : Prop where
  function : ∀ f, S.functionName f = S'.functionName f
  class_ : ∀ c, S.className c = S'.className c
  object : ∀ o, S.objectClass? o = S'.objectClass? o

mutual

/-- A value shows only the names of functions and classes and the classes of objects. -/
theorem SameNames.pieces (h : S.SameNames S') : ∀ v, S.pieces v = S'.pieces v
  | .nil | .bool true | .bool false | .number _ | .str _ => by rw [Store.pieces, Store.pieces]
  | .tuple vs => by rw [Store.pieces, Store.pieces, h.piecesAll vs]
  | .vector vs => by rw [Store.pieces, Store.pieces, h.piecesAll vs]
  | .function f => by rw [Store.pieces, Store.pieces, h.function]
  | .class_ c => by rw [Store.pieces, Store.pieces, h.class_]
  | .object o => by
    rw [Store.pieces, Store.pieces, h.object]
    cases S'.objectClass? o with
    | none => rfl
    | some c => simp only [Option.map_some, Option.getD_some, h.class_ c]

theorem SameNames.piecesAll (h : S.SameNames S') : ∀ vs, S.piecesAll vs = S'.piecesAll vs
  | [] => by rw [Store.piecesAll, Store.piecesAll]
  | [v] => by rw [Store.piecesAll, Store.piecesAll, h.pieces v]
  | v :: w :: vs => by rw [Store.piecesAll, Store.piecesAll, h.pieces v, h.piecesAll (w :: vs)]

end

theorem SameNames.printed (h : S.SameNames S') (v : Value) : S.printed v = S'.printed v :=
  congrArg String.join (h.pieces v)

end Store

/-! ## Frames, functions, classes and objects -/

/-- The same variables under linked names, in the same frame around them. -/
structure Frame.Linked (L : Link) (f f' : Frame) : Prop where
  bindings : f.bindings.Linked L Eq f'.bindings
  parent : f.parent = f'.parent

/-- Functions of corresponding code, made in the same frame. -/
structure Closure.Linked (L : Link) (c c' : Closure) : Prop where
  name : c.name = c'.name
  decl : c.decl.Linked L c'.decl
  scope : c.scope = c'.scope
  isInitializer : c.isInitializer = c'.isInitializer

/-- The same superclass, and corresponding methods under linked names. -/
structure ClassInfo.Linked (L : Link) (k k' : ClassInfo) : Prop where
  name : k.name = k'.name
  superclass : k.superclass = k'.superclass
  methods : k.methods.Linked L (Closure.Linked L) k'.methods

/-- Objects of one class with the same fields under linked names. -/
structure Object.Linked (L : Link) (o o' : Object) : Prop where
  cls : o.cls = o'.cls
  fields : o.fields.Linked L Eq o'.fields

/-- All four tables correspond, place by place. -/
structure Store.Linked (L : Link) (S S' : Store) : Prop where
  frames : Aligned (Frame.Linked L) S.frames S'.frames
  functions : Aligned (Closure.Linked L) S.functions S'.functions
  classes : Aligned (ClassInfo.Linked L) S.classes S'.classes
  objects : Aligned (Object.Linked L) S.objects S'.objects

theorem Closure.Linked.mono {L L' : Link} (h : L.Within L') (hc : Closure.Linked L c c') :
    c.Linked L' c' :=
  ⟨hc.name, hc.decl.mono h, hc.scope, hc.isInitializer⟩

theorem Closure.Linked.self {L : Link} (h : L.Reflexive) (c : Closure) : c.Linked L c :=
  ⟨rfl, c.decl.linked_self h, rfl, rfl⟩

/-- Functions that correspond take the same number of arguments. -/
theorem Closure.Linked.arity_eq {L : Link} (h : Closure.Linked L c c') : c.arity = c'.arity := by
  obtain ⟨name, decl, scope, flag⟩ := c
  obtain ⟨name', decl', scope', flag'⟩ := c'
  cases h.decl with
  | mk _ hps _ => exact hps.length_eq

namespace Store.Linked

variable {L L' : Link} {S S' : Store}

/-- Two new stores correspond, whatever the link is. -/
theorem initial : Store.Linked L .initial .initial := by
  have hframes : Aligned (Frame.Linked L) (#[].push {}) (#[].push {}) := .push .empty ⟨.empty, rfl⟩
  exact ⟨hframes, .empty, .empty, .empty⟩

/-- A reflexive link links every store to itself. -/
theorem self (h : L.Reflexive) (S : Store) : S.Linked L S where
  frames := .self (fun f => ⟨.self h (fun _ => rfl) f.bindings, rfl⟩) S.frames
  functions := .self (.self h) S.functions
  classes := .self (fun k => ⟨rfl, rfl, .self h (.self h) k.methods⟩) S.classes
  objects := .self (fun o => ⟨rfl, .self h (fun _ => rfl) o.fields⟩) S.objects

theorem mono (h : L.Within L') (hS : Store.Linked L S S') : S.Linked L' S' where
  frames := hS.frames.mono fun _ _ hf => ⟨hf.bindings.mono h fun _ _ => id, hf.parent⟩
  functions := hS.functions.mono fun _ _ hc => hc.mono h
  classes := hS.classes.mono fun _ _ hk =>
    ⟨hk.name, hk.superclass, hk.methods.mono h fun _ _ hc => hc.mono h⟩
  objects := hS.objects.mono fun _ _ ho => ⟨ho.cls, ho.fields.mono h fun _ _ => id⟩

/-! ## Reading -/

section

variable (h : Store.Linked L S S')
include h

theorem bindingsOf (f : FrameId) : (S.bindingsOf f).Linked L Eq (S'.bindingsOf f) :=
  getD_rel .empty (map_rel (fun _ _ hf => hf.bindings) (h.frames.entry f))

/-- The frames around a frame are the same, as parents are the same. -/
theorem chain (f : FrameId) : S.chain f = S'.chain f := by
  have hparent : ∀ f, S.parentOf? f = S'.parentOf? f :=
    fun f => bind_eq_of_rel (fun _ _ hf => hf.parent) (h.frames.entry f)
  induction f using Nat.strongRecOn with
  | ind f ih =>
    rw [Store.chain, Store.chain, hparent]
    cases S'.parentOf? f with
    | none => rfl
    | some parent =>
      dsimp only
      split
      · next hlt => rw [ih parent hlt]
      · rfl

/-- The classes above a class are the same. -/
theorem classChain (c : ClassId) : S.classChain c = S'.classChain c :=
  Store.classChain_congr
    (fun c => bind_eq_of_rel (fun _ _ hk => hk.superclass) (h.classes.entry c)) c

theorem functionName (f : FunctionId) : S.functionName f = S'.functionName f :=
  congrArg (Option.getD · "") (map_eq_of_rel (fun _ _ hc => hc.name) (h.functions.entry f))

theorem className (c : ClassId) : S.className c = S'.className c :=
  congrArg (Option.getD · "") (map_eq_of_rel (fun _ _ hk => hk.name) (h.classes.entry c))

theorem objectClass? (o : ObjectId) : S.objectClass? o = S'.objectClass? o :=
  map_eq_of_rel (fun _ _ ho => ho.cls) (h.objects.entry o)

/-- Values are shown alike. -/
theorem sameNames : S.SameNames S' :=
  ⟨h.functionName, h.className, h.objectClass?⟩

theorem pieces (v : Value) : S.pieces v = S'.pieces v :=
  h.sameNames.pieces v

theorem printed (v : Value) : S.printed v = S'.printed v :=
  h.sameNames.printed v

variable (hL : L.OneToOne)
include hL

/-- A name is found in the frame in which its partner is found. -/
theorem owner? (f : FrameId) (hx : L.sym x y) : S.owner? f x = S'.owner? f y := by
  unfold Store.owner?
  rw [h.chain f]
  congr 1
  funext g
  exact (h.bindingsOf g).contains hL hx

/-- Variables under linked names have the same value. -/
theorem lookup? (f : FrameId) (hx : L.sym x y) : S.lookup? f x = S'.lookup? f y := by
  unfold Store.lookup?
  rw [h.owner? hL f hx]
  cases S'.owner? f y with
  | none => rfl
  | some g => exact eq_of_rel ((h.bindingsOf g).get? hL hx)

theorem field? (o : ObjectId) (hx : L.sym x y) : S.field? o x = S'.field? o y :=
  bind_eq_of_rel (fun _ _ ho => eq_of_rel (ho.fields.get? hL hx)) (h.objects.entry o)

/-- Under linked names a class has or inherits corresponding methods. -/
theorem findMethod? (c : ClassId) (hx : L.sym x y) :
    Option.Rel (Closure.Linked L) (S.findMethod? c x) (S'.findMethod? c y) := by
  unfold Store.findMethod?
  rw [h.classChain c]
  exact findSome?_rel
    (fun d => bind_rel (fun _ _ hk => hk.methods.get? hL hx) (h.classes.entry d)) _

/-! ## Writing -/

/-- Binding linked names to one value keeps the stores linked. -/
theorem define (f : FrameId) (hx : L.sym x y) (v : Value) :
    (S.define f x v).Linked L (S'.define f y v) where
  frames := by
    dsimp only [Store.define]
    apply h.frames.modify
    exact fun _ _ hf => ⟨hf.bindings.insert hL hx rfl, hf.parent⟩
  functions := h.functions
  classes := h.classes
  objects := h.objects

/-- So does setting a field under linked names. -/
theorem setField (o : ObjectId) (hx : L.sym x y) (v : Value) :
    (S.setField o x v).Linked L (S'.setField o y v) where
  frames := h.frames
  functions := h.functions
  classes := h.classes
  objects := by
    dsimp only [Store.setField]
    apply h.objects.modify
    exact fun _ _ ho => ⟨ho.cls, ho.fields.insert hL hx rfl⟩

/-- New frames get the same number on both sides. -/
theorem extend (f : FrameId) (hpairs : List.Forall₂ (fun p q => L.sym p.1 q.1 ∧ p.2 = q.2) ps qs) :
    (S.extend f ps).1 = (S'.extend f qs).1 ∧ (S.extend f ps).2.Linked L (S'.extend f qs).2 :=
  ⟨h.frames.size, h.frames.push ⟨.ofList hL hpairs, rfl⟩, h.functions, h.classes, h.objects⟩

omit hL

/-- So do new functions, and classes and objects below. -/
theorem addFunction (hc : Closure.Linked L c c') :
    (S.addFunction c).1 = (S'.addFunction c').1 ∧
      (S.addFunction c).2.Linked L (S'.addFunction c').2 :=
  ⟨h.functions.size, h.frames, h.functions.push hc, h.classes, h.objects⟩

theorem addClass (hk : ClassInfo.Linked L k k') :
    (S.addClass k).1 = (S'.addClass k').1 ∧ (S.addClass k).2.Linked L (S'.addClass k').2 :=
  ⟨h.classes.size, h.frames, h.functions, h.classes.push hk, h.objects⟩

theorem addObject (ho : Object.Linked L o o') :
    (S.addObject o).1 = (S'.addObject o').1 ∧ (S.addObject o).2.Linked L (S'.addObject o').2 :=
  ⟨h.objects.size, h.frames, h.functions, h.classes, h.objects.push ho⟩

end

end Store.Linked

end TreeWalk
