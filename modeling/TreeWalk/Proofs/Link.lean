import Mathlib.Data.List.Forall2
import TreeWalk.Proofs.Places

/-!
# Trees that correspond

A `Link` says which names and which places of one tree may stand for which of another. Linked trees
have the same nodes and the same constants, operators and optional parts, with linked names and
places in them. The bare form of a tree is linked to it by a link that forgets all places.
-/

namespace TreeWalk

/-- Which names and which places of one tree may stand for which of another. -/
structure Link where
  sym : Symbol → Symbol → Prop
  span : Span → Span → Prop

namespace Link

/-- Whatever is linked by `L` is linked by `L'`. -/
structure Within (L L' : Link) : Prop where
  sym : L.sym x y → L'.sym x y
  span : L.span a b → L'.span a b

/-- Different names are linked to different names. -/
def OneToOne (L : Link) : Prop :=
  ∀ ⦃x y x' y'⦄, L.sym x y → L.sym x' y' → (x = x' ↔ y = y')

/-- The same names, and no places on the right. -/
def bare : Link where
  sym := Eq
  span _ b := b = default

/-- The same names, at other places. -/
def moved (f : Span → Span) : Link where
  sym := Eq
  span a b := b = f a

end Link

/-! ## Names, constants and tokens -/

/-- Linked names at linked places. -/
structure Ident.Linked (L : Link) (i j : Ident) : Prop where
  name : L.sym i.name j.name
  span : L.span i.span j.span

/-- The same constant; a string is known by its symbol, which may be another one. -/
inductive Literal.Linked (L : Link) : Literal → Literal → Prop where
  | number : Linked L (.number x) (.number x)
  | str : L.sym x y → Linked L (.str x) (.str y)
  | bool : Linked L (.bool b) (.bool b)
  | nil : Linked L .nil .nil

/-- Tokens of one kind, with linked names in them. -/
inductive TokenKind.Linked (L : Link) : TokenKind → TokenKind → Prop where
  | punct : Linked L (.punct m) (.punct m)
  | keyword : Linked L (.keyword k) (.keyword k)
  | ident : L.sym x y → Linked L (.ident x) (.ident y)
  | str : L.sym x y → Linked L (.str x) (.str y)
  | number : Linked L (.number x) (.number x)
  | eof : Linked L .eof .eof

structure Token.Linked (L : Link) (t u : Token) : Prop where
  kind : t.kind.Linked L u.kind
  span : L.span t.span u.span

/-! ## Trees -/

/-- Patterns of one shape. -/
inductive Pattern.Linked (L : Link) : Pattern → Pattern → Prop where
  | unit : L.span a b → Linked L (.unit a) (.unit b)
  | var : Ident.Linked L n m → Linked L (.var n) (.var m)
  | literal : Literal.Linked L v w → L.span a b → Linked L (.literal v a) (.literal w b)
  | wild : L.span a b → Linked L (.wild a) (.wild b)
  | named : Ident.Linked L n m → Linked L p q → Linked L (.named n p) (.named m q)
  | tuple : List.Forall₂ (Linked L) ps qs → L.span a b → Linked L (.tuple ps a) (.tuple qs b)
  | vector : List.Forall₂ (Linked L) ps qs → L.span a b → Linked L (.vector ps a) (.vector qs b)

mutual

/-- Expressions of one shape. Operators are the same. -/
inductive Expr.Linked (L : Link) : Expr → Expr → Prop where
  | literal : Literal.Linked L v w → L.span a b → Expr.Linked L (.literal v a) (.literal w b)
  | grouping : Expr.Linked L e e' → L.span a b → Expr.Linked L (.grouping e a) (.grouping e' b)
  | unary : Expr.Linked L e e' → L.span a b → Expr.Linked L (.unary op e a) (.unary op e' b)
  | binary : Expr.Linked L l l' → Expr.Linked L r r' → L.span a b →
      Expr.Linked L (.binary l op r a) (.binary l' op r' b)
  | var : Ident.Linked L n m → Expr.Linked L (.var n) (.var m)
  | assign : Ident.Linked L n m → Expr.Linked L e e' → Expr.Linked L (.assign n e) (.assign m e')
  | call : Expr.Linked L e e' → List.Forall₂ (Expr.Linked L) es es' → L.span a b →
      Expr.Linked L (.call e es a) (.call e' es' b)
  | get : Expr.Linked L e e' → Ident.Linked L n m → Expr.Linked L (.get e n) (.get e' m)
  | set : Expr.Linked L e e' → Ident.Linked L n m → Expr.Linked L v v' →
      Expr.Linked L (.set e n v) (.set e' m v')
  | this : L.span a b → Expr.Linked L (.this a) (.this b)
  | super : Ident.Linked L n m → L.span a b → Expr.Linked L (.super n a) (.super m b)
  | letIn : Ident.Linked L n m → Expr.Linked L d d' → Expr.Linked L e e' → L.span a b →
      Expr.Linked L (.letIn n d e a) (.letIn m d' e' b)
  | seq : List.Forall₂ (Expr.Linked L) es es' → L.span a b → Expr.Linked L (.seq es a) (.seq es' b)
  | cond : Expr.Linked L c c' → Expr.Linked L y y' → Expr.Linked L n n' → L.span a b →
      Expr.Linked L (.cond c y n a) (.cond c' y' n' b)
  | tuple : List.Forall₂ (Expr.Linked L) es es' → L.span a b →
      Expr.Linked L (.tuple es a) (.tuple es' b)
  | vector : List.Forall₂ (Expr.Linked L) es es' → L.span a b →
      Expr.Linked L (.vector es a) (.vector es' b)
  | case : Expr.Linked L e e' → List.Forall₂ (CaseArm.Linked L) as as' → L.span a b →
      Expr.Linked L (.case e as a) (.case e' as' b)

/-- Arms of one shape: both have a guard or none has. -/
inductive CaseArm.Linked (L : Link) : CaseArm → CaseArm → Prop where
  | mk : Pattern.Linked L p q → Option.Rel (Expr.Linked L) g g' → Expr.Linked L e e' →
      CaseArm.Linked L (.mk p g e) (.mk q g' e')

end

mutual

/-- Statements of one shape, with the same optional parts. -/
inductive Stmt.Linked (L : Link) : Stmt → Stmt → Prop where
  | expr : Expr.Linked L e e' → Stmt.Linked L (.expr e) (.expr e')
  | print : Expr.Linked L e e' → L.span a b → Stmt.Linked L (.print e a) (.print e' b)
  | varDecl : Ident.Linked L n m → Option.Rel (Expr.Linked L) e e' →
      Stmt.Linked L (.varDecl n e) (.varDecl m e')
  | block : List.Forall₂ (Stmt.Linked L) ss ss' → L.span a b →
      Stmt.Linked L (.block ss a) (.block ss' b)
  | fnDecl : FunctionDecl.Linked L f f' → Stmt.Linked L (.fnDecl f) (.fnDecl f')
  | classDecl : Ident.Linked L n m → Option.Rel (Ident.Linked L) p p' →
      List.Forall₂ (FunctionDecl.Linked L) fs fs' →
      Stmt.Linked L (.classDecl n p fs) (.classDecl m p' fs')
  | ret : Option.Rel (Expr.Linked L) e e' → L.span a b → Stmt.Linked L (.ret e a) (.ret e' b)
  | whileLoop : Expr.Linked L e e' → Stmt.Linked L s s' → L.span a b →
      Stmt.Linked L (.whileLoop e s a) (.whileLoop e' s' b)
  | forever : List.Forall₂ (Stmt.Linked L) ss ss' → L.span a b →
      Stmt.Linked L (.forever ss a) (.forever ss' b)
  | forLoop : Option.Rel (Stmt.Linked L) i i' → Option.Rel (Expr.Linked L) c c' →
      Option.Rel (Expr.Linked L) e e' → Stmt.Linked L s s' → L.span a b →
      Stmt.Linked L (.forLoop i c e s a) (.forLoop i' c' e' s' b)

inductive FunctionDecl.Linked (L : Link) : FunctionDecl → FunctionDecl → Prop where
  | mk : Ident.Linked L n m → List.Forall₂ (Ident.Linked L) ps ps' →
      List.Forall₂ (Stmt.Linked L) ss ss' → FunctionDecl.Linked L (.mk n ps ss) (.mk m ps' ss')

end

/-- Functions that correspond have names that do. -/
theorem FunctionDecl.Linked.name {L : Link} (h : FunctionDecl.Linked L f f') :
    f.name.Linked L f'.name := by
  cases h with
  | mk hn _ _ => exact hn

/-- Programs with the same number of statements, which correspond one by one. -/
def Program.Linked (L : Link) (p q : Program) : Prop :=
  List.Forall₂ (Stmt.Linked L) p.statements q.statements

/-! ## Weaker links -/

/-- A weaker relation relates what there may be as well. -/
theorem optionRel_mono {α β : Type} {R R' : α → β → Prop} (hR : ∀ x y, R x y → R' x y) :
    ∀ {o o'}, Option.Rel R o o' → Option.Rel R' o o'
  | _, _, .none => .none
  | _, _, .some h => .some (hR _ _ h)

section

variable {L L' : Link}

/-- Names that a link allows are allowed by every weaker link. So are all trees, as the lemmas below
show for one kind of tree after the other. -/
theorem Ident.Linked.mono (h : L.Within L') (hn : Ident.Linked L n m) : n.Linked L' m :=
  ⟨h.sym hn.name, h.span hn.span⟩

theorem Literal.Linked.mono (h : L.Within L') (hv : Literal.Linked L v w) : v.Linked L' w := by
  cases hv with
  | str hx => exact .str (h.sym hx)
  | number => exact .number
  | bool => exact .bool
  | nil => exact .nil

/-- The kind of a token stays, so that only the names and the place are looked at. -/
theorem Token.Linked.mono (h : L.Within L') (ht : Token.Linked L t u) : t.Linked L' u := by
  obtain ⟨k, a⟩ := t
  obtain ⟨k', b⟩ := u
  obtain ⟨hkind, hspan⟩ := ht
  cases hkind with
  | punct => exact ⟨.punct, h.span hspan⟩
  | keyword => exact ⟨.keyword, h.span hspan⟩
  | ident hx => exact ⟨.ident (h.sym hx), h.span hspan⟩
  | str hx => exact ⟨.str (h.sym hx), h.span hspan⟩
  | number => exact ⟨.number, h.span hspan⟩
  | eof => exact ⟨.eof, h.span hspan⟩

mutual

/-- Patterns, by recursion on the first of them. -/
theorem Pattern.Linked.mono (h : L.Within L') : ∀ {p q}, Pattern.Linked L p q → p.Linked L' q
  | .unit _, _, .unit hs => .unit (h.span hs)
  | .var _, _, .var hn => .var (hn.mono h)
  | .literal _ _, _, .literal hv hs => .literal (hv.mono h) (h.span hs)
  | .wild _, _, .wild hs => .wild (h.span hs)
  | .named _ _, _, .named hn hp => .named (hn.mono h) (hp.mono h)
  | .tuple _ _, _, .tuple hps hs => .tuple (Pattern.Linked.monoAll h hps) (h.span hs)
  | .vector _ _, _, .vector hps hs => .vector (Pattern.Linked.monoAll h hps) (h.span hs)
termination_by structural p => p

theorem Pattern.Linked.monoAll (h : L.Within L') :
    ∀ {ps qs}, List.Forall₂ (Pattern.Linked L) ps qs → List.Forall₂ (Pattern.Linked L') ps qs
  | [], _, .nil => .nil
  | _ :: _, _, .cons hp hps => .cons (hp.mono h) (Pattern.Linked.monoAll h hps)
termination_by structural ps => ps

end

mutual

/-- Expressions and the arms of `case`, by recursion on the first of them. -/
theorem Expr.Linked.mono (h : L.Within L') : ∀ {e e'}, Expr.Linked L e e' → e.Linked L' e'
  | .literal _ _, _, .literal hv hs => .literal (hv.mono h) (h.span hs)
  | .grouping _ _, _, .grouping he hs => .grouping (he.mono h) (h.span hs)
  | .unary _ _ _, _, .unary he hs => .unary (he.mono h) (h.span hs)
  | .binary _ _ _ _, _, .binary hl hr hs => .binary (hl.mono h) (hr.mono h) (h.span hs)
  | .var _, _, .var hn => .var (hn.mono h)
  | .assign _ _, _, .assign hn he => .assign (hn.mono h) (he.mono h)
  | .call _ _ _, _, .call he hes hs => .call (he.mono h) (Expr.Linked.monoAll h hes) (h.span hs)
  | .get _ _, _, .get he hn => .get (he.mono h) (hn.mono h)
  | .set _ _ _, _, .set he hn hv => .set (he.mono h) (hn.mono h) (hv.mono h)
  | .this _, _, .this hs => .this (h.span hs)
  | .super _ _, _, .super hn hs => .super (hn.mono h) (h.span hs)
  | .letIn _ _ _ _, _, .letIn hn hd he hs => .letIn (hn.mono h) (hd.mono h) (he.mono h) (h.span hs)
  | .seq _ _, _, .seq hes hs => .seq (Expr.Linked.monoAll h hes) (h.span hs)
  | .cond _ _ _ _, _, .cond hc hy hn hs => .cond (hc.mono h) (hy.mono h) (hn.mono h) (h.span hs)
  | .tuple _ _, _, .tuple hes hs => .tuple (Expr.Linked.monoAll h hes) (h.span hs)
  | .vector _ _, _, .vector hes hs => .vector (Expr.Linked.monoAll h hes) (h.span hs)
  | .case _ _ _, _, .case he has hs => .case (he.mono h) (CaseArm.Linked.monoAll h has) (h.span hs)
termination_by structural e => e

theorem Expr.Linked.monoAll (h : L.Within L') :
    ∀ {es es'}, List.Forall₂ (Expr.Linked L) es es' → List.Forall₂ (Expr.Linked L') es es'
  | [], _, .nil => .nil
  | _ :: _, _, .cons he hes => .cons (he.mono h) (Expr.Linked.monoAll h hes)
termination_by structural es => es

theorem CaseArm.Linked.mono (h : L.Within L') : ∀ {a a'}, CaseArm.Linked L a a' → a.Linked L' a'
  | .mk _ none _, _, .mk hp .none he => .mk (hp.mono h) .none (he.mono h)
  | .mk _ (some _) _, _, .mk hp (.some hg) he => .mk (hp.mono h) (.some (hg.mono h)) (he.mono h)
termination_by structural a => a

theorem CaseArm.Linked.monoAll (h : L.Within L') :
    ∀ {as as'}, List.Forall₂ (CaseArm.Linked L) as as' → List.Forall₂ (CaseArm.Linked L') as as'
  | [], _, .nil => .nil
  | _ :: _, _, .cons ha has => .cons (ha.mono h) (CaseArm.Linked.monoAll h has)
termination_by structural as => as

end

/-- Expressions that may be missing. -/
theorem Expr.Linked.monoOption (h : L.Within L') :
    ∀ {e e'}, Option.Rel (Expr.Linked L) e e' → Option.Rel (Expr.Linked L') e e'
  | _, _, .none => .none
  | _, _, .some he => .some (he.mono h)

mutual

/-- Statements and functions, by recursion on the first of them. -/
theorem Stmt.Linked.mono (h : L.Within L') : ∀ {s s'}, Stmt.Linked L s s' → s.Linked L' s'
  | .expr _, _, .expr he => .expr (he.mono h)
  | .print _ _, _, .print he hs => .print (he.mono h) (h.span hs)
  | .varDecl _ _, _, .varDecl hn he => .varDecl (hn.mono h) (Expr.Linked.monoOption h he)
  | .block _ _, _, .block hss hs => .block (Stmt.Linked.monoAll h hss) (h.span hs)
  | .fnDecl _, _, .fnDecl hf => .fnDecl (hf.mono h)
  | .classDecl _ _ _, _, .classDecl hn hp hfs =>
    .classDecl (hn.mono h) (optionRel_mono (fun _ _ hm => hm.mono h) hp)
      (FunctionDecl.Linked.monoAll h hfs)
  | .ret _ _, _, .ret he hs => .ret (Expr.Linked.monoOption h he) (h.span hs)
  | .whileLoop _ _ _, _, .whileLoop he hb hs => .whileLoop (he.mono h) (hb.mono h) (h.span hs)
  | .forever _ _, _, .forever hss hs => .forever (Stmt.Linked.monoAll h hss) (h.span hs)
  | .forLoop none _ _ _ _, _, .forLoop .none hc hi hb hs =>
    .forLoop .none (Expr.Linked.monoOption h hc) (Expr.Linked.monoOption h hi)
      (hb.mono h) (h.span hs)
  | .forLoop (some _) _ _ _ _, _, .forLoop (.some ht) hc hi hb hs =>
    .forLoop (.some (ht.mono h)) (Expr.Linked.monoOption h hc) (Expr.Linked.monoOption h hi)
      (hb.mono h) (h.span hs)
termination_by structural s => s

theorem Stmt.Linked.monoAll (h : L.Within L') :
    ∀ {ss ss'}, List.Forall₂ (Stmt.Linked L) ss ss' → List.Forall₂ (Stmt.Linked L') ss ss'
  | [], _, .nil => .nil
  | _ :: _, _, .cons hs hss => .cons (hs.mono h) (Stmt.Linked.monoAll h hss)
termination_by structural ss => ss

theorem FunctionDecl.Linked.mono (h : L.Within L') :
    ∀ {f f'}, FunctionDecl.Linked L f f' → f.Linked L' f'
  | .mk _ _ _, _, .mk hn hps hss =>
    .mk (hn.mono h) (hps.imp fun _ _ hp => hp.mono h) (Stmt.Linked.monoAll h hss)
termination_by structural f => f

theorem FunctionDecl.Linked.monoAll (h : L.Within L') :
    ∀ {fs fs'}, List.Forall₂ (FunctionDecl.Linked L) fs fs' →
      List.Forall₂ (FunctionDecl.Linked L') fs fs'
  | [], _, .nil => .nil
  | _ :: _, _, .cons hf hfs => .cons (hf.mono h) (FunctionDecl.Linked.monoAll h hfs)
termination_by structural fs => fs

end

end

/-! ## Bare trees -/

/-- What is linked to a name by the bare link is its bare form, and nothing else is. -/
theorem Ident.Linked.eq_bare (h : Ident.Linked .bare n m) : m = n.bare := by
  obtain ⟨hname, hspan⟩ := h
  cases m
  cases hname
  cases hspan
  rfl

/-- Constants have no place that could be forgotten. -/
theorem Literal.Linked.eq_of_bare (h : Literal.Linked .bare v w) : w = v := by
  cases h with
  | str hx => cases hx; rfl
  | _ => rfl

/-- The bare link links each token to its bare form. -/
theorem Token.linked_bare (t : Token) : t.Linked .bare t.bare := by
  obtain ⟨kind, span⟩ := t
  cases kind with
  | punct m => exact ⟨.punct, rfl⟩
  | keyword k => exact ⟨.keyword, rfl⟩
  | ident x => exact ⟨.ident rfl, rfl⟩
  | str x => exact ⟨.str rfl, rfl⟩
  | number x => exact ⟨.number, rfl⟩
  | eof => exact ⟨.eof, rfl⟩

theorem Token.Linked.eq_bare (t u : Token) (h : t.Linked .bare u) : u = t.bare := by
  obtain ⟨k, a⟩ := t
  obtain ⟨k', b⟩ := u
  obtain ⟨hkind, hspan⟩ := h
  cases hspan
  cases hkind with
  | ident hx | str hx => cases hx; rfl
  | _ => rfl

mutual

/-- The bare form is the only pattern that the bare link links to a pattern. -/
theorem Pattern.Linked.eq_bare : ∀ {p q}, Pattern.Linked .bare p q → q = p.bare
  | .unit _, _, .unit hs => by rw [hs, bare]
  | .var _, _, .var hn => by rw [hn.eq_bare, bare]
  | .literal _ _, _, .literal hv hs => by rw [hv.eq_of_bare, hs, bare]
  | .wild _, _, .wild hs => by rw [hs, bare]
  | .named _ _, _, .named hn hp => by rw [hn.eq_bare, hp.eq_bare, bare]
  | .tuple _ _, _, .tuple hps hs => by rw [Pattern.Linked.eq_bareAll hps, hs, bare]
  | .vector _ _, _, .vector hps hs => by rw [Pattern.Linked.eq_bareAll hps, hs, bare]
termination_by structural p => p

theorem Pattern.Linked.eq_bareAll :
    ∀ {ps qs}, List.Forall₂ (Pattern.Linked .bare) ps qs → qs = Pattern.bareAll ps
  | [], _, .nil => rfl
  | _ :: _, _, .cons hp hps => by rw [hp.eq_bare, Pattern.Linked.eq_bareAll hps, Pattern.bareAll]
termination_by structural ps => ps

end

mutual

/-- The same for expressions, along with the arms of `case`. -/
theorem Expr.Linked.eq_bare : ∀ {e e'}, Expr.Linked .bare e e' → e' = e.bare
  | .literal _ _, _, .literal hv hs => by rw [hv.eq_of_bare, hs, Expr.bare]
  | .grouping _ _, _, .grouping he hs => by rw [he.eq_bare, hs, Expr.bare]
  | .unary _ _ _, _, .unary he hs => by rw [he.eq_bare, hs, Expr.bare]
  | .binary _ _ _ _, _, .binary hl hr hs => by rw [hl.eq_bare, hr.eq_bare, hs, Expr.bare]
  | .var _, _, .var hn => by rw [hn.eq_bare, Expr.bare]
  | .assign _ _, _, .assign hn he => by rw [hn.eq_bare, he.eq_bare, Expr.bare]
  | .call _ _ _, _, .call he hes hs => by rw [he.eq_bare, Expr.Linked.eq_bareAll hes, hs, Expr.bare]
  | .get _ _, _, .get he hn => by rw [he.eq_bare, hn.eq_bare, Expr.bare]
  | .set _ _ _, _, .set he hn hv => by rw [he.eq_bare, hn.eq_bare, hv.eq_bare, Expr.bare]
  | .this _, _, .this hs => by rw [hs, Expr.bare]
  | .super _ _, _, .super hn hs => by rw [hn.eq_bare, hs, Expr.bare]
  | .letIn _ _ _ _, _, .letIn hn hd he hs => by
    rw [hn.eq_bare, hd.eq_bare, he.eq_bare, hs, Expr.bare]
  | .seq _ _, _, .seq hes hs => by rw [Expr.Linked.eq_bareAll hes, hs, Expr.bare]
  | .cond _ _ _ _, _, .cond hc hy hn hs => by rw [hc.eq_bare, hy.eq_bare, hn.eq_bare, hs, Expr.bare]
  | .tuple _ _, _, .tuple hes hs => by rw [Expr.Linked.eq_bareAll hes, hs, Expr.bare]
  | .vector _ _, _, .vector hes hs => by rw [Expr.Linked.eq_bareAll hes, hs, Expr.bare]
  | .case _ _ _, _, .case he has hs => by
    rw [he.eq_bare, CaseArm.Linked.eq_bareAll has, hs, Expr.bare]
termination_by structural e => e

theorem Expr.Linked.eq_bareAll :
    ∀ {es es'}, List.Forall₂ (Expr.Linked .bare) es es' → es' = Expr.bareAll es
  | [], _, .nil => rfl
  | _ :: _, _, .cons he hes => by rw [he.eq_bare, Expr.Linked.eq_bareAll hes, Expr.bareAll]
termination_by structural es => es

theorem CaseArm.Linked.eq_bare : ∀ {a a'}, CaseArm.Linked .bare a a' → a' = a.bare
  | .mk _ none _, _, .mk hp .none he => by rw [hp.eq_bare, he.eq_bare, CaseArm.bare]
  | .mk _ (some _) _, _, .mk hp (.some hg) he => by
    rw [hp.eq_bare, hg.eq_bare, he.eq_bare, CaseArm.bare]
termination_by structural a => a

theorem CaseArm.Linked.eq_bareAll :
    ∀ {as as'}, List.Forall₂ (CaseArm.Linked .bare) as as' → as' = CaseArm.bareAll as
  | [], _, .nil => rfl
  | _ :: _, _, .cons ha has => by rw [ha.eq_bare, CaseArm.Linked.eq_bareAll has, CaseArm.bareAll]
termination_by structural as => as

end

/-- A relation that is a function relates what there may be as `map` does. -/
theorem optionRel_eq_map {α β : Type} {R : α → β → Prop} {f : α → β} (hR : ∀ x y, R x y → y = f x) :
    ∀ {o o'}, Option.Rel R o o' → o' = o.map f
  | _, _, .none => rfl
  | _, _, .some h => congrArg some (hR _ _ h)

theorem forall₂_eq_map {α β : Type} {R : α → β → Prop} {f : α → β} {as : List α} {bs : List β}
    (hR : ∀ x y, R x y → y = f x) (h : List.Forall₂ R as bs) : bs = as.map f := by
  induction h with
  | nil => rfl
  | cons ha _ ih => rw [hR _ _ ha, ih, List.map_cons]

mutual

/-- The same for statements, along with functions. -/
theorem Stmt.Linked.eq_bare : ∀ {s s'}, Stmt.Linked .bare s s' → s' = s.bare
  | .expr _, _, .expr he => by rw [he.eq_bare, Stmt.bare]
  | .print _ _, _, .print he hs => by rw [he.eq_bare, hs, Stmt.bare]
  | .varDecl _ _, _, .varDecl hn he => by
    rw [hn.eq_bare, optionRel_eq_map (fun _ _ he => he.eq_bare) he, Stmt.bare]
  | .block _ _, _, .block hss hs => by rw [Stmt.Linked.eq_bareAll hss, hs, Stmt.bare]
  | .fnDecl _, _, .fnDecl hf => by rw [hf.eq_bare, Stmt.bare]
  | .classDecl _ _ _, _, .classDecl hn hp hfs => by
    rw [hn.eq_bare, optionRel_eq_map (fun _ _ hm => hm.eq_bare) hp,
      FunctionDecl.Linked.eq_bareAll hfs, Stmt.bare]
  | .ret _ _, _, .ret he hs => by rw [optionRel_eq_map (fun _ _ he => he.eq_bare) he, hs, Stmt.bare]
  | .whileLoop _ _ _, _, .whileLoop he hb hs => by rw [he.eq_bare, hb.eq_bare, hs, Stmt.bare]
  | .forever _ _, _, .forever hss hs => by rw [Stmt.Linked.eq_bareAll hss, hs, Stmt.bare]
  | .forLoop none _ _ _ _, _, .forLoop .none hc hi hb hs => by
    rw [optionRel_eq_map (fun _ _ he => he.eq_bare) hc,
      optionRel_eq_map (fun _ _ he => he.eq_bare) hi, hb.eq_bare, hs, Stmt.bare]
  | .forLoop (some _) _ _ _ _, _, .forLoop (.some ht) hc hi hb hs => by
    rw [ht.eq_bare, optionRel_eq_map (fun _ _ he => he.eq_bare) hc,
      optionRel_eq_map (fun _ _ he => he.eq_bare) hi, hb.eq_bare, hs, Stmt.bare]
termination_by structural s => s

theorem Stmt.Linked.eq_bareAll :
    ∀ {ss ss'}, List.Forall₂ (Stmt.Linked .bare) ss ss' → ss' = Stmt.bareAll ss
  | [], _, .nil => rfl
  | _ :: _, _, .cons hs hss => by rw [hs.eq_bare, Stmt.Linked.eq_bareAll hss, Stmt.bareAll]
termination_by structural ss => ss

theorem FunctionDecl.Linked.eq_bare : ∀ {f f'}, FunctionDecl.Linked .bare f f' → f' = f.bare
  | .mk _ _ _, _, .mk hn hps hss => by
    rw [hn.eq_bare, forall₂_eq_map (fun _ _ hp => hp.eq_bare) hps, Stmt.Linked.eq_bareAll hss,
      FunctionDecl.bare]
termination_by structural f => f

theorem FunctionDecl.Linked.eq_bareAll :
    ∀ {fs fs'}, List.Forall₂ (FunctionDecl.Linked .bare) fs fs' → fs' = FunctionDecl.bareAll fs
  | [], _, .nil => rfl
  | _ :: _, _, .cons hf hfs => by
    rw [hf.eq_bare, FunctionDecl.Linked.eq_bareAll hfs, FunctionDecl.bareAll]
termination_by structural fs => fs

end

/-- Two programs linked to one program by the bare link are the same. -/
theorem Program.Linked.eq_bare (h : Program.Linked .bare p q) : q = p.bare := by
  obtain ⟨ss⟩ := q
  rw [Program.bare]
  exact congrArg Program.mk (forall₂_eq_map (fun _ _ hs => hs.eq_bare) h)

end TreeWalk
