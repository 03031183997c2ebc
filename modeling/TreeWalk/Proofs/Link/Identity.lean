import TreeWalk.Proofs.Link

/-!
# Trees linked to themselves

A link that takes every name and every place to itself links every tree to itself. If it takes them
to nothing else, it links no two different trees.
-/

namespace TreeWalk

namespace Link

/-- Every name and every place is linked to itself. -/
structure Reflexive (L : Link) : Prop where
  sym : ∀ x, L.sym x x
  span : ∀ a, L.span a a

/-- The same names at the same places. -/
def same : Link where
  sym := Eq
  span := Eq

/-- The same names at any places. -/
def anywhere : Link where
  sym := Eq
  span _ _ := True

/-- The least reflexive link. -/
theorem reflexive_same : same.Reflexive :=
  ⟨fun _ => rfl, fun _ => rfl⟩

/-- Places do not matter for it. -/
theorem reflexive_anywhere : anywhere.Reflexive :=
  ⟨fun _ => rfl, fun _ => trivial⟩

end Link

/-! ## Every tree to itself -/

section

variable {L : Link}

/-- A reflexive link takes a name to itself, and so every tree below. -/
theorem Ident.linked_self (h : L.Reflexive) (n : Ident) : n.Linked L n :=
  ⟨h.sym _, h.span _⟩

theorem Literal.linked_self (h : L.Reflexive) (v : Literal) : v.Linked L v := by
  cases v with
  | number => exact .number
  | str => exact .str (h.sym _)
  | bool => exact .bool
  | nil => exact .nil

/-- Tokens without a name are linked whatever the link is. -/
theorem Token.linked_self (h : L.Reflexive) (t : Token) : t.Linked L t := by
  refine ⟨?_, h.span _⟩
  cases t.kind with
  | punct => exact .punct
  | keyword => exact .keyword
  | ident => exact .ident (h.sym _)
  | str => exact .str (h.sym _)
  | number => exact .number
  | eof => exact .eof

mutual

/-- Every pattern is linked to itself. -/
theorem Pattern.linked_self (h : L.Reflexive) : ∀ p : Pattern, p.Linked L p
  | .unit _ => .unit (h.span _)
  | .var n => .var (n.linked_self h)
  | .literal v _ => .literal (v.linked_self h) (h.span _)
  | .wild _ => .wild (h.span _)
  | .named n p => .named (n.linked_self h) (p.linked_self h)
  | .tuple ps _ => .tuple (Pattern.linked_selfAll h ps) (h.span _)
  | .vector ps _ => .vector (Pattern.linked_selfAll h ps) (h.span _)

theorem Pattern.linked_selfAll (h : L.Reflexive) :
    ∀ ps : List Pattern, List.Forall₂ (Pattern.Linked L) ps ps
  | [] => .nil
  | p :: ps => .cons (p.linked_self h) (Pattern.linked_selfAll h ps)

end

mutual

/-- Every expression is linked to itself, and so is each arm of a `case`. -/
theorem Expr.linked_self (h : L.Reflexive) : ∀ e : Expr, e.Linked L e
  | .literal v _ => .literal (v.linked_self h) (h.span _)
  | .grouping e _ => .grouping (e.linked_self h) (h.span _)
  | .unary _ e _ => .unary (e.linked_self h) (h.span _)
  | .binary l _ r _ => .binary (l.linked_self h) (r.linked_self h) (h.span _)
  | .var n => .var (n.linked_self h)
  | .assign n e => .assign (n.linked_self h) (e.linked_self h)
  | .call e es _ => .call (e.linked_self h) (Expr.linked_selfAll h es) (h.span _)
  | .get e n => .get (e.linked_self h) (n.linked_self h)
  | .set e n v => .set (e.linked_self h) (n.linked_self h) (v.linked_self h)
  | .this _ => .this (h.span _)
  | .super n _ => .super (n.linked_self h) (h.span _)
  | .letIn n d e _ => .letIn (n.linked_self h) (d.linked_self h) (e.linked_self h) (h.span _)
  | .seq es _ => .seq (Expr.linked_selfAll h es) (h.span _)
  | .cond c y n _ => .cond (c.linked_self h) (y.linked_self h) (n.linked_self h) (h.span _)
  | .tuple es _ => .tuple (Expr.linked_selfAll h es) (h.span _)
  | .vector es _ => .vector (Expr.linked_selfAll h es) (h.span _)
  | .case e as _ => .case (e.linked_self h) (CaseArm.linked_selfAll h as) (h.span _)

theorem Expr.linked_selfAll (h : L.Reflexive) : ∀ es : List Expr, List.Forall₂ (Expr.Linked L) es es
  | [] => .nil
  | e :: es => .cons (e.linked_self h) (Expr.linked_selfAll h es)

theorem CaseArm.linked_self (h : L.Reflexive) : ∀ a : CaseArm, a.Linked L a
  | .mk p none e => .mk (p.linked_self h) .none (e.linked_self h)
  | .mk p (some g) e => .mk (p.linked_self h) (.some (g.linked_self h)) (e.linked_self h)

theorem CaseArm.linked_selfAll (h : L.Reflexive) :
    ∀ as : List CaseArm, List.Forall₂ (CaseArm.Linked L) as as
  | [] => .nil
  | a :: as => .cons (a.linked_self h) (CaseArm.linked_selfAll h as)

end

/-- So is an expression that may be missing. -/
theorem Expr.linked_selfOption (h : L.Reflexive) (o : Option Expr) :
    Option.Rel (Expr.Linked L) o o := by
  cases o with
  | none => exact .none
  | some e => exact .some (e.linked_self h)

mutual

/-- Every statement is linked to itself. Optional parts are linked where both are there or none is.
-/
theorem Stmt.linked_self (h : L.Reflexive) : ∀ s : Stmt, s.Linked L s
  | .expr e => .expr (e.linked_self h)
  | .print e _ => .print (e.linked_self h) (h.span _)
  | .varDecl n e => .varDecl (n.linked_self h) (Expr.linked_selfOption h e)
  | .block ss _ => .block (Stmt.linked_selfAll h ss) (h.span _)
  | .fnDecl f => .fnDecl (f.linked_self h)
  | .classDecl n none fs => .classDecl (n.linked_self h) .none (FunctionDecl.linked_selfAll h fs)
  | .classDecl n (some p) fs =>
    .classDecl (n.linked_self h) (.some (p.linked_self h)) (FunctionDecl.linked_selfAll h fs)
  | .ret e _ => .ret (Expr.linked_selfOption h e) (h.span _)
  | .whileLoop e s _ => .whileLoop (e.linked_self h) (s.linked_self h) (h.span _)
  | .forever ss _ => .forever (Stmt.linked_selfAll h ss) (h.span _)
  | .forLoop none c e s _ =>
    .forLoop .none (Expr.linked_selfOption h c) (Expr.linked_selfOption h e)
      (s.linked_self h) (h.span _)
  | .forLoop (some i) c e s _ =>
    .forLoop (.some (i.linked_self h)) (Expr.linked_selfOption h c) (Expr.linked_selfOption h e)
      (s.linked_self h)
      (h.span _)

theorem Stmt.linked_selfAll (h : L.Reflexive) : ∀ ss : List Stmt, List.Forall₂ (Stmt.Linked L) ss ss
  | [] => .nil
  | s :: ss => .cons (s.linked_self h) (Stmt.linked_selfAll h ss)

theorem FunctionDecl.linked_self (h : L.Reflexive) : ∀ f : FunctionDecl, f.Linked L f
  | .mk n _ ss =>
    .mk (n.linked_self h) (List.forall₂_same.mpr fun p _ => p.linked_self h)
      (Stmt.linked_selfAll h ss)

theorem FunctionDecl.linked_selfAll (h : L.Reflexive) :
    ∀ fs : List FunctionDecl, List.Forall₂ (FunctionDecl.Linked L) fs fs
  | [] => .nil
  | f :: fs => .cons (f.linked_self h) (FunctionDecl.linked_selfAll h fs)

end

end

/-! ## No other tree -/

/-- Where a link keeps names and places, a name is linked to nothing but itself. -/
theorem Ident.Linked.eq (h : Ident.Linked .same n m) : m = n := by
  obtain ⟨hname, hspan⟩ := h
  cases m
  cases hname
  cases hspan
  rfl

theorem Literal.Linked.eq (h : Literal.Linked .same v w) : w = v := by
  cases h with
  | str hx => cases hx; rfl
  | _ => rfl

/-- With name and place the same, the whole token is. -/
theorem Token.Linked.eq (t u : Token) (h : t.Linked .same u) : u = t := by
  obtain ⟨k, a⟩ := t
  obtain ⟨k', b⟩ := u
  obtain ⟨hkind, hspan⟩ := h
  cases hspan
  cases hkind with
  | ident hx | str hx => cases hx; rfl
  | _ => rfl

/-- Lists whose elements are equal one by one are equal. -/
theorem forall₂_eq {α : Type} {R : α → α → Prop} {as bs : List α} (hR : ∀ x y, R x y → y = x)
    (h : List.Forall₂ R as bs) : bs = as :=
  (forall₂_eq_map (f := id) hR h).trans (List.map_id as)

theorem optionRel_eq {α : Type} {R : α → α → Prop} {o o' : Option α} (hR : ∀ x y, R x y → y = x)
    (h : Option.Rel R o o') : o' = o :=
  (optionRel_eq_map (f := id) hR h).trans (Option.map_id_apply)

mutual

/-- The same link relates no two different patterns. -/
theorem Pattern.Linked.eq : ∀ {p q}, Pattern.Linked .same p q → q = p
  | .unit _, _, .unit hs => by rw [hs]
  | .var _, _, .var hn => by rw [hn.eq]
  | .literal _ _, _, .literal hv hs => by rw [hv.eq, hs]
  | .wild _, _, .wild hs => by rw [hs]
  | .named _ _, _, .named hn hp => by rw [hn.eq, hp.eq]
  | .tuple _ _, _, .tuple hps hs => by rw [Pattern.Linked.eqAll hps, hs]
  | .vector _ _, _, .vector hps hs => by rw [Pattern.Linked.eqAll hps, hs]
termination_by structural p => p

theorem Pattern.Linked.eqAll : ∀ {ps qs}, List.Forall₂ (Pattern.Linked .same) ps qs → qs = ps
  | [], _, .nil => rfl
  | _ :: _, _, .cons hp hps => by rw [hp.eq, Pattern.Linked.eqAll hps]
termination_by structural ps => ps

end

mutual

/-- The same link relates no two different expressions. -/
theorem Expr.Linked.eq : ∀ {e e'}, Expr.Linked .same e e' → e' = e
  | .literal _ _, _, .literal hv hs => by rw [hv.eq, hs]
  | .grouping _ _, _, .grouping he hs => by rw [he.eq, hs]
  | .unary _ _ _, _, .unary he hs => by rw [he.eq, hs]
  | .binary _ _ _ _, _, .binary hl hr hs => by rw [hl.eq, hr.eq, hs]
  | .var _, _, .var hn => by rw [hn.eq]
  | .assign _ _, _, .assign hn he => by rw [hn.eq, he.eq]
  | .call _ _ _, _, .call he hes hs => by rw [he.eq, Expr.Linked.eqAll hes, hs]
  | .get _ _, _, .get he hn => by rw [he.eq, hn.eq]
  | .set _ _ _, _, .set he hn hv => by rw [he.eq, hn.eq, hv.eq]
  | .this _, _, .this hs => by rw [hs]
  | .super _ _, _, .super hn hs => by rw [hn.eq, hs]
  | .letIn _ _ _ _, _, .letIn hn hd he hs => by rw [hn.eq, hd.eq, he.eq, hs]
  | .seq _ _, _, .seq hes hs => by rw [Expr.Linked.eqAll hes, hs]
  | .cond _ _ _ _, _, .cond hc hy hn hs => by rw [hc.eq, hy.eq, hn.eq, hs]
  | .tuple _ _, _, .tuple hes hs => by rw [Expr.Linked.eqAll hes, hs]
  | .vector _ _, _, .vector hes hs => by rw [Expr.Linked.eqAll hes, hs]
  | .case _ _ _, _, .case he has hs => by rw [he.eq, CaseArm.Linked.eqAll has, hs]
termination_by structural e => e

theorem Expr.Linked.eqAll : ∀ {es es'}, List.Forall₂ (Expr.Linked .same) es es' → es' = es
  | [], _, .nil => rfl
  | _ :: _, _, .cons he hes => by rw [he.eq, Expr.Linked.eqAll hes]
termination_by structural es => es

theorem CaseArm.Linked.eq : ∀ {a a'}, CaseArm.Linked .same a a' → a' = a
  | .mk _ none _, _, .mk hp .none he => by rw [hp.eq, he.eq]
  | .mk _ (some _) _, _, .mk hp (.some hg) he => by rw [hp.eq, hg.eq, he.eq]
termination_by structural a => a

theorem CaseArm.Linked.eqAll : ∀ {as as'}, List.Forall₂ (CaseArm.Linked .same) as as' → as' = as
  | [], _, .nil => rfl
  | _ :: _, _, .cons ha has => by rw [ha.eq, CaseArm.Linked.eqAll has]
termination_by structural as => as

end

theorem Expr.Linked.eqOption {o o' : Option Expr} (h : Option.Rel (Expr.Linked .same) o o') :
    o' = o :=
  optionRel_eq (fun _ _ he => he.eq) h

mutual

/-- The same link relates no two different statements, nor functions. -/
theorem Stmt.Linked.eq : ∀ {s s'}, Stmt.Linked .same s s' → s' = s
  | .expr _, _, .expr he => by rw [he.eq]
  | .print _ _, _, .print he hs => by rw [he.eq, hs]
  | .varDecl _ _, _, .varDecl hn he => by rw [hn.eq, Expr.Linked.eqOption he]
  | .block _ _, _, .block hss hs => by rw [Stmt.Linked.eqAll hss, hs]
  | .fnDecl _, _, .fnDecl hf => by rw [hf.eq]
  | .classDecl _ _ _, _, .classDecl hn hp hfs => by
    rw [hn.eq, optionRel_eq (fun _ _ hm => hm.eq) hp, FunctionDecl.Linked.eqAll hfs]
  | .ret _ _, _, .ret he hs => by rw [Expr.Linked.eqOption he, hs]
  | .whileLoop _ _ _, _, .whileLoop he hb hs => by rw [he.eq, hb.eq, hs]
  | .forever _ _, _, .forever hss hs => by rw [Stmt.Linked.eqAll hss, hs]
  | .forLoop none _ _ _ _, _, .forLoop .none hc hi hb hs => by
    rw [Expr.Linked.eqOption hc, Expr.Linked.eqOption hi, hb.eq, hs]
  | .forLoop (some _) _ _ _ _, _, .forLoop (.some ht) hc hi hb hs => by
    rw [ht.eq, Expr.Linked.eqOption hc, Expr.Linked.eqOption hi, hb.eq, hs]
termination_by structural s => s

theorem Stmt.Linked.eqAll : ∀ {ss ss'}, List.Forall₂ (Stmt.Linked .same) ss ss' → ss' = ss
  | [], _, .nil => rfl
  | _ :: _, _, .cons hs hss => by rw [hs.eq, Stmt.Linked.eqAll hss]
termination_by structural ss => ss

theorem FunctionDecl.Linked.eq : ∀ {f f'}, FunctionDecl.Linked .same f f' → f' = f
  | .mk _ _ _, _, .mk hn hps hss => by
    rw [hn.eq, forall₂_eq (fun _ _ hp => hp.eq) hps, Stmt.Linked.eqAll hss]
termination_by structural f => f

theorem FunctionDecl.Linked.eqAll :
    ∀ {fs fs'}, List.Forall₂ (FunctionDecl.Linked .same) fs fs' → fs' = fs
  | [], _, .nil => rfl
  | _ :: _, _, .cons hf hfs => by rw [hf.eq, FunctionDecl.Linked.eqAll hfs]
termination_by structural fs => fs

end

/-- To be linked by the same link is to be the same program. -/
theorem Program.Linked.eq (h : Program.Linked .same p q) : q = p :=
  congrArg Program.mk (Stmt.Linked.eqAll h)

end TreeWalk
