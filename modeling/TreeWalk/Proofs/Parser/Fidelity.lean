import TreeWalk.Proofs.CanonicalText
import TreeWalk.Proofs.Parser.Edits

/-!
# Programs hold their tokens

The grammar in terms of `Reads`, one production after the other: the tokens that a production takes
lead by edits to the words of the tree it answers with.
-/

namespace TreeWalk

open Edit

namespace Parser

variable {α : Type}

namespace Reads

/-! ## Patterns -/

/-- The edits `d` belong to `a` and end in its words. -/
def Renders (E : α → Edits → Prop) (words : α → List TokenKind) (a : α) (d : Edits) : Prop :=
  E a d ∧ d.target = words a

/-- Items that are printed as edited are so as a list. -/
theorem forall₂_renders {E : α → Edits → Prop} {words : α → List TokenKind}
    (h : List.Forall₂ (Renders E words) as ds) :
    List.Forall₂ E as ds ∧ ds.map Edits.target = as.map words := by
  induction h with
  | nil => exact ⟨.nil, rfl⟩
  | cons ha _ ih => exact ⟨.cons ha.1 ih.1, by rw [List.map_cons, List.map_cons, ha.2, ih.2]⟩

section

variable {self : Parser Pattern} (h : Reads self (Renders Pattern.Edited Pattern.words))
include h

theorem namedPattern (n : Ident) :
    Reads (Parser.namedPattern self n)
      (Behind (.ident n.name) (Renders Pattern.Edited Pattern.words)) := by
  refine bind (behind (by simp) h) fun inner d hd => ?_
  cases inner with
  | none =>
    exact pure (.keep ⟨by rw [show d = [] from hd]; exact .var, by
      simp [show d = [] from hd, Edit.target]⟩)
  | some p =>
    obtain ⟨d', ⟨hedit, hwords⟩, rfl⟩ := hd
    exact pure (.keep ⟨by simpa using hedit.named, by simp [Edit.target, hwords]⟩)

/-- Parentheses around a single pattern are left out. -/
theorem parenPattern (sp : Span) :
    Reads (Parser.parenPattern self sp)
      (Behind (.punct .lparen) (Renders Pattern.Edited Pattern.words)) := by
  refine onKind (by simp) (fun close => pure ?_) (bind h fun first d hfirst => ?_)
  · exact .keep (.keep ⟨.unit, rfl⟩)
  refine bind (eat (by simp)) fun more t hmore => ?_
  rcases hmore with ⟨rfl, rfl⟩ | ⟨rfl, rfl⟩
  · refine bind (separated (fun _ => itemThen h) 1) fun rest d' hrest => bind mark fun _ t ht =>
      pure (.keep ?_)
    obtain ⟨hne, ds, hds, rfl⟩ := hrest
    obtain ⟨hedits, hwords⟩ := forall₂_renders hds
    have hne' : ds ≠ [] := by
      rintro rfl
      cases hds
      exact hne rfl
    refine ⟨?_, ?_⟩
    · have htuple : Pattern.Edited (.tuple (first :: rest) sp) _ := .tuple (.cons hfirst.1 hedits)
      simpa [ht, Edits.joined_cons, hne'] using htuple
    · simp [ht, Edit.target, hfirst.2, Edits.target_joined, hwords, joinWords_cons, hne]
  · refine bind mark fun _ t ht => pure ⟨_, ⟨hfirst.1.grouped, ?_⟩, ?_⟩
    · simpa [Edit.target] using hfirst.2
    · simp [ht, Edit.source]

/-- A number without a sign is printed as it was read; parentheses around one pattern are dropped.
-/
theorem patternStep : Reads (Parser.patternStep self) (Renders Pattern.Edited Pattern.words) := by
  refine branch (fun _ => rfl) (fun k sp q hq hk => ?_) .fail
  cases k with
  | punct m =>
    cases m with
    | underscore => cases hq; exact pure (.keep ⟨.wild, rfl⟩)
    | minus =>
      cases hq
      refine branch (fun _ => rfl) (fun k sp q hq hk => ?_) .fail
      cases k with
      | number x =>
        cases hq
        refine pure (.keep (.keep ⟨.negative, ?_⟩))
        obtain ⟨hpos, hnum⟩ := TokenKind.isUnsigned_number.mp hk
        simp [Pattern.words_literal, Layout.literal, x.isNegative_neg, hpos, x.isNaN_neg, hnum,
          Number.abs, x.neg_neg, Edit.target]
      | _ => cases hq
    | lparen => cases hq; exact parenPattern h sp
    | lbracket =>
      cases hq
      refine bind (closed h) fun ps d hd => pure (.keep ?_)
      obtain ⟨ds, d', hds, hlist, rfl⟩ := hd
      obtain ⟨hedits, hwords⟩ := forall₂_renders hds
      exact ⟨by simpa using Pattern.Edited.vector hedits hlist, by
        simp [Edit.target, hlist.target_eq, hwords]⟩
    | _ => cases hq
  | keyword word =>
    cases word with
    | nil => cases hq; exact pure ⟨[nilToUnit], ⟨.nil, rfl⟩, rfl⟩
    | true_ | false_ => cases hq; exact pure (.keep ⟨.literal rfl (by simp), rfl⟩)
    | _ => cases hq
  | ident name => cases hq; exact namedPattern h ⟨name, sp⟩
  | number x =>
    cases hq
    exact pure (.keep ⟨.literal rfl (by simp), by
      simp [Pattern.words_literal, Layout.literal, (TokenKind.isUnsigned_number.mp hk).1,
        Edit.target]⟩)
  | str contents => cases hq; exact pure (.keep ⟨.literal rfl (by simp), rfl⟩)
  | eof => cases hq

end

/-- What a pattern is printed as comes from the tokens it was read from by edits. -/
theorem pattern : Reads Parser.pattern (Renders Pattern.Edited Pattern.words) :=
  fix (W := fun _ => Renders Pattern.Edited Pattern.words)
    (fun _ hself _ => patternStep (hself ())) ()

/-! ## Expressions -/

section

variable {self : Parser Expr} (h : Reads self (Renders Expr.Edited Expr.words))
include h

theorem letForm (sp : Span) :
    Reads (Parser.letForm self sp) (Behind (.keyword .let_) (Renders Expr.Edited Expr.words)) := by
  refine bind ident fun n d₁ h₁ => bind mark fun _ d₂ h₂ => bind h fun e d₃ h₃ =>
    bind word fun _ d₄ h₄ =>
    bind h fun body d₅ h₅ => pure (.keep ?_)
  subst h₁ h₂ h₄
  exact ⟨by simpa using h₃.1.letIn h₅.1, by simp [Edit.target, h₃.2, h₅.2]⟩

theorem ifForm (sp : Span) :
    Reads (Parser.ifForm self sp) (Behind (.keyword .if_) (Renders Expr.Edited Expr.words)) := by
  refine bind h fun c d₁ h₁ => bind word fun _ d₂ h₂ => bind h fun yes d₃ h₃ =>
    bind word fun _ d₄ h₄ =>
    bind h fun no d₅ h₅ => pure (.keep ?_)
  subst h₂ h₄
  exact ⟨by simpa using h₁.1.cond h₃.1 h₅.1, by simp [Edit.target, h₁.2, h₃.2, h₅.2]⟩

theorem caseArm : Reads (Parser.caseArm self) (Renders CaseArm.Edited CaseArm.words) := by
  refine bind pattern fun p d₁ h₁ => bind (behind (by simp) h) fun g d₂ h₂ =>
    bind word fun _ d₃ h₃ =>
    bind h fun body d₄ h₄ => pure ?_
  subst h₃
  cases g with
  | none =>
    obtain rfl : d₂ = [] := h₂
    exact ⟨by simpa using CaseArm.Edited.plain h₁.1 h₄.1, by simp [Edit.target, h₁.2, h₄.2]⟩
  | some g =>
    obtain ⟨d, hg, rfl⟩ := h₂
    exact ⟨by simpa using CaseArm.Edited.guarded h₁.1 hg.1 h₄.1, by
      simp [Edit.target, h₁.2, hg.2, h₄.2]⟩

/-- A comma behind the last arm is dropped. -/
theorem caseForm (sp : Span) :
    Reads (Parser.caseForm self sp) (Behind (.keyword .case) (Renders Expr.Edited Expr.words)) := by
  refine bind h fun e d₁ h₁ => bind word fun _ d₂ h₂ =>
    bind (delimited (caseArm h)) fun arms d₃ h₃ => pure (.keep ?_)
  obtain ⟨ds, d, hds, hlist, rfl⟩ := h₃
  obtain ⟨hedits, hwords⟩ := forall₂_renders hds
  subst h₂
  exact ⟨by simpa using h₁.1.case hedits hlist, by
    simp [Edit.target, h₁.2, hlist.target_eq, hwords]⟩

omit h in
theorem superForm (sp : Span) :
    Reads (Parser.superForm sp) (Behind (.keyword .super) (Renders Expr.Edited Expr.words)) := by
  refine bind mark fun _ d₁ h₁ => bind ident fun n d₂ h₂ => pure (.keep ?_)
  subst h₁ h₂
  exact ⟨.super, rfl⟩

/-- Nothing in parentheses is the unit, one expression a group and more a tuple. -/
theorem parenForm (sp : Span) :
    Reads (Parser.parenForm self sp)
      (Behind (.punct .lparen) (Renders Expr.Edited Expr.words)) := by
  refine onKind (by simp) (fun close => pure ?_) (bind h fun first d hfirst => ?_)
  · exact .keep ⟨[unitToNil], ⟨.unit, rfl⟩, rfl⟩
  refine bind (eat (by simp)) fun more t hmore => ?_
  rcases hmore with ⟨rfl, rfl⟩ | ⟨rfl, rfl⟩
  · refine bind (commaList h 1) fun rest d' hrest => bind mark fun _ t ht => pure (.keep ?_)
    obtain ⟨hne, ds, hds, rfl⟩ := hrest
    obtain ⟨hedits, hwords⟩ := forall₂_renders hds
    have hne' : ds ≠ [] := by
      rintro rfl
      cases hds
      exact hne rfl
    refine ⟨?_, ?_⟩
    · have htuple : Expr.Edited (.tuple (first :: rest) sp) _ := .tuple (.cons hfirst.1 hedits)
      simpa [ht, Edits.joined_cons, hne'] using htuple
    · simp [ht, Edit.target, hfirst.2, Edits.target_joined, hwords, joinWords_cons, hne]
  · refine bind mark fun _ t ht => pure (.keep ?_)
    subst ht
    exact ⟨by simpa using hfirst.1.grouping, by simp [Edit.target, hfirst.2]⟩

/-- One case for each form. -/
theorem primary : Reads (Parser.primary self) (Renders Expr.Edited Expr.words) := by
  refine branch (fun _ => rfl) (fun k sp q hq hk => ?_) .fail
  cases k with
  | punct m =>
    cases m with
    | lbracket =>
      cases hq
      refine bind (closed h) fun es d hd => pure (.keep ?_)
      obtain ⟨ds, d', hds, hlist, rfl⟩ := hd
      obtain ⟨hedits, hwords⟩ := forall₂_renders hds
      exact ⟨by simpa using Expr.Edited.vector hedits hlist, by
        simp [Edit.target, hlist.target_eq, hwords]⟩
    | lparen => cases hq; exact parenForm h sp
    | _ => cases hq
  | keyword word =>
    cases word with
    | nil | true_ | false_ => cases hq; exact pure (.keep ⟨.literal rfl, rfl⟩)
    | this => cases hq; exact pure (.keep ⟨.this, rfl⟩)
    | let_ => cases hq; exact letForm h sp
    | if_ => cases hq; exact ifForm h sp
    | case => cases hq; exact caseForm h sp
    | super => cases hq; exact superForm sp
    | do_ =>
      cases hq
      refine bind (delimited h) fun es d hd => pure (.keep ?_)
      obtain ⟨ds, d', hds, hlist, rfl⟩ := hd
      obtain ⟨hedits, hwords⟩ := forall₂_renders hds
      exact ⟨by simpa using Expr.Edited.seq hedits hlist, by
        simp [Edit.target, hlist.target_eq, hwords]⟩
    | _ => cases hq
  | ident name => cases hq; exact pure (.keep ⟨.var, rfl⟩)
  | number x =>
    cases hq
    exact pure (.keep ⟨.literal rfl, by
      simp [Expr.words_literal, Layout.literal, (TokenKind.isUnsigned_number.mp hk).1,
        Edit.target]⟩)
  | str contents => cases hq; exact pure (.keep ⟨.literal rfl, rfl⟩)
  | eof => cases hq

/-- A comma behind the last argument is an error, so there is none. -/
theorem arguments : Reads (Parser.arguments self) fun args d =>
    ∃ ds, List.Forall₂ (Renders Expr.Edited Expr.words) args ds ∧
      d = Edits.joined .comma ds ++ [keep (.punct .rparen)] := by
  refine bind (unlessAt (commaList h 0)) fun args d hargs => bind mark fun _ t ht => pure ?_
  subst ht
  cases args with
  | none => exact ⟨[], .nil, by simp [show d = [] from hargs, Edits.joined]⟩
  | some args =>
    obtain ⟨-, ds, hds, rfl⟩ := hargs
    exact ⟨ds, hds, by simp⟩

theorem postfixed : Reads (Parser.postfixed self) (Renders Expr.Edited Expr.words) := by
  refine bind (primary h) fun e d he =>
    bind (collect_foldl (V := Renders Expr.Edited Expr.words) (fun _ => ?_) 0)
    fun suffixes d' hs => pure (by simpa using hs e d he)
  refine branch (fun _ => rfl) (fun k sp q hq _ => ?_) (pure rfl)
  cases k with
  | punct m =>
    cases m with
    | lparen =>
      cases hq
      refine bind (arguments h) fun args d hd => pure (.keep fun e d₀ he => ?_)
      obtain ⟨ds, hds, rfl⟩ := hd
      obtain ⟨hedits, hwords⟩ := forall₂_renders hds
      refine ⟨by simpa [Suffix.apply] using he.1.call hedits, ?_⟩
      simp [Suffix.apply, Edit.target, he.2, Edits.target_joined, hwords]
    | dot =>
      cases hq
      refine bind ident fun n d hd => pure (.keep fun e d₀ he => ?_)
      subst hd
      exact ⟨he.1.get, by simp [Suffix.apply, Edit.target, he.2]⟩
    | _ => cases hq
  | _ => cases hq

theorem unary : Reads (Parser.unary self) (Renders Expr.Edited Expr.words) := by
  have hops : Reads Parser.unaryOps fun ops d => ∃ ds,
      List.Forall₂ (fun (op : UnaryOp × Span) d => d = [keep (.punct op.1.mark)]) ops ds ∧
        d = ds.flatten := by
    refine collect (fun _ => branch (fun _ => rfl) (fun k sp q hq _ => ?_) ?_) 0
    · obtain ⟨op, hop, rfl⟩ := Option.map_eq_some_iff.mp hq
      obtain rfl := UnaryOp.ofToken?_eq_some_iff.mp hop
      exact pure (.keep rfl)
    · exact pure rfl
  refine bind hops fun ops d hd => bind (postfixed h) fun e d' he => pure ?_
  obtain ⟨ds, hds, rfl⟩ := hd
  rw [List.append_nil]
  induction hds with
  | nil => exact he
  | cons hop _ ih =>
    subst hop
    exact ⟨by simpa using ih.1.unary, by simpa [Edit.target] using ih.2⟩

omit h in
/-- Operators and operands in the order in which they were read. -/
theorem chain {operand : Parser Expr} (h : Reads operand (Renders Expr.Edited Expr.words))
    (level : Nat) :
    Reads (Parser.chain level operand) (Renders Expr.Edited Expr.words) := by
  refine bind h fun first d hfirst =>
    bind (collect_foldl (V := Renders Expr.Edited Expr.words) (fun _ => ?_) 0)
    fun rest d' hrest => pure (by simpa using hrest first d hfirst)
  refine branch (fun _ => rfl) (fun k sp q hq _ => ?_) (pure rfl)
  simp only [Parser.chainForms] at hq
  split at hq
  · next op hop =>
    split at hq
    · cases hq
      obtain rfl := BinaryOp.ofToken?_eq_some_iff.mp hop
      refine bind h fun right d hright => pure (.keep fun left d₀ hleft => ?_)
      exact ⟨by simpa using hleft.1.binary hright.1, by simp [Edit.target, hleft.2, hright.2]⟩
    · cases hq
  · cases hq

theorem infixed : Reads (Parser.infixed self) (Renders Expr.Edited Expr.words) := by
  unfold Parser.infixed
  induction List.range 6 with
  | nil => exact unary h
  | cons level levels ih => exact chain ih level

theorem assignment : Reads (Parser.assignment self) (Renders Expr.Edited Expr.words) := by
  refine bind (infixed h) fun left d hleft =>
    onKind (by simp) (fun eq => ?_) (pure (by simpa using hleft))
  refine bind h fun value d' hvalue => ?_
  cases left with
  | var n =>
    obtain ⟨hedit, -⟩ := hleft
    cases hedit
    exact pure (.keep ⟨by simpa using hvalue.1.assign, by simp [Edit.target, hvalue.2]⟩)
  | get object n =>
    obtain ⟨hedit, hwords⟩ := hleft
    cases hedit with
    | get hobject =>
      rw [Edits.target_append, Expr.words_get] at hwords
      have hobject' := List.append_cancel_right hwords
      exact pure (.keep ⟨by simpa using hobject.set hvalue.1, by
        simp [Edit.target, hobject', hvalue.2]⟩)
  | _ =>
    intro _ _ _ _ _ hp
    cases hp

end

/-- What an expression is printed as comes from its tokens by edits. -/
theorem expression : Reads Parser.expression (Renders Expr.Edited Expr.words) :=
  fix (W := fun _ => Renders Expr.Edited Expr.words) (fun _ hself _ => assignment (hself ())) ()

/-! ## Statements -/

/-- A clause that is left out has no tokens on either side. -/
theorem clause {e : Option Expr} (h : Part (Renders Expr.Edited Expr.words) e d) :
    Expr.ClauseEdited e d ∧ d.target = e.elim [] Expr.words := by
  cases e with
  | none =>
    obtain rfl : d = [] := h
    exact ⟨.none, rfl⟩
  | some e => exact ⟨.some h.1, h.2⟩

theorem varDecl :
    Reads Parser.varDecl
      (Behind (.keyword .var) fun s d => Stmt.VarEdited s d ∧ d.target = s.words) := by
  refine bind ident fun n d₁ h₁ => bind (behind (by simp) expression) fun e d₂ h₂ =>
    bind mark fun _ d₃ h₃ =>
    pure (.keep ?_)
  subst h₁ h₃
  cases e with
  | none =>
    obtain rfl : d₂ = [] := h₂
    exact ⟨.plain, rfl⟩
  | some e =>
    obtain ⟨d, he, rfl⟩ := h₂
    exact ⟨by simpa using Stmt.VarEdited.initialized he.1, by simp [Edit.target, he.2]⟩

theorem forInitializer : Reads Parser.forInitializer fun s d =>
    Stmt.InitialEdited s d ∧ d.target = s.elim [.punct .semicolon] Stmt.words := by
  refine onKind (by simp) (fun _ => pure (.keep ⟨.none, rfl⟩)) ?_
  refine bind (W := fun s d => Stmt.InitialEdited (some s) d ∧ d.target = s.words) ?_ fun s d hs =>
    pure (by simpa using hs)
  refine onKind (by simp) (fun _ => varDecl.mono ?_) ?_
  · rintro s d ⟨d', ⟨hedit, hwords⟩, hsource⟩
    exact ⟨d', ⟨.varDecl hedit, hwords⟩, hsource⟩
  · refine bind expression fun e d he => bind mark fun _ t ht => pure ?_
    subst ht
    exact ⟨by simpa using Stmt.InitialEdited.expr he.1, by simp [Edit.target, he.2]⟩

theorem returnValue : Reads Parser.returnValue (Part (Renders Expr.Edited Expr.words)) := by
  refine look (fun cx ts => ⟨_, quiet_peek⟩) fun t => ?_
  cases t.kind.beginsExpr with
  | true => exact bind expression fun e d he => pure (by simpa [Part] using he)
  | false => exact pure rfl

/-- A semicolon that is missing is put in. -/
theorem exprStatement : Reads Parser.exprStatement (Renders Stmt.Edited Stmt.words) := by
  refine bind expression fun e d he => bind semicolon fun _ t ht => pure ?_
  exact ⟨by simpa using Stmt.Edited.expr he.1 ht, by simp [he.2, ht.target_eq]⟩

theorem parameters :
    Reads (Parser.unlessAt (.punct .rparen)
      (Parser.commaList .parameters (Parser.ident "parameter name") 0))
      fun params d =>
        d = Edits.joined .comma ((params.getD []).map fun param => [keep (.ident param.name)]) := by
  refine (unlessAt (commaList ident 0)).mono fun params d hd => ?_
  cases params with
  | none => exact hd
  | some params =>
    obtain ⟨-, ds, hds, rfl⟩ := hd
    congr 1
    induction hds with
    | nil => rfl
    | cons hn _ ih => rw [hn, ih]; rfl

theorem target_parameters (params : List Ident) :
    (Edits.joined .comma (params.map fun param => [keep (.ident param.name)])).target =
      joinWords (.punct .comma) (params.map fun param => [.ident param.name]) := by
  rw [Edits.target_joined, List.map_map]
  rfl

/-- The edits of a declaration that was not given up. -/
def Found (r : Option Stmt) (d : Edits) : Prop :=
  ∃ s, r = some s ∧ Renders Stmt.Edited Stmt.words s d

/-- Without errors no statement of a block was given up. -/
theorem forall₂_found (h : List.Forall₂ Found found ds) :
    List.Forall₂ Stmt.Edited (found.filterMap id) ds ∧
      ds.map Edits.target = (found.filterMap id).map Stmt.words := by
  refine forall₂_renders ?_
  induction h with
  | nil => exact .nil
  | cons hs _ ih =>
    obtain ⟨s, rfl, hs⟩ := hs
    exact .cons hs ih

section

variable {self : Level → Parser Stmt} (h : ∀ l, Reads (self l) (Renders Stmt.Edited Stmt.words))
include h

theorem blockBody : Reads (Parser.blockBody self) fun ss d => ∃ ds, List.Forall₂ Stmt.Edited ss ds ∧
    ds.map Edits.target = ss.map Stmt.words ∧ d = ds.flatten ++ [keep (.punct .rbrace)] := by
  refine bind (itemsUntil (recovering (h .declaration))) fun ss d hd =>
    bind mark fun _ t ht => pure ?_
  obtain ⟨ds, hds, rfl⟩ := hd
  obtain ⟨hedits, hwords⟩ := forall₂_found hds
  exact ⟨ds, hedits, hwords, by simp [ht]⟩

theorem function :
    Reads (Parser.function self context) (Renders FunctionDecl.Edited FunctionDecl.words) := by
  refine bind ident fun n d₁ h₁ => bind mark fun _ d₂ h₂ => bind parameters fun params d₃ h₃ =>
    bind mark fun _ d₄ h₄ => bind mark fun _ d₅ h₅ => bind (blockBody h) fun body d₆ h₆ => pure ?_
  obtain ⟨ds, hedits, hwords, rfl⟩ := h₆
  subst h₁ h₂ h₃ h₄ h₅
  refine ⟨by simpa using FunctionDecl.Edited.mk hedits, ?_⟩
  simp [Edit.target, target_parameters, hwords, List.flatMap_def]

theorem classDecl :
    Reads (Parser.classDecl self) (Behind (.keyword .class_) (Renders Stmt.Edited Stmt.words)) := by
  refine bind ident fun n d₁ h₁ => bind (behind (by simp) ident) fun m d₂ h₂ =>
    bind mark fun _ d₃ h₃ =>
    bind (itemsUntil (function h)) fun fs d₄ h₄ => bind mark fun _ d₅ h₅ => pure (.keep ?_)
  obtain ⟨ds, hds, rfl⟩ := h₄
  obtain ⟨hedits, hwords⟩ := forall₂_renders hds
  subst h₁ h₃ h₅
  cases m with
  | none =>
    obtain rfl : d₂ = [] := h₂
    exact ⟨by simpa using Stmt.Edited.classDecl hedits, by
      simp [Edit.target, hwords, List.flatMap_def]⟩
  | some m =>
    obtain ⟨d, rfl, rfl⟩ := h₂
    exact ⟨by simpa using Stmt.Edited.subclass hedits, by
      simp [Edit.target, hwords, List.flatMap_def]⟩

theorem forLoop (sp : Span) :
    Reads (Parser.forLoop self sp) (Behind (.keyword .for_) (Renders Stmt.Edited Stmt.words)) := by
  refine bind mark fun _ d₁ h₁ => bind forInitializer fun init d₂ h₂ =>
    bind (unlessAt expression) fun c d₃ h₃ =>
    bind mark fun _ d₄ h₄ => bind (unlessAt expression) fun inc d₅ h₅ => bind mark fun _ d₆ h₆ =>
    bind (h .statement) fun body d₇ h₇ => pure (.keep ?_)
  obtain ⟨hc, hcwords⟩ := clause h₃
  obtain ⟨hinc, hincwords⟩ := clause h₅
  subst h₁ h₄ h₆
  refine ⟨by simpa using Stmt.Edited.forLoop h₂.1 hc hinc h₇.1, ?_⟩
  simp [Edit.target, h₂.2, hcwords, hincwords, h₇.2]

/-- One case for each keyword that a statement starts with. -/
theorem statement : Reads (Parser.statement self) (Renders Stmt.Edited Stmt.words) := by
  refine branch (fun _ => rfl) (fun k sp q hq _ => ?_) exprStatement
  cases k with
  | punct m =>
    cases m with
    | lbrace =>
      cases hq
      refine bind (blockBody h) fun ss d hd => pure (.keep ?_)
      obtain ⟨ds, hedits, hwords, rfl⟩ := hd
      exact ⟨by simpa using Stmt.Edited.block hedits, by
        simp [Edit.target, hwords, List.flatMap_def]⟩
    | _ => cases hq
  | keyword word =>
    cases word with
    | print =>
      cases hq
      refine bind expression fun e d he => bind semicolon fun _ t ht => pure (.keep ?_)
      exact ⟨by simpa using Stmt.Edited.print he.1 ht, by simp [Edit.target, he.2, ht.target_eq]⟩
    | return_ =>
      cases hq
      refine bind returnValue fun e d he => bind semicolon fun _ t ht => pure (.keep ?_)
      obtain ⟨hedit, hwords⟩ := clause he
      refine ⟨by simpa using Stmt.Edited.ret hedit ht, ?_⟩
      cases e <;> simp [Edit.target, hwords, ht.target_eq]
    | while_ =>
      cases hq
      refine bind expression fun c d hc => bind (h .statement) fun body d' hbody => pure (.keep ?_)
      exact ⟨by simpa using Stmt.Edited.whileLoop hc.1 hbody.1, by
        simp [Edit.target, hc.2, hbody.2]⟩
    | loop =>
      cases hq
      refine bind mark fun _ t ht => bind (blockBody h) fun ss d hd => pure (.keep ?_)
      obtain ⟨ds, hedits, hwords, rfl⟩ := hd
      subst ht
      exact ⟨by simpa using Stmt.Edited.forever hedits, by
        simp [Edit.target, hwords, List.flatMap_def]⟩
    | for_ => cases hq; exact forLoop h sp
    | _ => cases hq
  | _ => cases hq

theorem declaration : Reads (Parser.declaration self) (Renders Stmt.Edited Stmt.words) := by
  refine branch (fun _ => rfl) (fun k sp q hq _ => ?_) (statement h)
  cases k with
  | keyword word =>
    cases word with
    | class_ => cases hq; exact classDecl h
    | fn =>
      cases hq
      refine bind (function h) fun f d hf => pure (.keep ?_)
      exact ⟨by simpa using Stmt.Edited.fnDecl hf.1, by simp [Edit.target, hf.2]⟩
    | var =>
      cases hq
      refine varDecl.mono ?_
      rintro s d ⟨d', ⟨hedit, hwords⟩, hsource⟩
      exact ⟨d', ⟨.varDecl hedit, hwords⟩, hsource⟩
    | _ => cases hq
  | _ => cases hq

end

/-- What a statement is printed as comes from its tokens by edits, by induction on the tokens ahead.
-/
theorem stmt (l : Level) : Reads (Parser.stmt l) (Renders Stmt.Edited Stmt.words) := by
  refine fix (W := fun _ => Renders Stmt.Edited Stmt.words) (fun self hself l => ?_) l
  cases l with
  | declaration => exact declaration hself
  | statement => exact statement hself

/-- The same for all statements of a program. -/
theorem programBody : Reads Parser.programBody fun p d =>
    p.Edited d ∧ d.target = p.statements.flatMap Stmt.words := by
  refine bind
    (collect (W := Found) (fun _ => look (fun cx ts => ⟨_, quiet_check .eof⟩) fun b => ?_) 0)
    fun ss d hd => pure ?_
  · cases b with
    | true => exact pure rfl
    | false =>
      exact bind (recovering (stmt .declaration)) fun r d hr =>
        pure (by simpa [Listing, Found] using hr)
  · obtain ⟨ds, hds, rfl⟩ := hd
    obtain ⟨hedits, hwords⟩ := forall₂_found hds
    exact ⟨⟨ds, hedits, by simp⟩, by simp [hwords, List.flatMap_def]⟩

end Reads

end Parser

/-! ## Programs -/

/-- What edits put in are marks and keywords, which are always read back. -/
theorem Edits.readable_target {d : Edits} (h : ∀ k ∈ d.source, k.Readable names) :
    ∀ k ∈ d.target, k.Readable names := by
  intro k hk
  obtain ⟨e, he, hk⟩ := List.mem_flatMap.mp hk
  cases e with
  | keep kind => exact h k (List.mem_flatMap.mpr ⟨_, he, hk⟩)
  | add mark => cases List.mem_singleton.mp hk; trivial
  | drop mark => exact absurd hk List.not_mem_nil
  | unitToNil => cases List.mem_singleton.mp hk; trivial
  | nilToUnit =>
    rcases List.mem_pair.mp hk with rfl | rfl <;> trivial

theorem takeWhile_not_eof {tokens : List Token} :
    ∀ t ∈ tokens.takeWhile (!·.isEof), t.kind ≠ .eof := by
  intro t ht heof
  have hnot := List.all_eq_true.mp List.all_takeWhile t ht
  simp [Token.isEof, heof, TokenKind.isEof] at hnot

/-- What was not read would start with an end mark. -/
theorem Parser.programBody_reads_all (hunsigned : ∀ t ∈ ts, t.kind.isUnsigned = true)
    (heof : ∀ t ∈ ts, t.kind ≠ .eof) (h : programBody.quiet cx ts = some (p, rest)) :
    rest = [] := by
  have hrest := programBody_rest h
  obtain ⟨d, -, hsource⟩ := Reads.programBody _ _ _ _ (List.forall_mem_map.mpr hunsigned) h
  cases rest with
  | nil => rfl
  | cons t rest =>
    have hmem : t.kind ∈ ts.map Token.kind := by simp [hsource]
    obtain ⟨t', ht', hkind⟩ := List.mem_map.mp hmem
    exact absurd (hkind.trans hrest) (heof t' ht')

/-- A program that was read without errors holds all of its tokens: edits along the tree lead from
them, in order and none twice, to the tokens of the canonical layout. These are also what the
canonical text is scanned as, if the names and numbers of the source are such as a scanner finds. -/
theorem canonical_tokens_come_from_source (source : String) (tokens : List Token)
    (herrors : (parse source tokens).errors = [])
    (hunsigned : ∀ t ∈ tokens.takeWhile (!·.isEof), t.kind.isUnsigned = true) :
    ∃ d : Edits, (parse source tokens).program.Edited d ∧
      d.source = (tokens.takeWhile (!·.isEof)).map Token.kind ∧
      (∀ indent, (Layout.program indent (parse source tokens).program).tokens = d.target) ∧
      ∀ names indent, Layout.Blank indent →
        (∀ t ∈ tokens.takeWhile (!·.isEof), t.kind.Readable names) →
        let found := scan names ((parse source tokens).program.text names indent)
        found.errors = [] ∧ found.tokens.map Token.kind = d.target ++ [.eof] := by
  obtain ⟨rest, hquiet⟩ := parse_eq_iff.mpr ⟨herrors, rfl⟩
  obtain rfl := Parser.programBody_reads_all hunsigned takeWhile_not_eof hquiet
  obtain ⟨d, ⟨hedits, htarget⟩, hsource⟩ :=
    Parser.Reads.programBody _ _ _ _ (List.forall_mem_map.mpr hunsigned) hquiet
  rw [List.map_nil, List.append_nil] at hsource
  have hlayout : ∀ indent, (Layout.program indent (parse source tokens).program).tokens =
      d.target :=
    fun indent => (Layout.tokens_program indent _).trans htarget.symm
  refine ⟨d, hedits, hsource.symm, hlayout, fun names indent hindent hreadable => ?_⟩
  have htokens : ∀ k ∈ (Layout.program indent (parse source tokens).program).tokens,
      k.Readable names := by
    rw [hlayout]
    exact Edits.readable_target (hsource ▸ List.forall_mem_map.mpr hreadable)
  obtain ⟨found, hscan, hkinds⟩ := scan_text (Layout.spaced_program hindent _) htokens
  rw [Program.text, hscan]
  exact ⟨rfl, by simp [hkinds, hlayout, Scan.endMark]⟩

/-- Here every kind of edit occurs. -/
theorem trailing_marks_and_units_come_from_source :
    let tokens :=
      (scan .empty
          "print [1,] case x of \x7b (a) then (), nil then do \x7b 2; \x7d, \x7d return").tokens
    (parse "" tokens).errors = [] ∧ (∀ t ∈ tokens.takeWhile (!·.isEof), t.kind.isUnsigned = true) ∧
      ∃ d : Edits, (parse "" tokens).program.Edited d ∧
        d.source = (tokens.takeWhile (!·.isEof)).map Token.kind ∧
        (∀ indent, (Layout.program indent (parse "" tokens).program).tokens = d.target) ∧
        ∀ names indent, Layout.Blank indent →
          (∀ t ∈ tokens.takeWhile (!·.isEof), t.kind.Readable names) →
          let found := scan names ((parse "" tokens).program.text names indent)
          found.errors = [] ∧ found.tokens.map Token.kind = d.target ++ [.eof] := by
  intro tokens
  have hall : (parse "" tokens).errors.isEmpty = true ∧
      ∀ t ∈ tokens.takeWhile (!·.isEof), t.kind.isUnsigned = true := by
    decide +kernel
  have herrors : (parse "" tokens).errors = [] := List.isEmpty_iff.mp hall.1
  exact ⟨herrors, hall.2, canonical_tokens_come_from_source "" tokens herrors hall.2⟩

end TreeWalk
