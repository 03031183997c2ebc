import TreeWalk.Proofs.Parser.Recovery
import TreeWalk.Proofs.Parser.Written

/-!
# Limits on lists

The grammar in terms of `Consumes`, one production after the other. So a program with no errors but
those of lists that are too long is written with all of its tokens. Its lists of parameters,
arguments and tuple elements are found on the tree (`Program.lists`), and each of them that is too
long has its one error, at the first token of the first item that is too many.
-/

namespace TreeWalk

open Piece

namespace Parser

namespace Consumes

theorem ne_nil_of_forall₂ {R : α → β → Prop} {as : List α} {bs : List β} (h : List.Forall₂ R as bs)
    (hne : as ≠ []) :
    bs ≠ [] := by
  rintro rfl
  cases h
  exact hne rfl

/-! ## Patterns -/

section

variable {self : Parser Pattern} (h : Consumes self Pattern.Written)
include h

theorem namedPattern (x : Ident) :
    Consumes (Parser.namedPattern self x) fun p d => p.Written (x.piece :: d) := by
  refine bind (behind (by simp) h) fun inner d hd => ?_
  cases inner with
  | none =>
    obtain rfl : d = [] := hd
    exact pure .var
  | some p =>
    obtain ⟨sp, d', hp, rfl⟩ := hd
    exact pure (by simpa using hp.named)

theorem parenPattern (sp : Span) :
    Consumes (Parser.parenPattern self sp) fun p d =>
      p.Written (token (.punct .lparen) sp :: d) := by
  refine onKind (by simp) (fun close => pure .unit) (bind h fun first d hfirst => ?_)
  refine bind (eat (by simp)) fun more t hmore => ?_
  rcases hmore with ⟨rfl, sp', rfl⟩ | ⟨rfl, rfl⟩
  · refine bind (separated (fun n => itemThen h n) 1) fun rest d' hrest =>
      bind mark fun t e he => pure ?_
    obtain ⟨hne, ds, hds, hjoined⟩ := hrest
    have hall : Pieces.Joined .comma none 0 (d :: ds) (d ++ token (.punct .comma) sp' :: d') :=
      .cons (ne_nil_of_forall₂ hds hne) hjoined
    have htwo : 2 ≤ (first :: rest).length := Nat.succ_le_succ (List.length_pos_iff.mpr hne)
    simpa [he] using Pattern.Written.tuple htwo (.cons hfirst hds) hall
  · refine bind mark fun t e he => pure ?_
    simpa [he] using hfirst.grouped

omit h in
theorem negativeNumber (sp : Span) :
    Consumes (Parser.negativeNumber sp) fun p d => p.Written (token (.punct .minus) sp :: d) := by
  refine branch (fun _ => rfl) (fun k sp' q hq => ?_) .fail
  cases k with
  | number x =>
    cases hq
    exact pure .negative
  | _ => cases hq

/-- One case for each form of a pattern. -/
theorem patternStep : Consumes (Parser.patternStep self) Pattern.Written := by
  refine branch (fun _ => rfl) (fun k sp q hq => ?_) .fail
  cases k with
  | punct m =>
    cases m with
    | underscore => cases hq; exact pure .wild
    | minus => cases hq; exact negativeNumber sp
    | lparen => cases hq; exact parenPattern h sp
    | lbracket =>
      cases hq
      refine bind (closed h) fun ps d hd => pure ?_
      obtain ⟨ds, d', sp', hds, hlist, rfl⟩ := hd
      simpa using Pattern.Written.vector hds hlist
    | _ => cases hq
  | keyword word =>
    cases word with
    | nil => cases hq; exact pure .nil
    | true_ | false_ => cases hq; exact pure (.literal rfl (by simp))
    | _ => cases hq
  | number x | str x => cases hq; exact pure (.literal rfl (by simp))
  | ident name => cases hq; exact namedPattern h ⟨name, sp⟩
  | eof => cases hq

end

/-- A pattern is written with the tokens it was read from. -/
theorem pattern : Consumes Parser.pattern Pattern.Written :=
  fix (W := fun _ => Pattern.Written) (fun _ cx ts => (Plain.pattern.errors cx ts).1)
    (fun _ hself _ _ => patternStep (hself ())) ()

/-! ## Expressions -/

section

variable {self : Parser Expr} (h : Consumes self Expr.Written)
include h

theorem letForm (sp : Span) :
    Consumes (Parser.letForm self sp) fun e d => e.Written (token (.keyword .let_) sp :: d) := by
  refine bind ident fun x d₁ h₁ => bind mark fun _ d₂ h₂ => bind h fun e d₃ h₃ =>
    bind word fun _ d₄ h₄ =>
    bind h fun body d₅ h₅ => pure ?_
  subst h₁ h₂ h₄
  simpa using h₃.letIn h₅

theorem ifForm (sp : Span) :
    Consumes (Parser.ifForm self sp) fun e d => e.Written (token (.keyword .if_) sp :: d) := by
  refine bind h fun c d₁ h₁ => bind word fun _ d₂ h₂ => bind h fun yes d₃ h₃ =>
    bind word fun _ d₄ h₄ =>
    bind h fun no d₅ h₅ => pure ?_
  subst h₂ h₄
  simpa using h₁.cond h₃ h₅

theorem caseArm : Consumes (Parser.caseArm self) CaseArm.Written := by
  refine bind pattern fun p d₁ h₁ => bind (behind (by simp) h) fun g d₂ h₂ =>
    bind word fun _ d₃ h₃ =>
    bind h fun body d₄ h₄ => pure ?_
  subst h₃
  cases g with
  | none =>
    obtain rfl : d₂ = [] := h₂
    simpa using CaseArm.Written.plain h₁ h₄
  | some g =>
    obtain ⟨sp, d, hg, rfl⟩ := h₂
    simpa using CaseArm.Written.guarded h₁ hg h₄

/-- Arms are not limited in number. -/
theorem caseForm (sp : Span) :
    Consumes (Parser.caseForm self sp) fun e d => e.Written (token (.keyword .case) sp :: d) := by
  refine bind h fun e d₁ h₁ => bind word fun _ d₂ h₂ =>
    bind (delimited (caseArm h)) fun arms d₃ h₃ => pure ?_
  obtain ⟨ds, d, sp', sp'', hds, hlist, rfl⟩ := h₃
  subst h₂
  simpa using h₁.case hds hlist

omit h in
theorem superForm (sp : Span) :
    Consumes (Parser.superForm sp) fun e d => e.Written (token (.keyword .super) sp :: d) := by
  refine bind mark fun _ d₁ h₁ => bind ident fun x d₂ h₂ => pure ?_
  subst h₁ h₂
  exact .super

theorem parenForm (sp : Span) :
    Consumes (Parser.parenForm self sp) fun e d => e.Written (token (.punct .lparen) sp :: d) := by
  refine onKind (by simp) (fun close => pure .unit) (bind h fun first d hfirst => ?_)
  refine bind (eat (by simp)) fun more t hmore => ?_
  rcases hmore with ⟨rfl, sp', rfl⟩ | ⟨rfl, rfl⟩
  · refine bind (commaList h 1) fun rest d' hrest => bind mark fun t e he => pure ?_
    obtain ⟨hne, ds, hds, hjoined⟩ := hrest
    have hall : Pieces.Joined .comma (some .tupleElements) 0 (d :: ds)
        (d ++ token (.punct .comma) sp' :: d') :=
      .cons (ne_nil_of_forall₂ hds hne) hjoined
    have htwo : 2 ≤ (first :: rest).length := Nat.succ_le_succ (List.length_pos_iff.mpr hne)
    simpa [he] using Expr.Written.tuple htwo (.cons hfirst hds) hall
  · refine bind mark fun t e he => pure ?_
    simpa [he] using hfirst.grouping

/-- One case for each form. -/
theorem primary : Consumes (Parser.primary self) Expr.Written := by
  refine branch (fun _ => rfl) (fun k sp q hq => ?_) .fail
  cases k with
  | punct m =>
    cases m with
    | lbracket =>
      cases hq
      refine bind (closed h) fun es d hd => pure ?_
      obtain ⟨ds, d', sp', hds, hlist, rfl⟩ := hd
      simpa using Expr.Written.vector hds hlist
    | lparen => cases hq; exact parenForm h sp
    | _ => cases hq
  | keyword word =>
    cases word with
    | nil | true_ | false_ => cases hq; exact pure (.literal rfl)
    | this => cases hq; exact pure .this
    | let_ => cases hq; exact letForm h sp
    | if_ => cases hq; exact ifForm h sp
    | case => cases hq; exact caseForm h sp
    | super => cases hq; exact superForm sp
    | do_ =>
      cases hq
      refine bind (delimited h) fun es d hd => pure ?_
      obtain ⟨ds, d', sp', sp'', hds, hlist, rfl⟩ := hd
      simpa using Expr.Written.seq hds hlist
    | _ => cases hq
  | ident name => cases hq; exact pure .var
  | number x | str x => cases hq; exact pure (.literal rfl)
  | eof => cases hq

/-- A list of more than 255 arguments is marked at its 256th. -/
theorem arguments :
    Consumes (Parser.arguments self) fun args d => ∃ ds d' sp, List.Forall₂ Expr.Written args ds ∧
    Pieces.Joined .comma (some .arguments) 0 ds d' ∧ d = d' ++ [token (.punct .rparen) sp] := by
  refine bind (unlessAt (commaList h 0)) fun args d hargs => bind mark fun t e he => pure ?_
  subst he
  cases args with
  | none =>
    obtain rfl : d = [] := hargs
    exact ⟨[], [], t.span, .nil, .nil, rfl⟩
  | some args =>
    obtain ⟨-, ds, hds, hjoined⟩ := hargs
    exact ⟨ds, d, t.span, hds, hjoined, by simp⟩

theorem postfixed : Consumes (Parser.postfixed self) Expr.Written := by
  refine bind (primary h) fun e d he => bind (collect_foldl (V := Expr.Written) (fun _ => ?_) 0)
    fun suffixes d' hs => pure (by simpa using hs e d he)
  refine branch (fun _ => rfl) (fun k sp q hq => ?_) (pure rfl)
  cases k with
  | punct m =>
    cases m with
    | lparen =>
      cases hq
      refine bind (arguments h) fun args d hd => pure fun e d₀ he => ?_
      obtain ⟨ds, d', sp', hds, hjoined, rfl⟩ := hd
      simpa [Suffix.apply] using he.call hds hjoined
    | dot =>
      cases hq
      refine bind ident fun x d hd => pure fun e d₀ he => ?_
      subst hd
      exact he.get
    | _ => cases hq
  | _ => cases hq

theorem unary : Consumes (Parser.unary self) Expr.Written := by
  have hops : Consumes Parser.unaryOps fun ops d => ∃ ds,
      List.Forall₂ (fun (op : UnaryOp × Span) d => d = [token (.punct op.1.mark) op.2]) ops ds ∧
        d = ds.flatten := by
    refine collect (fun _ => branch (fun _ => rfl) (fun k sp q hq => ?_) ?_) 0
    · obtain ⟨op, hop, rfl⟩ := Option.map_eq_some_iff.mp hq
      obtain rfl := UnaryOp.ofToken?_eq_some_iff.mp hop
      exact pure rfl
    · exact pure rfl
  refine bind hops fun ops d hd => bind (postfixed h) fun e d' he => pure ?_
  obtain ⟨ds, hds, rfl⟩ := hd
  rw [List.append_nil]
  induction hds with
  | nil => exact he
  | cons hop _ ih =>
    subst hop
    exact ih.unary

omit h in
theorem chain {operand : Parser Expr} (h : Consumes operand Expr.Written) (level : Nat) :
    Consumes (Parser.chain level operand) Expr.Written := by
  refine bind h fun first d hfirst => bind (collect_foldl (V := Expr.Written) (fun _ => ?_) 0)
    fun rest d' hrest => pure (by simpa using hrest first d hfirst)
  refine branch (fun _ => rfl) (fun k sp q hq => ?_) (pure rfl)
  simp only [Parser.chainForms] at hq
  split at hq
  · next op hop =>
    split at hq
    · cases hq
      obtain rfl := BinaryOp.ofToken?_eq_some_iff.mp hop
      exact bind h fun right d hright => pure fun left d₀ hleft => by
        simpa using hleft.binary hright
    · cases hq
  · cases hq

theorem infixed : Consumes (Parser.infixed self) Expr.Written := by
  unfold Parser.infixed
  induction List.range 6 with
  | nil => exact unary h
  | cons level levels ih => exact chain ih level

theorem assignment : Consumes (Parser.assignment self) Expr.Written := by
  refine bind (infixed h) fun left d hleft =>
    onKind (by simp) (fun sp => ?_) (pure (by simpa using hleft))
  refine bind h fun value d' hvalue => ?_
  cases left with
  | var x =>
    cases hleft
    exact pure (by simpa using hvalue.assign)
  | get object x =>
    cases hleft with
    | get hobject => exact pure (by simpa using hobject.set hvalue)
  | _ =>
    -- the target cannot be assigned to, which is an error of its own
    intro cx ts e s hs honly
    cases hs
    obtain ⟨kind, span, heq⟩ :=
      honly (.invalidAssignmentTarget sp) (by simp [State.errors, Note.error?])
    cases heq

end

/-- An expression is written with the tokens it was read from. -/
theorem expression : Consumes Parser.expression Expr.Written :=
  fix (W := fun _ => Expr.Written) (fun _ cx ts => (Plain.expression.errors cx ts).1)
    (fun _ hself _ _ => assignment (hself ())) ()

/-! ## Statements -/

theorem clause {e : Option Expr} (h : Part Expr.Written e d) : Expr.ClauseWritten e d := by
  cases e with
  | none =>
    obtain rfl : d = [] := h
    exact .none
  | some e => exact .some h

theorem varDecl :
    Consumes Parser.varDecl fun s d => ∀ sp, Stmt.VarWritten s (token (.keyword .var) sp :: d) := by
  refine bind ident fun x d₁ h₁ => bind (behind (by simp) expression) fun e d₂ h₂ =>
    bind mark fun _ d₃ h₃ =>
    pure fun sp => ?_
  subst h₁ h₃
  cases e with
  | none =>
    obtain rfl : d₂ = [] := h₂
    exact .plain
  | some e =>
    obtain ⟨sp', d, he, rfl⟩ := h₂
    simpa using Stmt.VarWritten.initialized he

theorem forInitializer : Consumes Parser.forInitializer Stmt.InitialWritten := by
  refine onKind (by simp) (fun _ => pure .none) ?_
  refine bind (W := fun s d => Stmt.InitialWritten (some s) d) ?_ fun s d hs =>
    pure (by simpa using hs)
  refine onKind (by simp) (fun sp => varDecl.mono fun s d hs => .varDecl (hs sp)) ?_
  refine bind expression fun e d he => bind mark fun _ t ht => pure ?_
  subst ht
  simpa using Stmt.InitialWritten.expr he

theorem returnValue : Consumes Parser.returnValue (Part Expr.Written) := by
  refine look (fun _ _ => ⟨_, rfl⟩) fun t => ?_
  cases t.kind.beginsExpr with
  | true => exact bind expression fun e d he => pure (by simpa [Part] using he)
  | false => exact pure rfl

theorem exprStatement : Consumes Parser.exprStatement Stmt.Written :=
  bind expression fun e d he => bind semicolon fun _ t ht =>
    pure (by simpa using Stmt.Written.expr he ht)

/-- Parameters are limited as arguments are. -/
theorem parameters :
    Consumes (Parser.unlessAt (.punct .rparen)
      (Parser.commaList .parameters (Parser.ident "parameter name") 0))
      fun params d =>
        Pieces.Joined .comma (some .parameters) 0 ((params.getD []).map fun x => [x.piece]) d := by
  refine (unlessAt (commaList ident 0)).mono fun params d hd => ?_
  cases params with
  | none =>
    obtain rfl : d = [] := hd
    exact .nil
  | some params =>
    obtain ⟨-, ds, hds, hjoined⟩ := hd
    have hmap : ds = params.map fun x => [x.piece] := by
      clear hjoined
      induction hds with
      | nil => rfl
      | cons hx _ ih => rw [hx, ih, List.map_cons]
    exact hmap ▸ hjoined

/-- The declarations that were found are all there. -/
theorem forall₂_found (h : List.Forall₂ (fun r d => ∃ s, r = some s ∧ Stmt.Written s d) found ds) :
    List.Forall₂ Stmt.Written (found.filterMap id) ds := by
  induction h with
  | nil => exact .nil
  | cons hs _ ih =>
    obtain ⟨s, rfl, hs⟩ := hs
    exact .cons hs ih

section

variable {self : Level → Parser Stmt} (h : ∀ l, Consumes (self l) Stmt.Written)
  (hfail : ∀ l, FailsFatally (self l))
include h hfail

theorem blockBody :
    Consumes (Parser.blockBody self) fun ss d => ∃ ds sp, List.Forall₂ Stmt.Written ss ds ∧
    d = ds.flatten ++ [token (.punct .rbrace) sp] := by
  refine bind (itemsUntil (recovering (h .declaration) (hfail .declaration))) fun ss d hd =>
    bind mark fun t e he => pure ?_
  obtain ⟨ds, hds, rfl⟩ := hd
  exact ⟨ds, t.span, forall₂_found hds, by simp [he]⟩

theorem function : Consumes (Parser.function self context) FunctionDecl.Written := by
  refine bind ident fun x d₁ h₁ => bind mark fun _ d₂ h₂ => bind parameters fun params d₃ h₃ =>
    bind mark fun _ d₄ h₄ => bind mark fun _ d₅ h₅ =>
      bind (blockBody h hfail) fun body d₆ h₆ => pure ?_
  obtain ⟨ds, sp, hds, rfl⟩ := h₆
  subst h₁ h₂ h₄ h₅
  simpa using FunctionDecl.Written.mk h₃ hds

theorem classDecl :
    Consumes (Parser.classDecl self) fun s d =>
      ∀ sp, Stmt.Written s (token (.keyword .class_) sp :: d) := by
  refine bind ident fun x d₁ h₁ => bind (behind (by simp) ident) fun sup d₂ h₂ =>
    bind mark fun _ d₃ h₃ =>
    bind (itemsUntil (function h hfail)) fun fs d₄ h₄ => bind mark fun _ d₅ h₅ => pure fun sp => ?_
  obtain ⟨ds, hds, rfl⟩ := h₄
  subst h₁ h₃ h₅
  cases sup with
  | none =>
    obtain rfl : d₂ = [] := h₂
    simpa using Stmt.Written.classDecl hds
  | some sup =>
    obtain ⟨sp', d, rfl, rfl⟩ := h₂
    simpa using Stmt.Written.subclass hds

omit hfail in
theorem forLoop (sp : Span) :
    Consumes (Parser.forLoop self sp) fun s d => s.Written (token (.keyword .for_) sp :: d) := by
  refine bind mark fun _ d₁ h₁ => bind forInitializer fun init d₂ h₂ =>
    bind (unlessAt expression) fun c d₃ h₃ =>
    bind mark fun _ d₄ h₄ => bind (unlessAt expression) fun inc d₅ h₅ => bind mark fun _ d₆ h₆ =>
    bind (h .statement) fun body d₇ h₇ => pure ?_
  subst h₁ h₄ h₆
  simpa using Stmt.Written.forLoop h₂ (clause h₃) (clause h₅) h₇

/-- One case for each keyword that a statement starts with. -/
theorem statement : Consumes (Parser.statement self) Stmt.Written := by
  refine branch (fun _ => rfl) (fun k sp q hq => ?_) exprStatement
  cases k with
  | punct m =>
    cases m with
    | lbrace =>
      cases hq
      refine bind (blockBody h hfail) fun ss d hd => pure ?_
      obtain ⟨ds, sp', hds, rfl⟩ := hd
      simpa using Stmt.Written.block hds
    | _ => cases hq
  | keyword word =>
    cases word with
    | print =>
      cases hq
      exact bind expression fun e d he => bind semicolon fun _ t ht =>
        pure (by simpa using Stmt.Written.print he ht)
    | return_ =>
      cases hq
      exact bind returnValue fun e d he => bind semicolon fun _ t ht =>
        pure (by simpa using Stmt.Written.ret (clause he) ht)
    | while_ =>
      cases hq
      exact bind expression fun c d hc => bind (h .statement) fun body d' hbody =>
        pure (by simpa using Stmt.Written.whileLoop hc hbody)
    | loop =>
      cases hq
      refine bind mark fun _ t ht => bind (blockBody h hfail) fun ss d hd => pure ?_
      obtain ⟨ds, sp', hds, rfl⟩ := hd
      subst ht
      simpa using Stmt.Written.forever hds
    | for_ => cases hq; exact forLoop h sp
    | _ => cases hq
  | _ => cases hq

theorem declaration : Consumes (Parser.declaration self) Stmt.Written := by
  refine branch (fun _ => rfl) (fun k sp q hq => ?_) (statement h hfail)
  cases k with
  | keyword word =>
    cases word with
    | class_ => cases hq; exact (classDecl h hfail).mono fun s d hs => hs sp
    | fn =>
      cases hq
      exact bind (function h hfail) fun f d hf => pure (by simpa using Stmt.Written.fnDecl hf)
    | var => cases hq; exact varDecl.mono fun s d hs => .varDecl (hs sp)
    | _ => cases hq
  | _ => cases hq

end

/-- A list that is too long does not stop a statement. -/
theorem failsFatally_stmt (l : Level) : FailsFatally (Parser.stmt l) :=
  fun _ _ _ _ hs => (stops_of_fail hs).fatal

/-- A statement is written with the tokens it was read from. -/
theorem stmt (l : Level) : Consumes (Parser.stmt l) Stmt.Written := by
  refine fix (W := fun _ => Stmt.Written) failsFatally_stmt (fun self hself hfail l => ?_) l
  cases l with
  | declaration => exact declaration hself hfail
  | statement => exact statement hself hfail

/-- A program is written with all tokens of its input. -/
theorem programBody : Consumes Parser.programBody Program.Written := by
  refine bind (collect (W := fun r d => ∃ s, r = some s ∧ Stmt.Written s d)
    (fun _ => look (fun _ _ => ⟨_, rfl⟩) fun b => ?_) 0) fun found d hd => pure ?_
  · cases b with
    | true => exact pure rfl
    | false =>
      exact bind (recovering (stmt .declaration) (failsFatally_stmt .declaration)) fun r d hr =>
        pure (by simpa [Listing] using hr)
  · obtain ⟨ds, hds, rfl⟩ := hd
    exact ⟨ds, forall₂_found hds, by simp⟩

end Consumes

end Parser

/-! ## Lists in a program -/

/-- An item of a list whose length is limited. -/
inductive ListItem where
  | expr (e : Expr)
  | name (x : Ident)

def ListItem.Written : ListItem → Pieces → Prop
  | expr e, d => e.Written d
  | name x, d => d = [x.piece]

/-- A list whose length is limited. -/
structure ItemList where
  kind : ItemKind
  items : List ListItem

/-- Whether the list has more than 255 items. -/
def ItemList.tooLong (l : ItemList) : Bool :=
  255 < l.items.length

mutual

/-- The lists of arguments and of tuple elements in an expression, at any depth. -/
def Expr.lists : Expr → List ItemList
  | .literal _ _ | .var _ | .this _ | .super _ _ => []
  | .grouping e _ | .unary _ e _ | .assign _ e | .get e _ => e.lists
  | .binary l _ r _ | .set l _ r | .letIn _ l r _ => l.lists ++ r.lists
  | .call f args _ => ⟨.arguments, args.map .expr⟩ :: (f.lists ++ Expr.listsOf args)
  | .tuple es _ => ⟨.tupleElements, es.map .expr⟩ :: Expr.listsOf es
  | .seq es _ | .vector es _ => Expr.listsOf es
  | .cond c yes no _ => c.lists ++ (yes.lists ++ no.lists)
  | .case e arms _ => e.lists ++ CaseArm.listsOf arms

def Expr.listsOf : List Expr → List ItemList
  | [] => []
  | e :: es => e.lists ++ Expr.listsOf es

def CaseArm.lists : CaseArm → List ItemList
  | .mk _ none body => body.lists
  | .mk _ (some guard) body => guard.lists ++ body.lists

def CaseArm.listsOf : List CaseArm → List ItemList
  | [] => []
  | a :: arms => a.lists ++ CaseArm.listsOf arms

end

mutual

/-- The lists of parameters, of arguments and of tuple elements in a statement, at any depth. -/
def Stmt.lists : Stmt → List ItemList
  | .expr e | .print e _ => e.lists
  | .varDecl _ e | .ret e _ => Expr.listsOf e.toList
  | .block ss _ | .forever ss _ => Stmt.listsOf ss
  | .fnDecl f => f.lists
  | .classDecl _ _ fs => FunctionDecl.listsOf fs
  | .whileLoop c body _ => c.lists ++ body.lists
  | .forLoop none c inc body _ => Expr.listsOf c.toList ++ (Expr.listsOf inc.toList ++ body.lists)
  | .forLoop (some s) c inc body _ =>
    s.lists ++ (Expr.listsOf c.toList ++ (Expr.listsOf inc.toList ++ body.lists))

def Stmt.listsOf : List Stmt → List ItemList
  | [] => []
  | s :: ss => s.lists ++ Stmt.listsOf ss

def FunctionDecl.lists : FunctionDecl → List ItemList
  | .mk _ params body => ⟨.parameters, params.map .name⟩ :: Stmt.listsOf body

def FunctionDecl.listsOf : List FunctionDecl → List ItemList
  | [] => []
  | f :: fs => f.lists ++ FunctionDecl.listsOf fs

end

/-- The lists of parameters, of arguments and of tuple elements in a program, at any depth. -/
def Program.lists (p : Program) : List ItemList :=
  Stmt.listsOf p.statements

/-! ## Marks and the lists they belong to -/

/-- The mark is of the list's kind, and the first item that is too many comes right behind it. -/
def ItemList.MarkedBy (l : ItemList) (m : ItemKind × Pieces) : Prop :=
  m.1 = l.kind ∧ ∃ item d, l.items[255]? = some item ∧ item.Written d ∧ d <+: m.2

/-- Each of the lists that is too long has its mark among the pieces, and there are no other
marks. -/
def Pieces.Marks (lists : List ItemList) (d : Pieces) : Prop :=
  ∃ ls, ls.Perm (lists.filter ItemList.tooLong) ∧ List.Forall₂ ItemList.MarkedBy ls d.excesses

namespace Pieces.Marks

theorem plain (h : d.excesses = []) : Marks [] d :=
  ⟨[], .nil, h ▸ .nil⟩

/-- The order in which lists are counted does not matter. -/
theorem perm (h : Marks lists d) (hperm : lists.Perm lists') : Marks lists' d := by
  obtain ⟨ls, hls, hmarks⟩ := h
  exact ⟨ls, hls.trans (hperm.filter _), hmarks⟩

/-- The lists of the second part come behind those of the first. -/
theorem append (h : Marks lists d) (h' : Marks lists' d') : Marks (lists ++ lists') (d ++ d') := by
  obtain ⟨ls, hls, hmarks⟩ := h
  obtain ⟨ls', hls', hmarks'⟩ := h'
  refine ⟨ls ++ ls', ?_, ?_⟩
  · rw [List.filter_append]
    exact hls.append hls'
  · rw [Pieces.excesses_append]
    refine List.rel_append (List.forall₂_map_right_iff.mpr (hmarks.imp ?_)) hmarks'
    rintro l m ⟨hkind, item, e, hitem, hwritten, hfront⟩
    exact ⟨hkind, item, e, hitem, hwritten, hfront.trans (List.prefix_append _ _)⟩

/-- A token in front changes nothing. -/
theorem cons (h : Marks lists d) : Marks lists (token k sp :: d) :=
  h

theorem snoc (h : Marks lists d) : Marks lists (d ++ [token k sp]) := by
  simpa using h.append (plain (d := [token k sp]) rfl)

/-- A list within its limit has no mark. -/
theorem short (h : Marks lists d) (hshort : l.tooLong = false) : Marks (l :: lists) d := by
  obtain ⟨ls, hls, hmarks⟩ := h
  refine ⟨ls, ?_, hmarks⟩
  rwa [List.filter_cons_of_neg (by simp [hshort])]

theorem excess (h : Marks lists d) (hlong : l.tooLong = true) (hmark : l.MarkedBy (l.kind, d)) :
    Marks (l :: lists) (excess l.kind :: d) := by
  obtain ⟨ls, hls, hmarks⟩ := h
  refine ⟨l :: ls, ?_, .cons hmark hmarks⟩
  rw [List.filter_cons_of_pos hlong]
  exact hls.cons l

theorem flatten (h : List.Forall₂ Marks lss ds) : Marks lss.flatten ds.flatten := by
  induction h with
  | nil => exact plain rfl
  | cons hd _ ih => exact hd.append ih

/-- Items with no marks in front of them. -/
theorem joined (hd : Joined sep limited n ds d) (hmark : ∀ m, n ≤ m → mark limited m = [])
    (h : List.Forall₂ Marks lss ds) : Marks lss.flatten d := by
  induction hd generalizing lss with
  | nil =>
    cases h
    exact plain rfl
  | one =>
    cases h with
    | cons hd hnil =>
      cases hnil
      simpa [hmark _ (Nat.le_refl _)] using hd
  | cons _ _ ih =>
    cases h with
    | cons hd hds =>
      rw [hmark _ (Nat.le_refl _), List.nil_append]
      exact hd.append (ih (fun m hm => hmark m (Nat.le_of_succ_le hm)) hds).cons

theorem listed (hd : Listed sep ds d) (h : List.Forall₂ Marks lss ds) : Marks lss.flatten d := by
  cases hd with
  | exact hjoined => exact joined hjoined (fun m _ => mark_none m) h
  | trailing _ hjoined => exact (joined hjoined (fun m _ => mark_none m) h).snoc

/-- An item behind `n` others, and what comes behind it. -/
theorem item (hn : n ≤ 255) (hall : all.drop n = x :: items) (hx : x.Written d) (hd : Marks lists d)
    (hlast : n = 255 → Marks rest tail) (hmore : n < 255 → Marks (⟨kind, all⟩ :: rest) tail) :
    Marks (⟨kind, all⟩ :: (lists ++ rest)) (mark (some kind) n ++ (d ++ tail)) := by
  rcases Nat.eq_or_lt_of_le hn with rfl | hlt
  · have hitem : all[255]? = some x := by
      rw [← Nat.add_zero 255, ← List.getElem?_drop, hall]
      rfl
    have hlong : ItemList.tooLong ⟨kind, all⟩ = true :=
      decide_eq_true (List.getElem?_eq_some_iff.mp hitem).1
    exact (hd.append (hlast rfl)).excess hlong ⟨rfl, x, d, hitem, hx, List.prefix_append d tail⟩
  · rw [mark, if_neg (Nat.ne_of_lt hlt), List.nil_append]
    exact (hd.append (hmore hlt)).perm List.perm_middle

/-- Of the items from the `n`th on, the one behind 255 others has the list's mark. -/
theorem limited (hd : Joined sep (some kind) n ds d) (hn : n ≤ 255) (hall : all.drop n = items)
    (hitems : List.Forall₂ ListItem.Written items ds) (h : List.Forall₂ Marks lss ds) :
    Marks (⟨kind, all⟩ :: lss.flatten) d := by
  have hend : ∀ m ≤ 255, all.drop m = [] → Marks [⟨kind, all⟩] [] := fun m hm hnil =>
    (plain rfl).short
      (decide_eq_false (Nat.not_lt.mpr (Nat.le_trans (List.drop_eq_nil_iff.mp hnil) hm)))
  have hbeyond : ∀ m, 256 ≤ m → mark (some kind) m = [] := fun m hm => if_neg (Nat.ne_of_gt hm)
  induction hd generalizing lss items with
  | nil =>
    cases hitems
    cases h
    exact hend _ hn hall
  | @one n d =>
    cases hitems with
    | cons hitem hnil =>
      cases hnil
      cases h with
      | cons hd hnil =>
        cases hnil
        have hdrop : all.drop (n + 1) = [] := by rw [← List.tail_drop, hall, List.tail_cons]
        have hone := item hn hall hitem hd (fun _ => plain rfl) fun hlt => hend (n + 1) hlt hdrop
        simpa using hone
  | @cons ds n d' d sp _ hjoined ih =>
    cases hitems with
    | cons hitem hitems =>
      cases h with
      | cons hd hds =>
        have hdrop := congrArg List.tail hall
        rw [List.tail_drop, List.tail_cons] at hdrop
        refine item hn hall hitem hd (fun hlast => ?_) fun hlt => (ih hlt hdrop hitems hds).cons
        subst hlast
        exact (joined hjoined hbeyond hds).cons

end Pieces.Marks

/-! ## Along the tree -/

open Pieces

theorem Pieces.Joined.excesses_eq_nil (h : Joined sep none n ds d)
    (hds : ∀ e ∈ ds, e.excesses = []) :
    d.excesses = [] := by
  induction h with
  | nil => rfl
  | one => simpa using hds
  | cons _ _ ih =>
    obtain ⟨hd, hds⟩ := List.forall_mem_cons.mp hds
    simp [hd, ih hds, excesses]

theorem Expr.listsOf_eq (es : List Expr) : Expr.listsOf es = (es.map Expr.lists).flatten :=
  eq_flatMap rfl (fun _ _ => rfl) es

theorem CaseArm.listsOf_eq (arms : List CaseArm) :
    CaseArm.listsOf arms = (arms.map CaseArm.lists).flatten :=
  eq_flatMap rfl (fun _ _ => rfl) arms

theorem Stmt.listsOf_eq (ss : List Stmt) : Stmt.listsOf ss = (ss.map Stmt.lists).flatten :=
  eq_flatMap rfl (fun _ _ => rfl) ss

theorem FunctionDecl.listsOf_eq (fs : List FunctionDecl) :
    FunctionDecl.listsOf fs = (fs.map FunctionDecl.lists).flatten :=
  eq_flatMap rfl (fun _ _ => rfl) fs

theorem Pieces.Listed.excesses_eq_nil (h : Listed sep ds d) (hds : ∀ e ∈ ds, e.excesses = []) :
    d.excesses = [] := by
  cases h with
  | exact hjoined => exact hjoined.excesses_eq_nil hds
  | trailing _ hjoined => simp [hjoined.excesses_eq_nil hds, excesses]

/-- There are no limits in patterns. The induction is on how the pattern is written, since
parentheses leave it as it is. -/
theorem Pattern.Written.excesses_eq_nil {p : Pattern} {d : Pieces} (h : p.Written d) :
    d.excesses = [] := by
  refine @Pattern.Written.rec (fun _ d _ => d.excesses = [])
    (fun _ ds _ => ∀ e ∈ ds, e.excesses = [])
    rfl rfl rfl rfl (fun _ _ => rfl) rfl ?named ?grouped ?tuple ?vector ?nil ?cons p d h
  case named => exact fun _ ih => ih
  case grouped =>
    intro p d sp sp' _ ih
    simp [excesses, ih]
  case tuple =>
    intro ps ds d sp sp' _ _ hjoined ih
    simp [excesses, hjoined.excesses_eq_nil ih]
  case vector =>
    intro ps ds d sp sp' _ hlist ih
    simp [excesses, hlist.excesses_eq_nil ih]
  case nil => exact fun _ he => absurd he List.not_mem_nil
  case cons => exact fun _ _ ih ihs => List.forall_mem_cons.mpr ⟨ih, ihs⟩

mutual

theorem Expr.marks (e : Expr) (h : e.Written d) : Marks e.lists d := by
  cases e with
  | literal value sp =>
    rw [Expr.lists]
    cases h with
    | literal | unit => exact .plain rfl
  | var | this | super =>
    rw [Expr.lists]
    cases h
    exact .plain rfl
  | grouping e sp =>
    rw [Expr.lists]
    cases h with
    | grouping he => exact (e.marks he).snoc.cons
  | unary op e sp =>
    rw [Expr.lists]
    cases h with
    | unary he => exact (e.marks he).cons
  | assign x e =>
    rw [Expr.lists]
    cases h with
    | assign he => exact (e.marks he).cons.cons
  | get e x =>
    rw [Expr.lists]
    cases h with
    | get he => simpa using (e.marks he).append (.plain rfl)
  | binary l op r sp =>
    rw [Expr.lists]
    cases h with
    | binary hl hr => exact (l.marks hl).append (r.marks hr).cons
  | set e x value =>
    rw [Expr.lists]
    cases h with
    | set he hvalue => exact (e.marks he).append (value.marks hvalue).cons.cons.cons
  | letIn x e body sp =>
    rw [Expr.lists]
    cases h with
    | letIn he hbody => exact ((e.marks he).append (body.marks hbody).cons).cons.cons.cons
  | cond c yes no sp =>
    rw [Expr.lists]
    cases h with
    | cond hc hyes hno =>
      exact ((c.marks hc).append ((yes.marks hyes).append (no.marks hno).cons).cons).cons
  | seq es sp =>
    rw [Expr.lists, Expr.listsOf_eq]
    cases h with
    | seq hes hlist => exact (Marks.listed hlist (Expr.marks_all es hes)).snoc.cons.cons
  | vector es sp =>
    rw [Expr.lists, Expr.listsOf_eq]
    cases h with
    | vector hes hlist => exact (Marks.listed hlist (Expr.marks_all es hes)).snoc.cons
  | tuple es sp =>
    rw [Expr.lists, Expr.listsOf_eq]
    cases h with
    | tuple _ hes hjoined =>
      have hitems : List.Forall₂ ListItem.Written (es.map .expr) _ :=
        List.forall₂_map_left_iff.mpr hes
      exact (Marks.limited hjoined (Nat.zero_le _) rfl hitems (Expr.marks_all es hes)).snoc.cons
  | call f args sp =>
    rw [Expr.lists, Expr.listsOf_eq]
    cases h with
    | call hf hargs hjoined =>
      have hitems : List.Forall₂ ListItem.Written (args.map .expr) _ :=
        List.forall₂_map_left_iff.mpr hargs
      have hlimited := Marks.limited hjoined (Nat.zero_le _) rfl hitems (Expr.marks_all args hargs)
      exact ((f.marks hf).append hlimited.snoc.cons).perm List.perm_middle
  | case e arms sp =>
    rw [Expr.lists, CaseArm.listsOf_eq]
    cases h with
    | case he harms hlist =>
      exact ((e.marks he).append
          (Marks.listed hlist (CaseArm.marks_all arms harms)).snoc.cons.cons).cons

theorem Expr.marks_all (es : List Expr) (h : List.Forall₂ Expr.Written es ds) :
    List.Forall₂ Marks (es.map Expr.lists) ds := by
  cases es with
  | nil =>
    cases h
    exact .nil
  | cons e es =>
    cases h with
    | cons he hes => exact .cons (e.marks he) (Expr.marks_all es hes)

theorem CaseArm.marks (a : CaseArm) (h : a.Written d) : Marks a.lists d := by
  cases a with
  | mk p guard body =>
    cases guard with
    | none =>
      rw [CaseArm.lists]
      cases h with
      | plain hp hbody => exact (Marks.plain hp.excesses_eq_nil).append (body.marks hbody).cons
    | some g =>
      rw [CaseArm.lists]
      cases h with
      | guarded hp hg hbody =>
        exact (Marks.plain hp.excesses_eq_nil).append
          ((g.marks hg).append (body.marks hbody).cons).cons

theorem CaseArm.marks_all (arms : List CaseArm) (h : List.Forall₂ CaseArm.Written arms ds) :
    List.Forall₂ Marks (arms.map CaseArm.lists) ds := by
  cases arms with
  | nil =>
    cases h
    exact .nil
  | cons a arms =>
    cases h with
    | cons ha harms => exact .cons (a.marks ha) (CaseArm.marks_all arms harms)

end

theorem Expr.ClauseWritten.marks (h : ClauseWritten e d) : Marks (Expr.listsOf e.toList) d := by
  cases h with
  | none => exact .plain rfl
  | some he => simpa [Expr.listsOf] using Expr.marks _ he

theorem Pieces.Semicolon.marks (h : Semicolon d) : Marks [] d := by
  cases h with
  | there | missing => exact .plain rfl

theorem Stmt.VarWritten.marks (h : VarWritten s d) : Marks s.lists d := by
  cases h with
  | plain => exact .plain rfl
  | @initialized e =>
    have he : Marks (Expr.listsOf [e]) _ := Expr.ClauseWritten.marks (.some ‹_›)
    exact he.snoc.cons.cons.cons

theorem Stmt.InitialWritten.marks (h : InitialWritten s d) : Marks (s.elim [] Stmt.lists) d := by
  cases h with
  | none => exact .plain rfl
  | expr he => exact (Expr.marks _ he).snoc
  | varDecl hs => exact hs.marks

/-- Names are not lists, so the only mark among parameters is that of their own list. -/
theorem marks_parameters {params : List Ident}
    (h : Joined .comma (some .parameters) 0 (params.map fun x => [x.piece]) d) :
    Marks [⟨.parameters, params.map .name⟩] d := by
  have hitems : List.Forall₂ ListItem.Written (params.map .name) (params.map fun x => [x.piece]) :=
    List.forall₂_map_left_iff.mpr
      (List.forall₂_map_right_iff.mpr (List.forall₂_same.mpr fun _ _ => rfl))
  have hnames : List.Forall₂ Marks (params.map fun _ => []) (params.map fun x => [x.piece]) :=
    List.forall₂_map_left_iff.mpr
      (List.forall₂_map_right_iff.mpr (List.forall₂_same.mpr fun _ _ => Marks.plain rfl))
  simpa using Marks.limited h (Nat.zero_le _) rfl hitems hnames

mutual

theorem Stmt.marks (s : Stmt) (h : s.Written d) : Marks s.lists d := by
  cases s with
  | expr e =>
    rw [Stmt.lists]
    cases h with
    | expr he ht => simpa using (e.marks he).append ht.marks
    | varDecl hs => cases hs
  | print e sp =>
    rw [Stmt.lists]
    cases h with
    | print he ht => simpa using ((e.marks he).append ht.marks).cons
    | varDecl hs => cases hs
  | varDecl x e =>
    cases h with
    | varDecl hs => exact hs.marks
  | block ss sp =>
    rw [Stmt.lists, Stmt.listsOf_eq]
    cases h with
    | block hss => exact (Marks.flatten (Stmt.marks_all ss hss)).snoc.cons
    | varDecl hs => cases hs
  | forever ss sp =>
    rw [Stmt.lists, Stmt.listsOf_eq]
    cases h with
    | forever hss => exact (Marks.flatten (Stmt.marks_all ss hss)).snoc.cons.cons
    | varDecl hs => cases hs
  | fnDecl f =>
    rw [Stmt.lists]
    cases h with
    | fnDecl hf => exact (f.marks hf).cons
    | varDecl hs => cases hs
  | classDecl x sup fs =>
    rw [Stmt.lists, FunctionDecl.listsOf_eq]
    cases h with
    | classDecl hfs => exact (Marks.flatten (FunctionDecl.marks_all fs hfs)).snoc.cons.cons.cons
    | subclass hfs =>
      exact (Marks.flatten (FunctionDecl.marks_all fs hfs)).snoc.cons.cons.cons.cons.cons
    | varDecl hs => cases hs
  | ret e sp =>
    rw [Stmt.lists]
    cases h with
    | ret he ht => simpa using (he.marks.append ht.marks).cons
    | varDecl hs => cases hs
  | whileLoop c body sp =>
    rw [Stmt.lists]
    cases h with
    | whileLoop hc hbody => exact ((c.marks hc).append (body.marks hbody)).cons
    | varDecl hs => cases hs
  | forLoop init c inc body sp =>
    have hlists : (Stmt.forLoop init c inc body sp).lists =
        init.elim [] Stmt.lists ++
          (Expr.listsOf c.toList ++ (Expr.listsOf inc.toList ++ body.lists)) := by
      cases init with
      | none | some => rw [Stmt.lists]; rfl
    rw [hlists]
    cases h with
    | forLoop hinit hc hinc hbody =>
      exact (hinit.marks.append
          (hc.marks.append (hinc.marks.append (body.marks hbody).cons).cons)).cons.cons
    | varDecl hs => cases hs

theorem Stmt.marks_all (ss : List Stmt) (h : List.Forall₂ Stmt.Written ss ds) :
    List.Forall₂ Marks (ss.map Stmt.lists) ds := by
  cases ss with
  | nil =>
    cases h
    exact .nil
  | cons s ss =>
    cases h with
    | cons hs hss => exact .cons (s.marks hs) (Stmt.marks_all ss hss)

theorem FunctionDecl.marks (f : FunctionDecl) (h : f.Written d) : Marks f.lists d := by
  cases f with
  | mk x params body =>
    rw [FunctionDecl.lists, Stmt.listsOf_eq]
    cases h with
    | mk hparams hbody =>
      exact ((marks_parameters hparams).append
          (Marks.flatten (Stmt.marks_all body hbody)).snoc.cons.cons).cons.cons

theorem FunctionDecl.marks_all (fs : List FunctionDecl)
    (h : List.Forall₂ FunctionDecl.Written fs ds) :
    List.Forall₂ Marks (fs.map FunctionDecl.lists) ds := by
  cases fs with
  | nil =>
    cases h
    exact .nil
  | cons f fs =>
    cases h with
    | cons hf hfs => exact .cons (f.marks hf) (FunctionDecl.marks_all fs hfs)

end

theorem Program.Written.marks {p : Program} (h : p.Written d) : Marks p.lists d := by
  obtain ⟨ds, hds, rfl⟩ := h
  rw [Program.lists, Stmt.listsOf_eq]
  exact .flatten (Stmt.marks_all p.statements hds)

/-! ## Errors -/

/-- There is a token in front of all marks. -/
def Pieces.Begins (d : Pieces) : Prop :=
  ∃ k sp d', d = token k sp :: d'

theorem Pieces.Begins.append (h : Begins d) (d' : Pieces) : Begins (d ++ d') := by
  obtain ⟨k, sp, d, rfl⟩ := h
  exact ⟨k, sp, d ++ d', rfl⟩

/-- An expression begins with a token, in some forms that of an inner expression. -/
theorem Expr.begins (e : Expr) (h : e.Written d) : Begins d := by
  cases e with
  | binary l op r sp =>
    cases h with
    | binary hl => exact (l.begins hl).append _
  | call f args sp =>
    cases h with
    | call hf => exact (f.begins hf).append _
  | get e x =>
    cases h with
    | get he => exact (e.begins he).append _
  | set e x value =>
    cases h with
    | set he => exact (e.begins he).append _
  | _ =>
    cases h
    all_goals exact ⟨_, _, _, rfl⟩

theorem ListItem.begins (x : ListItem) (h : x.Written d) : Begins d := by
  cases x with
  | expr e => exact e.begins h
  | name x =>
    obtain rfl : d = [x.piece] := h
    exact ⟨_, _, _, rfl⟩

theorem Pieces.suffix_of_mem_excesses (h : m ∈ excesses d) : m.2 <:+ d := by
  induction d with
  | nil => cases h
  | cons p d ih =>
    cases p with
    | token k sp => exact (ih h).trans (List.suffix_cons _ d)
    | excess kind =>
      cases h with
      | head => exact List.suffix_cons _ d
      | tail _ h => exact (ih h).trans (List.suffix_cons _ d)

/-- The kind of the list that an error says is too long. -/
def ParseError.itemKind? : ParseError → Option ItemKind
  | .tooManyItems kind _ => some kind
  | _ => none

/-- The error tells that the list is too long. It stands at the first of the tokens that the 256th
item is written with, which are among those of the program. -/
def ItemList.ReportedBy (d : Pieces) (l : ItemList) (e : ParseError) : Prop :=
  ∃ (item : ListItem) (d' : Pieces) (t : Token), l.items[255]? = some item ∧
    item.Written d' ∧ d' <:+: d ∧ d'.tokens.head? = some t ∧ e = .tooManyItems l.kind t.span

theorem ItemList.MarkedBy.reportedBy {l : ItemList} (h : l.MarkedBy m) (hm : m.2 <:+ d)
    (cx : Parser.Context) :
    l.ReportedBy d (.tooManyItems m.1 (cx.next (tokens m.2 ++ [])).span) := by
  obtain ⟨hkind, item, d', hitem, hwritten, rest, hrest⟩ := h
  obtain ⟨k, sp, d'', rfl⟩ := item.begins hwritten
  refine ⟨item, _, ⟨k, sp⟩, hitem, hwritten, ?_, rfl, ?_⟩
  · exact List.IsInfix.trans ⟨[], rest, hrest⟩ hm.isInfix
  · rw [hkind, ← hrest]
    rfl

/-- The errors that the marks stand for belong to the lists that are too long. -/
theorem Pieces.Marks.reported (h : Marks lists d) (cx : Parser.Context) :
    ∃ ls, ls.Perm (lists.filter ItemList.tooLong) ∧
      List.Forall₂ (ItemList.ReportedBy d) ls (d.errors cx []) := by
  obtain ⟨ls, hls, hmarks⟩ := h
  have hsuffix : List.Forall₂ (fun m l => m.2 <:+ d ∧ ItemList.MarkedBy l m) d.excesses ls :=
    (List.forall₂_and_left _ _).mpr ⟨fun m hm => suffix_of_mem_excesses hm, hmarks.flip⟩
  exact ⟨ls, hls,
    List.forall₂_map_right_iff.mpr (hsuffix.flip.imp fun l m hm => hm.2.reportedBy hm.1 cx)⟩

theorem countP_of_forall₂ {R : α → β → Prop} {p : α → Bool} {q : β → Bool}
    (h : List.Forall₂ R as bs) (hR : ∀ a b, R a b → p a = q b) : as.countP p = bs.countP q := by
  induction h with
  | nil => rfl
  | cons hab _ ih => rw [List.countP_cons, List.countP_cons, ih, hR _ _ hab]

/-- Where there are no other errors, each list of parameters, arguments or tuple elements with more
than 255 items has its one error, at the first token of its 256th item, and there are no other
errors. All items are there: the program is written with all of its tokens. -/
theorem long_lists_are_reported_once (source : String) (tokens : List Token)
    (h : ∀ e ∈ (parse source tokens).errors, ∃ kind span, e = .tooManyItems kind span) :
    let result := parse source tokens
    ∃ d, result.program.Written d ∧ d.tokens = Parser.body tokens ∧
      (∃ ls, ls.Perm (result.program.lists.filter ItemList.tooLong) ∧
        List.Forall₂ (ItemList.ReportedBy d) ls result.errors) ∧
      ∀ kind, result.errors.countP (·.itemKind? = some kind) =
        result.program.lists.countP fun l => l.kind = kind ∧ 255 < l.items.length := by
  intro result
  obtain ⟨program, s, hrun, hahead⟩ := Parser.run_programBody source tokens
  have hresult : result = ⟨program, s.notes⟩ := by
    rw [show result = parse source tokens from rfl, parse, hrun]
  have honly : s.ExcessOnly := by
    rw [show parse source tokens = _ from hresult] at h
    exact h
  obtain ⟨d, hd, htook⟩ := Parser.Consumes.programBody hrun honly
  obtain ⟨ls, hls, hreported⟩ := hd.marks.reported (.ofTokens source tokens)
  have htokens := htook.tokens
  have herrors := htook.errors
  rw [hahead] at herrors
  rw [hahead, List.append_nil] at htokens
  rw [← herrors] at hreported
  rw [hresult]
  refine ⟨d, hd, htokens.symm, ⟨ls, hls, hreported⟩, fun kind => ?_⟩
  have hkinds : ∀ l e, ItemList.ReportedBy d l e →
      decide (l.kind = kind) = decide (e.itemKind? = some kind) := by
    rintro l e ⟨_, _, _, _, _, _, _, rfl⟩
    simp [ParseError.itemKind?]
  calc
    s.errors.countP (·.itemKind? = some kind) = ls.countP (·.kind = kind) :=
      (countP_of_forall₂ hreported hkinds).symm
    _ = (program.lists.filter ItemList.tooLong).countP (·.kind = kind) := hls.countP_eq _
    _ = program.lists.countP fun l => l.kind = kind ∧ 255 < l.items.length := by
      rw [List.countP_filter]
      simp [ItemList.tooLong]

/-- A call with 256 arguments, all of them `this`, each at a place of its own. -/
theorem call_with_256_arguments_is_reported_once :
    let place (n : Nat) : Span := ⟨n, n + 1, 1, n + 1⟩
    let item (n : Nat) : List Token :=
      [⟨.keyword .this, place (2 * n + 2)⟩, ⟨.punct .comma, place (2 * n + 3)⟩]
    let tokens : List Token := ⟨.keyword .this, place 0⟩ :: ⟨.punct .lparen, place 1⟩ ::
      ((List.range 255).flatMap item ++ [⟨.keyword .this, place 512⟩, ⟨.punct .rparen, place 513⟩])
    let result := parse "" tokens
    result.errors = [.tooManyItems .arguments (place 512)] ∧
      ∃ d, result.program.Written d ∧ d.tokens = Parser.body tokens ∧
        (∃ ls, ls.Perm (result.program.lists.filter ItemList.tooLong) ∧
          List.Forall₂ (ItemList.ReportedBy d) ls result.errors) ∧
        ∀ kind, result.errors.countP (·.itemKind? = some kind) =
          result.program.lists.countP fun l => l.kind = kind ∧ 255 < l.items.length := by
  intro place item tokens result
  have herrors : result.errors = [.tooManyItems .arguments (place 512)] := by decide +kernel
  refine ⟨herrors, long_lists_are_reported_once "" tokens fun e he => ?_⟩
  rw [show (parse "" tokens).errors = _ from herrors] at he
  exact ⟨.arguments, place 512, List.mem_singleton.mp he⟩

end TreeWalk
