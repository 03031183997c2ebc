import Mathlib.Logic.Relation
import TreeWalk.Tree

/-!
# Parts of programs

Which statements, expressions and patterns stand inside a program, and which of the statements
declare names.
-/

namespace TreeWalk

/-- A property of everything at or below a node, from the node and what is below its parts. -/
theorem forall_below_iff {α : Type} {parts : α → List α} {P : α → Prop} {a : α} :
    (∀ b, Relation.ReflTransGen (fun a b => b ∈ parts a) a b → P b) ↔
      P a ∧ ∀ b ∈ parts a, ∀ c, Relation.ReflTransGen (fun a b => b ∈ parts a) b c → P c := by
  constructor
  · exact fun h => ⟨h a .refl, fun b hb c hc => h c (.head hb hc)⟩
  · rintro ⟨ha, hparts⟩ b hb
    rcases Relation.ReflTransGen.cases_head hb with rfl | ⟨c, hc, hcb⟩
    · exact ha
    · exact hparts c hc b hcb

namespace Pattern

/-- The patterns that stand directly inside a pattern. -/
def parts : Pattern → List Pattern
  | .named _ p => [p]
  | .tuple ps _ | .vector ps _ => ps
  | _ => []

/-- The pattern `q` is `p` or stands inside it, at any depth. -/
def Inside (q p : Pattern) : Prop :=
  Relation.ReflTransGen (fun p q => q ∈ p.parts) p q

/-- The property holds of `p` and of all patterns inside it. -/
def Everywhere (P : Pattern → Prop) (p : Pattern) : Prop :=
  ∀ q, q.Inside p → P q

theorem everywhere_iff {P : Pattern → Prop} {p : Pattern} :
    p.Everywhere P ↔ P p ∧ ∀ q ∈ p.parts, q.Everywhere P :=
  forall_below_iff

/-- The names written at the pattern itself. -/
def idents : Pattern → List Ident
  | .var name | .named name _ => [name]
  | _ => []

end Pattern

/-- The expressions of an arm. -/
def CaseArm.exprs (a : CaseArm) : List Expr :=
  a.guard.toList ++ [a.body]

namespace Expr

/-- The expressions that stand directly inside an expression. -/
def parts : Expr → List Expr
  | .grouping e _ | .unary _ e _ | .assign _ e | .get e _ => [e]
  | .binary l _ r _ | .set l _ r | .letIn _ l r _ => [l, r]
  | .call f args _ => f :: args
  | .seq es _ | .tuple es _ | .vector es _ => es
  | .cond c yes no _ => [c, yes, no]
  | .case e arms _ => e :: arms.flatMap CaseArm.exprs
  | _ => []

/-- The patterns of the arms, where the expression is a `case`. -/
def patterns : Expr → List Pattern
  | .case _ arms _ => arms.map CaseArm.pattern
  | _ => []

/-- The expression `d` is `e` or stands inside it, at any depth. -/
def Inside (d e : Expr) : Prop :=
  Relation.ReflTransGen (fun e d => d ∈ e.parts) e d

/-- The property holds of `e` and of all expressions inside it. -/
def Everywhere (P : Expr → Prop) (e : Expr) : Prop :=
  ∀ d, d.Inside e → P d

theorem everywhere_iff {P : Expr → Prop} {e : Expr} :
    e.Everywhere P ↔ P e ∧ ∀ d ∈ e.parts, d.Everywhere P :=
  forall_below_iff

/-- The names written at the expression itself. -/
def idents : Expr → List Ident
  | .var name | .assign name _ | .get _ name | .set _ name _ | .super name _ | .letIn name _ _ _ =>
    [name]
  | _ => []

end Expr

/-- The names written in the head of a function. -/
def FunctionDecl.idents (decl : FunctionDecl) : List Ident :=
  decl.name :: decl.params

namespace Stmt

/-- The statements that stand directly inside a statement. -/
def parts : Stmt → List Stmt
  | .block ss _ | .forever ss _ => ss
  | .fnDecl decl => decl.body
  | .classDecl _ _ methods => methods.flatMap FunctionDecl.body
  | .whileLoop _ body _ => [body]
  | .forLoop init _ _ body _ => init.toList ++ [body]
  | _ => []

/-- The statement `t` is `s` or stands inside it, at any depth. -/
def Inside (t s : Stmt) : Prop :=
  Relation.ReflTransGen (fun s t => t ∈ s.parts) s t

/-- The property holds of `s` and of all statements inside it. -/
def Everywhere (P : Stmt → Prop) (s : Stmt) : Prop :=
  ∀ t, t.Inside s → P t

theorem everywhere_iff {P : Stmt → Prop} {s : Stmt} :
    s.Everywhere P ↔ P s ∧ ∀ t ∈ s.parts, t.Everywhere P :=
  forall_below_iff

/-- The statements directly inside a statement that are executed with it. -/
def inner : Stmt → List Stmt
  | .block ss _ | .forever ss _ => ss
  | .whileLoop _ body _ => [body]
  | .forLoop init _ _ body _ => init.toList ++ [body]
  | _ => []

/-- The functions and methods that a statement declares. -/
def decls : Stmt → List FunctionDecl
  | .fnDecl decl => [decl]
  | .classDecl _ _ methods => methods
  | _ => []

theorem mem_parts {s t : Stmt} : t ∈ s.parts ↔ t ∈ s.inner ∨ ∃ decl ∈ s.decls, t ∈ decl.body := by
  cases s <;> simp [parts, inner, decls]

/-- The expressions that stand directly inside a statement. -/
def exprs : Stmt → List Expr
  | .expr e | .print e _ | .whileLoop e _ _ => [e]
  | .varDecl _ e | .ret e _ => e.toList
  | .forLoop _ c inc _ _ => c.toList ++ inc.toList
  | _ => []

/-- The names written at the statement itself. -/
def idents : Stmt → List Ident
  | .varDecl name _ => [name]
  | .fnDecl decl => decl.idents
  | .classDecl name sup methods => name :: sup.toList ++ methods.flatMap FunctionDecl.idents
  | _ => []

/-- The name that a statement declares. -/
def declared? : Stmt → Option Symbol
  | .varDecl name _ | .classDecl name _ _ => some name.name
  | .fnDecl decl => some decl.name.name
  | _ => none

/-- Whether executing the statement may declare a name in the current frame. -/
def declares : Stmt → Bool
  | .varDecl _ _ | .classDecl _ _ _ | .fnDecl _ => true
  | .whileLoop _ body _ => body.declares
  | _ => false

/-- The statement declares a name itself or not at all. -/
def Settled (s : Stmt) : Prop :=
  s.declared? = none → s.declares = false

end Stmt

/-- A piece of code. -/
inductive Code where
  | expr (e : Expr)
  | stmt (s : Stmt)

namespace Code

/-- The pieces of code that run with a piece, in its frame or in one inside it. -/
def inner : Code → List Code
  | .expr e => e.parts.map .expr
  | .stmt s => s.exprs.map .expr ++ s.inner.map .stmt

/-- The names written at the piece itself. -/
def idents : Code → List Ident
  | .expr e => e.idents
  | .stmt s => s.idents

/-- The pieces of code that stand directly inside a piece. -/
def parts : Code → List Code
  | .expr e => e.parts.map .expr
  | .stmt s => s.exprs.map .expr ++ s.parts.map .stmt

/-- The property holds of the piece and of all pieces inside it, at any depth. -/
def Everywhere (P : Code → Prop) (a : Code) : Prop :=
  ∀ b, Relation.ReflTransGen (fun a b => b ∈ a.parts) a b → P b

variable {P : Code → Prop} {a b : Code}

theorem everywhere_iff : a.Everywhere P ↔ P a ∧ ∀ b ∈ a.parts, b.Everywhere P :=
  forall_below_iff

theorem Everywhere.self (h : a.Everywhere P) : P a :=
  h a .refl

theorem Everywhere.part (h : a.Everywhere P) (hb : b ∈ a.parts) : b.Everywhere P :=
  (everywhere_iff.mp h).2 b hb

theorem Everywhere.inner (h : a.Everywhere P) (hb : b ∈ a.inner) : b.Everywhere P := by
  apply h.part
  cases a with
  | expr e => exact hb
  | stmt s =>
    rcases List.mem_append.mp hb with hb | hb
    · exact List.mem_append_left _ hb
    · obtain ⟨t, ht, rfl⟩ := List.mem_map.mp hb
      exact List.mem_append_right _ (List.mem_map_of_mem (Stmt.mem_parts.mpr (.inl ht)))

/-- What holds all over a declaration holds all over the bodies in it. -/
theorem Everywhere.body (h : (Code.stmt s).Everywhere P) (hdecl : decl ∈ s.decls)
    (ht : t ∈ decl.body) :
    (Code.stmt t).Everywhere P :=
  h.part (List.mem_append_right _
    (List.mem_map_of_mem (Stmt.mem_parts.mpr (.inr ⟨decl, hdecl, ht⟩))))

theorem everywhere_expr {e : Expr} (h : e.Everywhere fun d => P (.expr d)) :
    (Code.expr e).Everywhere P := by
  intro b hb
  have hexpr : ∃ d, b = .expr d ∧ d.Inside e := by
    induction hb with
    | refl => exact ⟨e, rfl, .refl⟩
    | tail _ hpart ih =>
      obtain ⟨d, rfl, hd⟩ := ih
      obtain ⟨d', hd', rfl⟩ := List.mem_map.mp hpart
      exact ⟨d', rfl, hd.tail hd'⟩
  obtain ⟨d, rfl, hd⟩ := hexpr
  exact h d hd

theorem everywhere_stmt {s : Stmt}
    (h : s.Everywhere fun t => P (.stmt t) ∧ ∀ e ∈ t.exprs, e.Everywhere fun d => P (.expr d)) :
    (Code.stmt s).Everywhere P := by
  intro b hb
  -- A path from a statement first goes through statements, and from some point on through
  -- expressions.
  have hbelow : (∃ t, b = .stmt t ∧ t.Inside s) ∨
      ∃ (t : Stmt) (e : Expr), t.Inside s ∧ e ∈ t.exprs ∧
        Relation.ReflTransGen (fun a b => b ∈ a.parts) (.expr e) b := by
    induction hb with
    | refl => exact .inl ⟨s, rfl, .refl⟩
    | tail _ hpart ih =>
      rcases ih with ⟨t, rfl, ht⟩ | ⟨t, e, ht, he, hpath⟩
      · rcases List.mem_append.mp hpart with hpart | hpart
        · obtain ⟨e, he, rfl⟩ := List.mem_map.mp hpart
          exact .inr ⟨t, e, ht, he, .refl⟩
        · obtain ⟨t', ht', rfl⟩ := List.mem_map.mp hpart
          exact .inl ⟨t', rfl, ht.tail ht'⟩
      · exact .inr ⟨t, e, ht, he, hpath.tail hpart⟩
  rcases hbelow with ⟨t, rfl, ht⟩ | ⟨t, e, ht, he, hpath⟩
  · exact (h t ht).1
  · exact everywhere_expr ((h t ht).2 e he) b hpath

end Code

namespace Program

/-- The statement is one of the program's, at any depth. -/
def Contains (p : Program) (s : Stmt) : Prop :=
  ∃ t ∈ p.statements, s.Inside t

/-- The expression is one of the program's, at any depth. -/
def ContainsExpr (p : Program) (e : Expr) : Prop :=
  ∃ s, p.Contains s ∧ ∃ top ∈ s.exprs, e.Inside top

/-- The pattern is one of the program's, at any depth. -/
def ContainsPattern (p : Program) (q : Pattern) : Prop :=
  ∃ e, p.ContainsExpr e ∧ ∃ top ∈ e.patterns, q.Inside top

/-- The name is written in the program, at the place it says. -/
def ContainsIdent (p : Program) (x : Ident) : Prop :=
  (∃ s, p.Contains s ∧ x ∈ s.idents) ∨ (∃ e, p.ContainsExpr e ∧ x ∈ e.idents) ∨
    ∃ q, p.ContainsPattern q ∧ x ∈ q.idents

end Program

end TreeWalk
