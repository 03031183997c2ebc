import TreeWalk.Printer.Layout

/-!
# Trees without places

Two trees that differ only in where their nodes were written have the same bare form. Laid out text
does not show places, so it is that of the bare form.
-/

namespace TreeWalk

def Token.bare (t : Token) : Token := ⟨t.kind, default⟩

def Ident.bare (i : Ident) : Ident := ⟨i.name, default⟩

namespace Pattern

mutual

/-- The pattern with every place forgotten. -/
def bare : Pattern → Pattern
  | unit _ => unit default
  | var n => var n.bare
  | literal value _ => literal value default
  | wild _ => wild default
  | named n p => named n.bare p.bare
  | tuple elements _ => tuple (bareAll elements) default
  | vector elements _ => vector (bareAll elements) default

def bareAll : List Pattern → List Pattern
  | [] => []
  | p :: ps => p.bare :: bareAll ps

end

@[simp]
theorem bareAll_eq_map (ps : List Pattern) : bareAll ps = ps.map bare := by
  induction ps with
  | nil => rfl
  | cons p ps ih => rw [bareAll, ih, List.map_cons]

end Pattern

mutual

/-- The expression with every place forgotten. -/
def Expr.bare : Expr → Expr
  | .literal value _ => .literal value default
  | .grouping inner _ => .grouping inner.bare default
  | .unary op operand _ => .unary op operand.bare default
  | .binary left op right _ => .binary left.bare op right.bare default
  | .var n => .var n.bare
  | .assign n value => .assign n.bare value.bare
  | .call callee args _ => .call callee.bare (Expr.bareAll args) default
  | .get object n => .get object.bare n.bare
  | .set object n value => .set object.bare n.bare value.bare
  | .this _ => .this default
  | .super method _ => .super method.bare default
  | .letIn n definition body _ => .letIn n.bare definition.bare body.bare default
  | .seq body _ => .seq (Expr.bareAll body) default
  | .cond condition yes no _ => .cond condition.bare yes.bare no.bare default
  | .tuple elements _ => .tuple (Expr.bareAll elements) default
  | .vector elements _ => .vector (Expr.bareAll elements) default
  | .case scrutinee arms _ => .case scrutinee.bare (CaseArm.bareAll arms) default

def Expr.bareAll : List Expr → List Expr
  | [] => []
  | e :: es => e.bare :: Expr.bareAll es

def CaseArm.bare : CaseArm → CaseArm
  | .mk p none body => .mk p.bare none body.bare
  | .mk p (some guard) body => .mk p.bare (some guard.bare) body.bare

def CaseArm.bareAll : List CaseArm → List CaseArm
  | [] => []
  | a :: as => a.bare :: CaseArm.bareAll as

end

/-- The recursion over lists of parts is a `map`, here and for the other kinds of parts below. -/
@[simp]
theorem Expr.bareAll_eq_map (es : List Expr) : bareAll es = es.map bare := by
  induction es with
  | nil => rfl
  | cons e es ih => rw [bareAll, ih, List.map_cons]

@[simp]
theorem CaseArm.bareAll_eq_map (as : List CaseArm) : bareAll as = as.map bare := by
  induction as with
  | nil => rfl
  | cons a as ih => rw [bareAll, ih, List.map_cons]

mutual

/-- The statement with every place forgotten. -/
def Stmt.bare : Stmt → Stmt
  | .expr e => .expr e.bare
  | .print e _ => .print e.bare default
  | .varDecl n initializer => .varDecl n.bare (initializer.map Expr.bare)
  | .block statements _ => .block (Stmt.bareAll statements) default
  | .fnDecl decl => .fnDecl decl.bare
  | .classDecl n superclass methods =>
    .classDecl n.bare (superclass.map Ident.bare) (FunctionDecl.bareAll methods)
  | .ret value _ => .ret (value.map Expr.bare) default
  | .whileLoop condition body _ => .whileLoop condition.bare body.bare default
  | .forever body _ => .forever (Stmt.bareAll body) default
  | .forLoop none condition increment body _ =>
    .forLoop none (condition.map Expr.bare) (increment.map Expr.bare) body.bare default
  | .forLoop (some s) condition increment body _ =>
    .forLoop (some s.bare) (condition.map Expr.bare) (increment.map Expr.bare) body.bare default

def Stmt.bareAll : List Stmt → List Stmt
  | [] => []
  | s :: ss => s.bare :: Stmt.bareAll ss

def FunctionDecl.bare : FunctionDecl → FunctionDecl
  | .mk n params body => .mk n.bare (params.map Ident.bare) (Stmt.bareAll body)

def FunctionDecl.bareAll : List FunctionDecl → List FunctionDecl
  | [] => []
  | f :: fs => f.bare :: FunctionDecl.bareAll fs

end

@[simp]
theorem Stmt.bareAll_eq_map (ss : List Stmt) : bareAll ss = ss.map bare := by
  induction ss with
  | nil => rfl
  | cons s ss ih => rw [bareAll, ih, List.map_cons]

@[simp]
theorem FunctionDecl.bareAll_eq_map (fs : List FunctionDecl) : bareAll fs = fs.map bare := by
  induction fs with
  | nil => rfl
  | cons f fs ih => rw [bareAll, ih, List.map_cons]

/-- The program with every place forgotten. -/
def Program.bare (p : Program) : Program := ⟨p.statements.map Stmt.bare⟩

/-! ## Layouts show no places -/

namespace Layout

mutual

/-- A pattern looks the same wherever it was written. -/
theorem pattern_bare : ∀ p : Pattern, pattern p.bare = pattern p
  | .unit _ | .var _ | .literal _ _ | .wild _ => rfl
  | .named n p => by simp only [Pattern.bare, pattern, pattern_bare p]; rfl
  | .tuple ps _ | .vector ps _ => by simp only [Pattern.bare, pattern, patterns_bare ps]

theorem patterns_bare : ∀ ps : List Pattern, patterns (Pattern.bareAll ps) = patterns ps
  | [] => rfl
  | p :: ps => by rw [Pattern.bareAll, patterns, patterns, pattern_bare p, patterns_bare ps]

end

mutual

/-- Forgetting the places in an expression changes none of the pieces it is laid out in. -/
theorem expr_bare : ∀ e : Expr, expr e.bare = expr e
  | .literal _ _ | .var _ | .this _ | .super _ _ => rfl
  | .grouping e _ | .unary _ e _ => by simp only [Expr.bare, expr, expr_bare e]
  | .binary l _ r _ => by simp only [Expr.bare, expr, expr_bare l, expr_bare r]
  | .assign n e => by simp only [Expr.bare, expr, expr_bare e]; rfl
  | .call e es _ => by simp only [Expr.bare, expr, expr_bare e, exprs_bare es]
  | .get e n => by simp only [Expr.bare, expr, expr_bare e]; rfl
  | .set e n v => by simp only [Expr.bare, expr, expr_bare e, expr_bare v]; rfl
  | .letIn n d b _ => by simp only [Expr.bare, expr, expr_bare d, expr_bare b]; rfl
  | .seq [] _ => rfl
  | .seq (e :: es) _ => by simp only [Expr.bare, Expr.bareAll, expr, expr_bare e, exprs_bare es]
  | .cond c y n _ => by simp only [Expr.bare, expr, expr_bare c, expr_bare y, expr_bare n]
  | .tuple es _ | .vector es _ => by simp only [Expr.bare, expr, exprs_bare es]
  | .case e [] _ => by simp only [Expr.bare, CaseArm.bareAll, expr, expr_bare e]
  | .case e (a :: as) _ => by
    simp only [Expr.bare, CaseArm.bareAll, expr, expr_bare e, arm_bare a, arms_bare as]

theorem exprs_bare : ∀ es : List Expr, exprs (Expr.bareAll es) = exprs es
  | [] => rfl
  | e :: es => by rw [Expr.bareAll, exprs, exprs, expr_bare e, exprs_bare es]

/-- An arm with a guard and one without are laid out by different rules, hence the two cases. -/
theorem arm_bare : ∀ a : CaseArm, arm a.bare = arm a
  | .mk p none b => by simp only [CaseArm.bare, arm, pattern_bare p, expr_bare b]
  | .mk p (some g) b => by simp only [CaseArm.bare, arm, pattern_bare p, expr_bare g, expr_bare b]

theorem arms_bare : ∀ as : List CaseArm, arms (CaseArm.bareAll as) = arms as
  | [] => rfl
  | a :: as => by rw [CaseArm.bareAll, arms, arms, arm_bare a, arms_bare as]

end

/-- The clauses of a `for` may be missing. -/
theorem clause_bare (e : Option Expr) : clause (e.map Expr.bare) = clause e := by
  cases e with
  | none => rfl
  | some e => simp only [Option.map_some, clause, expr_bare]

mutual

/-- A statement looks the same wherever it was written, at every depth of indentation. -/
theorem stmt_bare (indent : String) :
    ∀ depth (s : Stmt), stmt indent depth s.bare = stmt indent depth s
  | _, .expr e | _, .print e _ | _, .ret (some e) _ => by
    simp only [Stmt.bare, Option.map_some, stmt, expr_bare e]
  | _, .varDecl _ none | _, .ret none _ => rfl
  | _, .varDecl _ (some e) => by simp only [Stmt.bare, Option.map_some, stmt, expr_bare e]; rfl
  | _, .block ss _ | _, .forever ss _ => by simp only [Stmt.bare, stmt, stmts_bare indent _ ss]
  | _, .fnDecl d => by simp only [Stmt.bare, stmt, function_bare indent _ d]
  | _, .classDecl _ none fs | _, .classDecl _ (some _) fs => by
    simp only [Stmt.bare, Option.map_none, Option.map_some, stmt, functions_bare indent _ fs]; rfl
  | _, .whileLoop c s _ => by simp only [Stmt.bare, stmt, expr_bare c, stmt_bare indent _ s]
  | _, .forLoop none c i s _ => by
    simp only [Stmt.bare, stmt, initial, clause_bare, stmt_bare indent _ s]
  | _, .forLoop (some t) c i s _ => by
    simp only [Stmt.bare, stmt, initial, clause_bare, stmt_bare indent _ t, stmt_bare indent _ s]

theorem stmts_bare (indent : String) :
    ∀ depth (ss : List Stmt), stmts indent depth (Stmt.bareAll ss) = stmts indent depth ss
  | _, [] => rfl
  | _, s :: ss => by rw [Stmt.bareAll, stmts, stmts, stmt_bare indent _ s, stmts_bare indent _ ss]

theorem function_bare (indent : String) :
    ∀ depth (d : FunctionDecl), function indent depth d.bare = function indent depth d
  | _, .mk n params body => by
    simp only [FunctionDecl.bare, function, stmts_bare indent _ body, List.map_map]; rfl

theorem functions_bare (indent : String) :
    ∀ depth (fs : List FunctionDecl),
      functions indent depth (FunctionDecl.bareAll fs) = functions indent depth fs
  | _, [] => rfl
  | _, f :: fs => by
    rw [FunctionDecl.bareAll, functions, functions, function_bare indent _ f,
      functions_bare indent _ fs]

end

/-- The text of a program is that of its bare form. -/
theorem program_bare (indent : String) (p : Program) :
    program indent p.bare = program indent p := by
  rw [program, program, Program.bare, ← Stmt.bareAll_eq_map, stmts_bare]

end Layout

end TreeWalk
