import TreeWalk.Proofs.Places
import TreeWalk.Proofs.Printer.Spacing
import TreeWalk.Proofs.Printer.Words
import TreeWalk.Proofs.Scan.ReadBack

/-!
# Texts that are spelled alike

An infinite number is written `inf`, which is read as a name. A `Respelling` takes each token to the
one that its text is read as, with the symbols of another table of names, and does the same to
trees. The layout of a tree becomes the layout of the tree that it is taken to, but for one case:
where a pattern is the number below all others, `-inf` is the text of no pattern
(`Pattern.isSpellable`).
-/

namespace TreeWalk

/-- The symbols that names get, and the symbol of the text of infinity. -/
structure Respelling where
  sym : Symbol → Symbol
  infinity : Symbol

/-! ## Trees -/

/-- Whether the text of a constant can be read as a pattern. -/
def Literal.isSpellable : Literal → Bool
  | .number x => x.isFinite || !x.isNegative
  | _ => true

mutual

/-- Whether no pattern is the negative infinite number. -/
def Pattern.isSpellable : Pattern → Bool
  | .unit _ | .var _ | .wild _ => true
  | .literal value _ => value.isSpellable
  | .named _ p => p.isSpellable
  | .tuple elements _ | .vector elements _ => Pattern.areSpellable elements

def Pattern.areSpellable : List Pattern → Bool
  | [] => true
  | p :: ps => p.isSpellable && Pattern.areSpellable ps

end

mutual

/-- Whether no pattern in the expression is the negative infinite number. -/
def Expr.isSpellable : Expr → Bool
  | .literal _ _ | .var _ | .this _ | .super _ _ => true
  | .grouping e _ | .unary _ e _ | .assign _ e | .get e _ => e.isSpellable
  | .binary left _ right _ => left.isSpellable && right.isSpellable
  | .set object _ value => object.isSpellable && value.isSpellable
  | .call callee args _ => callee.isSpellable && Expr.areSpellable args
  | .letIn _ definition body _ => definition.isSpellable && body.isSpellable
  | .seq es _ | .tuple es _ | .vector es _ => Expr.areSpellable es
  | .cond condition yes no _ => condition.isSpellable && yes.isSpellable && no.isSpellable
  | .case scrutinee arms _ => scrutinee.isSpellable && CaseArm.areSpellable arms

def Expr.areSpellable : List Expr → Bool
  | [] => true
  | e :: es => e.isSpellable && Expr.areSpellable es

def CaseArm.isSpellable : CaseArm → Bool
  | .mk p none body => p.isSpellable && body.isSpellable
  | .mk p (some guard) body => p.isSpellable && guard.isSpellable && body.isSpellable

def CaseArm.areSpellable : List CaseArm → Bool
  | [] => true
  | a :: as => a.isSpellable && CaseArm.areSpellable as

end

mutual

/-- Whether no pattern in the statement is the negative infinite number. -/
def Stmt.isSpellable : Stmt → Bool
  | .expr e | .print e _ => e.isSpellable
  | .varDecl _ e | .ret e _ => e.all Expr.isSpellable
  | .block ss _ | .forever ss _ => Stmt.areSpellable ss
  | .fnDecl decl => decl.isSpellable
  | .classDecl _ _ methods => FunctionDecl.areSpellable methods
  | .whileLoop condition body _ => condition.isSpellable && body.isSpellable
  | .forLoop none condition increment body _ =>
    condition.all Expr.isSpellable && increment.all Expr.isSpellable && body.isSpellable
  | .forLoop (some s) condition increment body _ =>
    s.isSpellable && condition.all Expr.isSpellable && increment.all Expr.isSpellable &&
      body.isSpellable

def Stmt.areSpellable : List Stmt → Bool
  | [] => true
  | s :: ss => s.isSpellable && Stmt.areSpellable ss

def FunctionDecl.isSpellable : FunctionDecl → Bool
  | .mk _ _ body => Stmt.areSpellable body

def FunctionDecl.areSpellable : List FunctionDecl → Bool
  | [] => true
  | f :: fs => f.isSpellable && FunctionDecl.areSpellable fs

end

/-- Whether no pattern in the program is the negative infinite number. -/
def Program.isSpellable (p : Program) : Bool :=
  p.statements.all Stmt.isSpellable

/-- All of a list can be spelled if each of it can, here and below. -/
theorem Pattern.areSpellable_eq (ps : List Pattern) : areSpellable ps = ps.all isSpellable := by
  induction ps with
  | nil => rfl
  | cons p ps ih => rw [areSpellable, ih, List.all_cons]

theorem Expr.areSpellable_eq (es : List Expr) : areSpellable es = es.all isSpellable := by
  induction es with
  | nil => rfl
  | cons e es ih => rw [areSpellable, ih, List.all_cons]

theorem CaseArm.areSpellable_eq (as : List CaseArm) : areSpellable as = as.all isSpellable := by
  induction as with
  | nil => rfl
  | cons a as ih => rw [areSpellable, ih, List.all_cons]

theorem Stmt.areSpellable_eq (ss : List Stmt) : areSpellable ss = ss.all isSpellable := by
  induction ss with
  | nil => rfl
  | cons s ss ih => rw [areSpellable, ih, List.all_cons]

theorem FunctionDecl.areSpellable_eq (fs : List FunctionDecl) :
    areSpellable fs = fs.all isSpellable := by
  induction fs with
  | nil => rfl
  | cons f fs ih => rw [areSpellable, ih, List.all_cons]

theorem Number.isFinite_neg (x : Number) : x.neg.isFinite = x.isFinite := by
  rw [isFinite, isFinite, magnitude_neg]

/-- The sign is written apart and does not decide whether a number is finite. -/
theorem Number.isFinite_abs (x : Number) : x.abs.isFinite = x.isFinite := by
  unfold abs
  split
  · exact x.isFinite_neg
  · rfl

namespace Respelling

variable (S : Respelling)

/-- The token that the text of a token is read as. -/
def kind : TokenKind → TokenKind
  | .ident x => .ident (S.sym x)
  | .str x => .str (S.sym x)
  | .number x => if x.isFinite then .number x else .ident S.infinity
  | k => k

def fragment : Fragment → Fragment
  | .token k => .token (S.kind k)
  | .gap text => .gap text

def ident (i : Ident) : Ident := ⟨S.sym i.name, i.span⟩

/-- The pattern that the text of a constant is read as, if there is one. -/
def constantPattern (span : Span) : Literal → Pattern
  | .number x => if x.isFinite then .literal (.number x) span else .var ⟨S.infinity, span⟩
  | .str x => .literal (.str (S.sym x)) span
  | .bool b => .literal (.bool b) span
  | .nil => .literal .nil span

/-- The expression that the text of a constant is read as. -/
def constant (span : Span) : Literal → Expr
  | .number x =>
    if x.isFinite then .literal (.number x) span
    else if x.isNegative && !x.isNaN then .unary .neg (.var ⟨S.infinity, span⟩) span
    else .var ⟨S.infinity, span⟩
  | .str x => .literal (.str (S.sym x)) span
  | .bool b => .literal (.bool b) span
  | .nil => .literal .nil span

mutual

def pattern : Pattern → Pattern
  | .unit span => .unit span
  | .var n => .var (S.ident n)
  | .literal value span => S.constantPattern span value
  | .wild span => .wild span
  | .named n p => .named (S.ident n) (pattern p)
  | .tuple elements span => .tuple (patterns elements) span
  | .vector elements span => .vector (patterns elements) span

def patterns : List Pattern → List Pattern
  | [] => []
  | p :: ps => pattern p :: patterns ps

end

mutual

def expr : Expr → Expr
  | .literal value span => S.constant span value
  | .grouping e span => .grouping (expr e) span
  | .unary op e span => .unary op (expr e) span
  | .binary left op right span => .binary (expr left) op (expr right) span
  | .var n => .var (S.ident n)
  | .assign n value => .assign (S.ident n) (expr value)
  | .call callee args span => .call (expr callee) (exprs args) span
  | .get object n => .get (expr object) (S.ident n)
  | .set object n value => .set (expr object) (S.ident n) (expr value)
  | .this span => .this span
  | .super method span => .super (S.ident method) span
  | .letIn n definition body span => .letIn (S.ident n) (expr definition) (expr body) span
  | .seq es span => .seq (exprs es) span
  | .cond condition yes no span => .cond (expr condition) (expr yes) (expr no) span
  | .tuple es span => .tuple (exprs es) span
  | .vector es span => .vector (exprs es) span
  | .case scrutinee as span => .case (expr scrutinee) (arms as) span

def exprs : List Expr → List Expr
  | [] => []
  | e :: es => expr e :: exprs es

def arm : CaseArm → CaseArm
  | .mk p none body => .mk (S.pattern p) none (expr body)
  | .mk p (some guard) body => .mk (S.pattern p) (some (expr guard)) (expr body)

def arms : List CaseArm → List CaseArm
  | [] => []
  | a :: as => arm a :: arms as

end

mutual

def stmt : Stmt → Stmt
  | .expr e => .expr (S.expr e)
  | .print e span => .print (S.expr e) span
  | .varDecl n e => .varDecl (S.ident n) (e.map S.expr)
  | .block ss span => .block (stmts ss) span
  | .fnDecl decl => .fnDecl (function decl)
  | .classDecl n superclass methods =>
    .classDecl (S.ident n) (superclass.map S.ident) (functions methods)
  | .ret e span => .ret (e.map S.expr) span
  | .whileLoop condition body span => .whileLoop (S.expr condition) (stmt body) span
  | .forever ss span => .forever (stmts ss) span
  | .forLoop none condition increment body span =>
    .forLoop none (condition.map S.expr) (increment.map S.expr) (stmt body) span
  | .forLoop (some s) condition increment body span =>
    .forLoop (some (stmt s)) (condition.map S.expr) (increment.map S.expr) (stmt body) span

def stmts : List Stmt → List Stmt
  | [] => []
  | s :: ss => stmt s :: stmts ss

def function : FunctionDecl → FunctionDecl
  | .mk n params body => .mk (S.ident n) (params.map S.ident) (stmts body)

def functions : List FunctionDecl → List FunctionDecl
  | [] => []
  | f :: fs => function f :: functions fs

end

def program (p : Program) : Program := ⟨p.statements.map S.stmt⟩

/-- Lists of parts are respelled part by part. -/
theorem patterns_eq_map (ps : List Pattern) : S.patterns ps = ps.map S.pattern := by
  induction ps with
  | nil => rfl
  | cons p ps ih => rw [patterns, ih, List.map_cons]

theorem exprs_eq_map (es : List Expr) : S.exprs es = es.map S.expr := by
  induction es with
  | nil => rfl
  | cons e es ih => rw [exprs, ih, List.map_cons]

theorem arms_eq_map (as : List CaseArm) : S.arms as = as.map S.arm := by
  induction as with
  | nil => rfl
  | cons a as ih => rw [arms, ih, List.map_cons]

theorem stmts_eq_map (ss : List Stmt) : S.stmts ss = ss.map S.stmt := by
  induction ss with
  | nil => rfl
  | cons s ss ih => rw [stmts, ih, List.map_cons]

theorem functions_eq_map (fs : List FunctionDecl) : S.functions fs = fs.map S.function := by
  induction fs with
  | nil => rfl
  | cons f fs ih => rw [functions, ih, List.map_cons]

/-! ## Layouts -/

@[simp]
theorem kind_punct (m : Punct) : S.kind (.punct m) = .punct m := rfl

/-- Operators are marks or keywords, which have one spelling. -/
@[simp]
theorem kind_binaryOp (op : BinaryOp) : S.kind op.token = op.token := by
  cases op <;> rfl

theorem kind_number (h : x.isFinite = true) : S.kind (.number x) = .number x := if_pos h

/-- The text `inf` is read as a name. -/
theorem kind_infinite (h : x.isFinite = false) : S.kind (.number x) = .ident S.infinity :=
  if_neg (by simp [h])

/-- A number keeps its kind or becomes a name, and which of the two is told by its size alone. -/
theorem kind_number_cases (x : Number) :
    x.isFinite = true ∧ S.kind (.number x) = .number x ∨
      x.isFinite = false ∧ S.kind (.number x) = .ident S.infinity := by
  cases h : x.isFinite with
  | true => exact .inl ⟨rfl, S.kind_number h⟩
  | false => exact .inr ⟨rfl, S.kind_infinite h⟩

/-- What does not tell an infinite number from a name. -/
theorem kind_number_eq {f : TokenKind → γ} (h : f (.ident S.infinity) = f (.number x)) :
    f (S.kind (.number x)) = f (.number x) := by
  rcases S.kind_number_cases x with ⟨-, hkind⟩ | ⟨-, hkind⟩
  · rw [hkind]
  · rw [hkind, h]

@[simp]
theorem fragment_token (k : TokenKind) : S.fragment (.token k) = .token (S.kind k) := rfl

@[simp]
theorem fragment_mark (m : Punct) : S.fragment (Layout.mark m) = Layout.mark m := rfl

@[simp]
theorem fragment_word (w : Keyword) : S.fragment (Layout.word w) = Layout.word w := rfl

@[simp]
theorem fragment_name (i : Ident) : S.fragment (Layout.name i) = Layout.name (S.ident i) := rfl

@[simp]
theorem fragment_space : S.fragment Layout.space = Layout.space := rfl

@[simp]
theorem fragment_newline : S.fragment Layout.newline = Layout.newline := rfl

@[simp]
theorem fragment_indentation (indent : String) (depth : Nat) :
    S.fragment (Layout.indentation indent depth) = Layout.indentation indent depth := rfl

/-- Respelling a layout respells its tokens and leaves its gaps. -/
theorem tokens_map (l : Layout) : Layout.tokens (l.map S.fragment) = l.tokens.map S.kind := by
  induction l with
  | nil => rfl
  | cons f l ih =>
    cases f with
    | token k => exact congrArg (List.cons (S.kind k)) ih
    | gap text => exact ih

theorem map_joined (sep : Layout) (ls : List Layout) :
    (Layout.joined sep ls).map S.fragment =
      Layout.joined (sep.map S.fragment) (ls.map (List.map S.fragment)) := by
  fun_induction Layout.joined sep ls with
  | case1 => rfl
  | case2 l => rfl
  | case3 l ls hne ih =>
    obtain ⟨l', ls', rfl⟩ := List.exists_cons_of_ne_nil (by simpa using hne)
    rw [List.map_append, List.map_append, ih]
    rfl

@[simp]
theorem map_commas (ls : List Layout) :
    (Layout.commas ls).map S.fragment = Layout.commas (ls.map (List.map S.fragment)) :=
  S.map_joined _ ls

/-- Braces around nothing stand on one line, and whether there is something in them stays. -/
@[simp]
theorem map_braces (indent : String) (depth : Nat) (bodies : List Layout) :
    (Layout.braces indent depth bodies).map S.fragment =
      Layout.braces indent depth (bodies.map (List.map S.fragment)) := by
  unfold Layout.braces
  cases bodies with
  | nil => rfl
  | cons body bodies => simp [List.map_flatMap, List.flatMap_map]

/-- A constant expression may be the negation of `inf`, which is laid out as the constant was. -/
theorem layout_constant (span : Span) (value : Literal) :
    Layout.expr (S.constant span value) = (Layout.literal value).map S.fragment := by
  cases value with
  | number x =>
    by_cases hfinite : x.isFinite = true <;>
      by_cases hsigned : (x.isNegative && !x.isNaN) = true <;>
      simp [constant, Layout.expr, Layout.literal, Layout.name, UnaryOp.mark, kind, hfinite,
        hsigned, x.isFinite_abs]
  | bool b => cases b <;> rfl
  | _ => rfl

/-- A pattern has no negation, so the number below all others has to be left out. -/
theorem layout_constantPattern (span : Span) {value : Literal} (h : value.isSpellable = true) :
    Layout.pattern (S.constantPattern span value) = (Layout.literal value).map S.fragment := by
  cases value with
  | number x =>
    by_cases hfinite : x.isFinite = true
    · by_cases hsigned : (x.isNegative && !x.isNaN) = true <;>
        simp [constantPattern, Layout.pattern, Layout.literal, kind, hfinite, hsigned,
          x.isFinite_abs]
    · have hsign : x.isNegative = false := by simpa [Literal.isSpellable, hfinite] using h
      simp [constantPattern, Layout.pattern, Layout.literal, Layout.name, kind, hfinite, hsign]
  | bool b => cases b <;> rfl
  | _ => rfl

mutual

/-- The layout of a respelled pattern is the respelled layout. -/
theorem layout_pattern : ∀ p : Pattern, p.isSpellable = true →
    Layout.pattern (S.pattern p) = (Layout.pattern p).map S.fragment
  | .unit _, _ | .var _, _ | .wild _, _ => rfl
  | .literal value span, h => S.layout_constantPattern span h
  | .named n p, h => by
    simp [pattern, Layout.pattern, layout_pattern p h]
  | .tuple ps _, h | .vector ps _, h => by
    simp only [pattern, Layout.pattern, layout_patterns ps h, map_commas, fragment_mark,
      List.map_cons, List.map_append, List.map_nil]

theorem layout_patterns : ∀ ps : List Pattern, Pattern.areSpellable ps = true →
    Layout.patterns (S.patterns ps) = (Layout.patterns ps).map (List.map S.fragment)
  | [], _ => rfl
  | p :: ps, h => by
    obtain ⟨hp, hps⟩ := (Bool.and_eq_true _ _).mp h
    rw [patterns, Layout.patterns, Layout.patterns, layout_pattern p hp, layout_patterns ps hps,
      List.map_cons]

end

mutual

/-- The same for expressions. Of each kind of part all parts have to be spellable. -/
theorem layout_expr : ∀ e : Expr, e.isSpellable = true →
    Layout.expr (S.expr e) = (Layout.expr e).map S.fragment
  | .literal value span, _ => S.layout_constant span value
  | .var _, _ | .this _, _ | .super _ _, _ | .seq [] _, _ => rfl
  | .grouping e _, h | .unary _ e _, h | .assign _ e, h | .get e _, h => by
    simp [expr, Layout.expr, layout_expr e h]
  | .binary left _ right _, h => by
    obtain ⟨hleft, hright⟩ := (Bool.and_eq_true _ _).mp h
    simp [expr, Layout.expr, layout_expr left hleft, layout_expr right hright]
  | .set object _ value, h => by
    obtain ⟨hobject, hvalue⟩ := (Bool.and_eq_true _ _).mp h
    simp [expr, Layout.expr, layout_expr object hobject, layout_expr value hvalue]
  | .letIn _ definition body _, h => by
    obtain ⟨hdefinition, hbody⟩ := (Bool.and_eq_true _ _).mp h
    simp [expr, Layout.expr, layout_expr definition hdefinition, layout_expr body hbody]
  | .cond condition yes no _, h => by
    obtain ⟨h, hno⟩ := (Bool.and_eq_true _ _).mp h
    obtain ⟨hcondition, hyes⟩ := (Bool.and_eq_true _ _).mp h
    simp [expr, Layout.expr, layout_expr condition hcondition, layout_expr yes hyes,
      layout_expr no hno]
  | .call callee args _, h => by
    obtain ⟨hcallee, hargs⟩ := (Bool.and_eq_true _ _).mp h
    simp only [expr, Layout.expr, layout_expr callee hcallee, layout_exprs args hargs, map_commas,
      fragment_mark, List.map_cons, List.map_append, List.map_nil]
  | .tuple es _, h | .vector es _, h => by
    simp only [expr, Layout.expr, layout_exprs es h, map_commas, fragment_mark, List.map_cons,
      List.map_append, List.map_nil]
  | .seq (e :: es) _, h => by
    have hall := layout_exprs (e :: es) h
    simp only [exprs, Layout.exprs] at hall
    simp only [expr, exprs, Layout.expr, hall, map_joined, fragment_mark, fragment_word,
      fragment_space, List.map_cons, List.map_append, List.map_nil]
  | .case scrutinee [] _, h => by
    obtain ⟨hscrutinee, -⟩ := (Bool.and_eq_true _ _).mp h
    simp [expr, arms, Layout.expr, layout_expr scrutinee hscrutinee]
  | .case scrutinee (a :: as) _, h => by
    obtain ⟨hscrutinee, harms⟩ := (Bool.and_eq_true _ _).mp h
    have hall := layout_arms (a :: as) harms
    simp only [arms, Layout.arms] at hall
    simp only [expr, arms, Layout.expr, layout_expr scrutinee hscrutinee, hall, map_commas,
      fragment_mark, fragment_word, fragment_space, List.map_cons, List.map_append, List.map_nil]

theorem layout_exprs : ∀ es : List Expr, Expr.areSpellable es = true →
    Layout.exprs (S.exprs es) = (Layout.exprs es).map (List.map S.fragment)
  | [], _ => rfl
  | e :: es, h => by
    obtain ⟨he, hes⟩ := (Bool.and_eq_true _ _).mp h
    rw [exprs, Layout.exprs, Layout.exprs, layout_expr e he, layout_exprs es hes, List.map_cons]

theorem layout_arm :
    ∀ a : CaseArm, a.isSpellable = true → Layout.arm (S.arm a) = (Layout.arm a).map S.fragment
  | .mk p none body, h => by
    obtain ⟨hp, hbody⟩ := (Bool.and_eq_true _ _).mp h
    simp [arm, Layout.arm, S.layout_pattern p hp, layout_expr body hbody]
  | .mk p (some guard) body, h => by
    obtain ⟨h, hbody⟩ := (Bool.and_eq_true _ _).mp h
    obtain ⟨hp, hguard⟩ := (Bool.and_eq_true _ _).mp h
    simp [arm, Layout.arm, S.layout_pattern p hp, layout_expr guard hguard, layout_expr body hbody]

theorem layout_arms : ∀ as : List CaseArm, CaseArm.areSpellable as = true →
    Layout.arms (S.arms as) = (Layout.arms as).map (List.map S.fragment)
  | [], _ => rfl
  | a :: as, h => by
    obtain ⟨ha, has⟩ := (Bool.and_eq_true _ _).mp h
    rw [arms, Layout.arms, Layout.arms, layout_arm a ha, layout_arms as has, List.map_cons]

end

/-- The clauses of a `for` may be missing. -/
theorem layout_clause (e : Option Expr) (h : e.all Expr.isSpellable = true) :
    Layout.clause (e.map S.expr) = (Layout.clause e).map S.fragment := by
  cases e with
  | none => rfl
  | some e => exact congrArg (List.cons _) (S.layout_expr e h)

section

variable (indent : String)

mutual

/-- The same for statements and functions, at every depth. -/
theorem layout_stmt : ∀ depth (s : Stmt), s.isSpellable = true →
    Layout.stmt indent depth (S.stmt s) = (Layout.stmt indent depth s).map S.fragment
  | _, .expr e, h | _, .print e _, h | _, .varDecl _ (some e), h | _, .ret (some e) _, h => by
    simp [stmt, Layout.stmt, S.layout_expr e h]
  | _, .varDecl _ none, _ | _, .ret none _, _ => rfl
  | depth, .block ss _, h | depth, .forever ss _, h => by
    simp only [stmt, Layout.stmt, layout_stmts (depth + 1) ss h, map_braces, fragment_word,
      fragment_space, List.map_cons, List.map_append, List.map_nil]
  | depth, .fnDecl f, h => by
    simp [stmt, Layout.stmt, layout_function depth f h]
  | depth, .classDecl _ none fs, h | depth, .classDecl _ (some _) fs, h => by
    simp only [stmt, Option.map, Layout.stmt, layout_functions (depth + 1) fs h, map_braces,
      fragment_word, fragment_mark, fragment_name, fragment_space, List.map_cons, List.map_append,
      List.map_nil]
  | depth, .whileLoop condition body _, h => by
    obtain ⟨hcondition, hbody⟩ := (Bool.and_eq_true _ _).mp h
    simp [stmt, Layout.stmt, S.layout_expr condition hcondition, layout_stmt depth body hbody]
  | depth, .forLoop none condition increment body _, h => by
    obtain ⟨h, hbody⟩ := (Bool.and_eq_true _ _).mp h
    obtain ⟨hcondition, hincrement⟩ := (Bool.and_eq_true _ _).mp h
    simp [stmt, Layout.stmt, Layout.initial, S.layout_clause condition hcondition,
      S.layout_clause increment hincrement, layout_stmt depth body hbody]
  | depth, .forLoop (some s) condition increment body _, h => by
    obtain ⟨h, hbody⟩ := (Bool.and_eq_true _ _).mp h
    obtain ⟨h, hincrement⟩ := (Bool.and_eq_true _ _).mp h
    obtain ⟨hs, hcondition⟩ := (Bool.and_eq_true _ _).mp h
    simp [stmt, Layout.stmt, Layout.initial, layout_stmt depth s hs, S.layout_clause condition
      hcondition, S.layout_clause increment hincrement, layout_stmt depth body hbody]

theorem layout_stmts : ∀ depth (ss : List Stmt), Stmt.areSpellable ss = true →
    Layout.stmts indent depth (S.stmts ss) = (Layout.stmts indent depth ss).map
      (List.map S.fragment)
  | _, [], _ => rfl
  | depth, s :: ss, h => by
    obtain ⟨hs, hss⟩ := (Bool.and_eq_true _ _).mp h
    rw [stmts, Layout.stmts, Layout.stmts, layout_stmt depth s hs, layout_stmts depth ss hss,
      List.map_cons]

theorem layout_function : ∀ depth (f : FunctionDecl), f.isSpellable = true →
    Layout.function indent depth (S.function f) = (Layout.function indent depth f).map S.fragment
  | depth, .mk n params body, h => by
    simp only [function, Layout.function, layout_stmts (depth + 1) body h, map_braces, map_commas,
      fragment_mark, fragment_name, fragment_space, List.map_cons, List.map_append, List.map_nil,
      List.map_map, Function.comp_def]

theorem layout_functions : ∀ depth (fs : List FunctionDecl), FunctionDecl.areSpellable fs = true →
    Layout.functions indent depth (S.functions fs) = (Layout.functions indent depth fs).map
      (List.map S.fragment)
  | _, [], _ => rfl
  | depth, f :: fs, h => by
    obtain ⟨hf, hfs⟩ := (Bool.and_eq_true _ _).mp h
    rw [functions, Layout.functions, Layout.functions, layout_function depth f hf,
      layout_functions depth fs hfs, List.map_cons]

end

/-- A program is laid out as the one that its text is read as. -/
theorem layout_program {p : Program} (h : p.isSpellable = true) :
    Layout.program indent (S.program p) = (Layout.program indent p).map S.fragment := by
  rw [Program.isSpellable, ← Stmt.areSpellable_eq] at h
  rw [Layout.program, Layout.program, program, ← stmts_eq_map,
    S.layout_stmts indent 0 p.statements h, List.map_flatMap, List.flatMap_map]
  simp

end

/-! ## Gaps -/

/-- A token that needs no gap behind it needs none when it is respelled: such a token is a mark. -/
theorem isFree_kind {k : TokenKind} (h : k.isFree = true) : (S.kind k).isFree = true := by
  cases k with
  | number x => cases h
  | _ => exact h

/-- A token that may stand right behind another one still may. -/
theorem closes_kind {k : TokenKind} (h : k.closes = true) : (S.kind k).closes = true := by
  cases k with
  | number x => cases h
  | _ => exact h

/-- A name can begin an expression as a number can. -/
theorem beginsExpr_kind (k : TokenKind) : (S.kind k).beginsExpr = k.beginsExpr := by
  cases k with
  | number x => exact S.kind_number_eq rfl
  | _ => rfl

/-- Nothing becomes a mark that was none. -/
theorem kind_eq_punct {k : TokenKind} : S.kind k = .punct m ↔ k = .punct m := by
  cases k with
  | number x => rcases S.kind_number_cases x with ⟨-, hkind⟩ | ⟨-, hkind⟩ <;> simp [hkind]
  | _ => simp [kind]

theorem touches_kind {k k' : TokenKind} (h : k.touches k' = true) :
    (S.kind k).touches (S.kind k') = true := by
  by_cases hdot : k = .punct .dot
  · subst hdot
    cases k' with
    | ident x => rfl
    | _ => cases h
  · have hdot' : S.kind k ≠ .punct .dot := fun heq => hdot (S.kind_eq_punct.mp heq)
    rcases TokenKind.touches_cases hdot h with hcloses | ⟨rfl, hbegins⟩
    · exact TokenKind.touches_of_closes hdot' (S.closes_kind hcloses)
    · simp [TokenKind.touches, S.beginsExpr_kind, hbegins]

/-- Respelled tokens do not run into one another where the tokens did not. -/
theorem stands_map {l : Layout} (h : Layout.Stands k l) :
    Layout.Stands (S.kind k) (l.map S.fragment) := by
  rcases h with hfree | h
  · exact .inl (S.isFree_kind hfree)
  · refine .inr ?_
    cases l with
    | nil => exact fun heq => h (S.kind_eq_punct.mp heq)
    | cons f l =>
      cases f with
      | gap text => exact ⟨h.1, fun heq => h.2 (S.kind_eq_punct.mp heq)⟩
      | token k' => exact S.touches_kind h

theorem spaced_map {l : Layout} (h : l.Spaced) : Layout.Spaced (l.map S.fragment) := by
  induction l with
  | nil => trivial
  | cons f l ih =>
    cases f with
    | gap text => exact ⟨h.1, ih h.2⟩
    | token k => exact ⟨S.stands_map h.1, ih h.2⟩

end Respelling

/-! ## Places -/

mutual

/-- Whether a tree can be spelled does not depend on where it was written. -/
theorem Pattern.isSpellable_bare : ∀ p : Pattern, p.bare.isSpellable = p.isSpellable
  | .unit _ | .var _ | .literal _ _ | .wild _ => rfl
  | .named _ p => isSpellable_bare p
  | .tuple ps _ | .vector ps _ => areSpellable_bare ps

theorem Pattern.areSpellable_bare : ∀ ps : List Pattern, areSpellable (bareAll ps) = areSpellable ps
  | [] => rfl
  | p :: ps => congrArg₂ and (isSpellable_bare p) (areSpellable_bare ps)

end

mutual

/-- The same for expressions and arms. -/
theorem Expr.isSpellable_bare : ∀ e : Expr, e.bare.isSpellable = e.isSpellable
  | .literal _ _ | .var _ | .this _ | .super _ _ => rfl
  | .grouping e _ | .unary _ e _ | .assign _ e | .get e _ => Expr.isSpellable_bare e
  | .binary left _ right _ =>
    congrArg₂ and (Expr.isSpellable_bare left) (Expr.isSpellable_bare right)
  | .set object _ value =>
    congrArg₂ and (Expr.isSpellable_bare object) (Expr.isSpellable_bare value)
  | .call callee args _ =>
    congrArg₂ and (Expr.isSpellable_bare callee) (Expr.areSpellable_bare args)
  | .letIn _ definition body _ =>
    congrArg₂ and (Expr.isSpellable_bare definition) (Expr.isSpellable_bare body)
  | .seq es _ | .tuple es _ | .vector es _ => Expr.areSpellable_bare es
  | .cond condition yes no _ =>
    congrArg₂ and (congrArg₂ and (Expr.isSpellable_bare condition) (Expr.isSpellable_bare yes))
      (Expr.isSpellable_bare no)
  | .case scrutinee arms _ =>
    congrArg₂ and (Expr.isSpellable_bare scrutinee) (CaseArm.areSpellable_bare arms)

theorem Expr.areSpellable_bare :
    ∀ es : List Expr, Expr.areSpellable (Expr.bareAll es) = Expr.areSpellable es
  | [] => rfl
  | e :: es => congrArg₂ and (Expr.isSpellable_bare e) (Expr.areSpellable_bare es)

theorem CaseArm.isSpellable_bare : ∀ a : CaseArm, a.bare.isSpellable = a.isSpellable
  | .mk p none body => congrArg₂ and p.isSpellable_bare body.isSpellable_bare
  | .mk p (some guard) body =>
    congrArg₂ and (congrArg₂ and p.isSpellable_bare guard.isSpellable_bare) body.isSpellable_bare

theorem CaseArm.areSpellable_bare :
    ∀ as : List CaseArm, CaseArm.areSpellable (CaseArm.bareAll as) = CaseArm.areSpellable as
  | [] => rfl
  | a :: as => congrArg₂ and (CaseArm.isSpellable_bare a) (CaseArm.areSpellable_bare as)

end

theorem Expr.all_isSpellable_bare (e : Option Expr) :
    (e.map bare).all isSpellable = e.all isSpellable := by
  cases e with
  | none => rfl
  | some e => exact e.isSpellable_bare

mutual

/-- The same for statements and functions. -/
theorem Stmt.isSpellable_bare : ∀ s : Stmt, s.bare.isSpellable = s.isSpellable
  | .expr e | .print e _ => e.isSpellable_bare
  | .varDecl _ e | .ret e _ => Expr.all_isSpellable_bare e
  | .block ss _ | .forever ss _ => Stmt.areSpellable_bare ss
  | .fnDecl f => f.isSpellable_bare
  | .classDecl _ _ fs => FunctionDecl.areSpellable_bare fs
  | .whileLoop condition body _ =>
    congrArg₂ and condition.isSpellable_bare (Stmt.isSpellable_bare body)
  | .forLoop none condition increment body _ =>
    congrArg₂ and
      (congrArg₂ and (Expr.all_isSpellable_bare condition) (Expr.all_isSpellable_bare increment))
      (Stmt.isSpellable_bare body)
  | .forLoop (some s) condition increment body _ =>
    congrArg₂ and
      (congrArg₂ and (congrArg₂ and (Stmt.isSpellable_bare s) (Expr.all_isSpellable_bare condition))
      (Expr.all_isSpellable_bare increment)) (Stmt.isSpellable_bare body)

theorem Stmt.areSpellable_bare :
    ∀ ss : List Stmt, Stmt.areSpellable (Stmt.bareAll ss) = Stmt.areSpellable ss
  | [] => rfl
  | s :: ss => congrArg₂ and (Stmt.isSpellable_bare s) (Stmt.areSpellable_bare ss)

theorem FunctionDecl.isSpellable_bare : ∀ f : FunctionDecl, f.bare.isSpellable = f.isSpellable
  | .mk _ _ body => Stmt.areSpellable_bare body

theorem FunctionDecl.areSpellable_bare :
    ∀ fs : List FunctionDecl, FunctionDecl.areSpellable (FunctionDecl.bareAll fs) =
      FunctionDecl.areSpellable fs
  | [] => rfl
  | f :: fs => congrArg₂ and (FunctionDecl.isSpellable_bare f) (FunctionDecl.areSpellable_bare fs)

end

theorem Program.isSpellable_bare (p : Program) : p.bare.isSpellable = p.isSpellable := by
  have h := Stmt.areSpellable_bare p.statements
  rw [Stmt.areSpellable_eq, Stmt.areSpellable_eq, Stmt.bareAll_eq_map] at h
  exact h

end TreeWalk
