import TreeWalk.Printer.Layout

/-!
# The words of a layout

What the tokens of a layout are, gaps left out: they follow the tree, and do not depend on the
indent or the depth.
-/

namespace TreeWalk

/-- Words of items with a separator between them. -/
def joinWords (sep : TokenKind) : List (List TokenKind) → List TokenKind
  | [] => []
  | [w] => w
  | w :: ws => w ++ sep :: joinWords sep ws

theorem joinWords_cons (sep : TokenKind) (w : List TokenKind) (h : ws ≠ []) :
    joinWords sep (w :: ws) = w ++ sep :: joinWords sep ws := by
  obtain ⟨w', ws', rfl⟩ := List.exists_cons_of_ne_nil h
  rfl

/-- Joining loses no word of an item. -/
theorem mem_joinWords {as : List α} {f : α → List TokenKind} (ha : a ∈ as) (hk : k ∈ f a) :
    k ∈ joinWords sep (as.map f) := by
  induction as with
  | nil => cases ha
  | cons b as ih =>
    cases as with
    | nil =>
      obtain rfl := List.mem_singleton.mp ha
      exact hk
    | cons c as =>
      rw [List.map_cons, joinWords_cons _ _ (by simp)]
      rcases List.mem_cons.mp ha with rfl | ha
      · exact List.mem_append_left _ hk
      · exact List.mem_append_right _ (List.mem_cons_of_mem _ (ih ha))

namespace Layout

@[simp]
theorem tokens_nil : tokens [] = [] := rfl

/-- Words follow one another as the parts of the layout do. -/
@[simp]
theorem tokens_append (l l' : Layout) : (l ++ l').tokens = l.tokens ++ l'.tokens :=
  List.filterMap_append

@[simp]
theorem tokens_token (k : TokenKind) (l : Layout) : tokens (.token k :: l) = k :: l.tokens := rfl

@[simp]
theorem tokens_mark (m : Punct) (l : Layout) : tokens (mark m :: l) = .punct m :: l.tokens := rfl

@[simp]
theorem tokens_word (k : Keyword) (l : Layout) :
    tokens (word k :: l) = .keyword k :: l.tokens := rfl

@[simp]
theorem tokens_name (i : Ident) (l : Layout) :
    tokens (name i :: l) = .ident i.name :: l.tokens := rfl

/-- A gap is no word. -/
@[simp]
theorem tokens_space (l : Layout) : tokens (space :: l) = l.tokens := rfl

@[simp]
theorem tokens_newline (l : Layout) : tokens (newline :: l) = l.tokens := rfl

@[simp]
theorem tokens_indentation (indent : String) (depth : Nat) (l : Layout) :
    tokens (indentation indent depth :: l) = l.tokens := rfl

/-- A separator is a mark with a gap behind it, of which only the mark is a word. -/
theorem tokens_joined (m : Punct) (ls : List Layout) :
    (joined [mark m, space] ls).tokens = joinWords (.punct m) (ls.map tokens) := by
  fun_induction joined [mark m, space] ls with
  | case1 => rfl
  | case2 l => rfl
  | case3 l ls hne ih =>
    rw [List.map_cons, joinWords_cons _ _ (by simpa using hne), ← ih]
    simp

@[simp]
theorem tokens_commas (ls : List Layout) :
    (commas ls).tokens = joinWords (.punct .comma) (ls.map tokens) :=
  tokens_joined .comma ls

@[simp]
theorem tokens_flatMap (f : α → Layout) (as : List α) :
    tokens (as.flatMap f) = as.flatMap fun a => (f a).tokens := by
  induction as with
  | nil => rfl
  | cons a as ih => rw [List.flatMap_cons, tokens_append, ih, List.flatMap_cons]

/-- Braces around nothing are laid out on one line, but the words are the same. -/
theorem tokens_braces (indent : String) (depth : Nat) (bodies : List Layout) :
    (braces indent depth bodies).tokens
      = .punct .lbrace :: (bodies.flatMap tokens ++ [.punct .rbrace]) := by
  unfold braces
  split
  · next h => simp [List.isEmpty_iff.mp h]
  · simp

/-- The layouts of a list of parts, here and below, are those of its elements. -/
@[simp]
theorem patterns_eq_map (ps : List Pattern) : patterns ps = ps.map pattern := by
  induction ps with
  | nil => rfl
  | cons p ps ih => rw [patterns, ih, List.map_cons]

@[simp]
theorem exprs_eq_map (es : List Expr) : exprs es = es.map expr := by
  induction es with
  | nil => rfl
  | cons e es ih => rw [exprs, ih, List.map_cons]

@[simp]
theorem arms_eq_map (as : List CaseArm) : arms as = as.map arm := by
  induction as with
  | nil => rfl
  | cons a as ih => rw [arms, ih, List.map_cons]

@[simp]
theorem stmts_eq_map (indent : String) (depth : Nat) (ss : List Stmt) :
    stmts indent depth ss = ss.map (stmt indent depth) := by
  induction ss with
  | nil => rfl
  | cons s ss ih => rw [stmts, ih, List.map_cons]

end Layout

/-- The words of a pattern. -/
def Pattern.words (p : Pattern) : List TokenKind := (Layout.pattern p).tokens

namespace Pattern

variable (span : Span)

/-- As in `()`. -/
@[simp]
theorem words_unit : (unit span).words = [.punct .lparen, .punct .rparen] := rfl

@[simp]
theorem words_wild : (wild span).words = [.punct .underscore] := rfl

@[simp]
theorem words_var (n : Ident) : (var n).words = [.ident n.name] := rfl

theorem words_literal (value : Literal) :
    (literal value span).words = (Layout.literal value).tokens := rfl

/-- As in `n @ p`. -/
@[simp]
theorem words_named (n : Ident) (p : Pattern) :
    (named n p).words = .ident n.name :: .punct .atSign :: p.words := rfl

/-- As in `(p, q)`. -/
@[simp]
theorem words_tuple (ps : List Pattern) :
    (tuple ps span).words = .punct .lparen ::
      (joinWords (.punct .comma) (ps.map words) ++ [.punct .rparen]) := by
  simp only [words, Layout.pattern, Layout.patterns_eq_map, Layout.tokens_append,
    Layout.tokens_mark, Layout.tokens_commas, List.map_map]
  rfl

/-- As in `[p, q]`. -/
@[simp]
theorem words_vector (ps : List Pattern) :
    (vector ps span).words
      = .punct .lbracket :: (joinWords (.punct .comma) (ps.map words) ++ [.punct .rbracket]) := by
  simp only [words, Layout.pattern, Layout.patterns_eq_map, Layout.tokens_append,
    Layout.tokens_mark, Layout.tokens_commas, List.map_map]
  rfl

end Pattern

/-- The words of an expression. -/
def Expr.words (e : Expr) : List TokenKind := (Layout.expr e).tokens

/-- The words of an arm of a `case`. -/
def CaseArm.words (a : CaseArm) : List TokenKind := (Layout.arm a).tokens

namespace Expr

variable (span : Span)

theorem words_literal (value : Literal) :
    (literal value span).words = (Layout.literal value).tokens := rfl

/-- As in `(e)`. -/
@[simp]
theorem words_grouping (e : Expr) :
    (grouping e span).words = .punct .lparen :: (e.words ++ [.punct .rparen]) := by
  simp [words, Layout.expr]

@[simp]
theorem words_unary (op : UnaryOp) (e : Expr) :
    (unary op e span).words = .punct op.mark :: e.words := rfl

/-- An operator stands between its operands. There are no parentheses but those of the tree. -/
@[simp]
theorem words_binary (left : Expr) (op : BinaryOp) (right : Expr) :
    (binary left op right span).words = left.words ++ op.token :: right.words := by
  simp [words, Layout.expr]

@[simp]
theorem words_var (n : Ident) : (var n).words = [.ident n.name] := rfl

/-- As in `n = e`. -/
@[simp]
theorem words_assign (n : Ident) (value : Expr) :
    (assign n value).words = .ident n.name :: .punct .eq :: value.words := rfl

/-- As in `f(a, b)`. -/
@[simp]
theorem words_call (callee : Expr) (args : List Expr) :
    (call callee args span).words = callee.words
      ++ .punct .lparen :: (joinWords (.punct .comma) (args.map words) ++ [.punct .rparen]) := by
  simp only [words, Layout.expr, Layout.exprs_eq_map, Layout.tokens_append, Layout.tokens_mark,
    Layout.tokens_commas, List.map_map, List.append_assoc]
  rfl

@[simp]
theorem words_get (object : Expr) (n : Ident) :
    (get object n).words = object.words ++ [.punct .dot, .ident n.name] := by
  simp [words, Layout.expr]

/-- As in `o.n = e`. -/
@[simp]
theorem words_set (object : Expr) (n : Ident) (value : Expr) :
    (set object n value).words = object.words ++ .punct .dot :: .ident n.name :: .punct .eq ::
      value.words := by
  simp [words, Layout.expr]

@[simp]
theorem words_this : (this span).words = [.keyword .this] := rfl

@[simp]
theorem words_super (method : Ident) :
    (super method span).words = [.keyword .super, .punct .dot, .ident method.name] := rfl

/-- As in `let n = d in e`. -/
@[simp]
theorem words_letIn (n : Ident) (definition body : Expr) :
    (letIn n definition body span).words = .keyword .let_ :: .ident n.name :: .punct .eq
      :: (definition.words ++ .keyword .in_ :: body.words) := by
  simp [words, Layout.expr]

/-- As in `do { e; f }`, without a semicolon behind the last. -/
@[simp]
theorem words_seq (body : List Expr) :
    (seq body span).words = .keyword .do_ :: .punct .lbrace
      :: (joinWords (.punct .semicolon) (body.map words) ++ [.punct .rbrace]) := by
  cases body with
  | nil => rfl
  | cons e es =>
    simp only [words, Layout.expr, Layout.exprs_eq_map, Layout.tokens_append, Layout.tokens_joined,
      ← List.map_cons, List.map_map]
    rfl

/-- As in `if c then e else f`. -/
@[simp]
theorem words_cond (condition yes no : Expr) :
    (cond condition yes no span).words = .keyword .if_ :: (condition.words ++ .keyword .then_
      :: (yes.words ++ .keyword .else_ :: no.words)) := by
  simp [words, Layout.expr]

@[simp]
theorem words_tuple (es : List Expr) :
    (tuple es span).words = .punct .lparen ::
      (joinWords (.punct .comma) (es.map words) ++ [.punct .rparen]) := by
  simp only [words, Layout.expr, Layout.exprs_eq_map, Layout.tokens_append, Layout.tokens_mark,
    Layout.tokens_commas, List.map_map]
  rfl

@[simp]
theorem words_vector (es : List Expr) :
    (vector es span).words
      = .punct .lbracket :: (joinWords (.punct .comma) (es.map words) ++ [.punct .rbracket]) := by
  simp only [words, Layout.expr, Layout.exprs_eq_map, Layout.tokens_append, Layout.tokens_mark,
    Layout.tokens_commas, List.map_map]
  rfl

/-- As in `case e of { a, b }`. -/
@[simp]
theorem words_case (scrutinee : Expr) (arms : List CaseArm) :
    (case scrutinee arms span).words = .keyword .case ::
      (scrutinee.words ++ .keyword .of :: .punct .lbrace
      :: (joinWords (.punct .comma) (arms.map CaseArm.words) ++ [.punct .rbrace])) := by
  cases arms with
  | nil => simp [words, Layout.expr, joinWords]
  | cons a as =>
    simp only [words, Layout.expr, Layout.arms_eq_map, Layout.tokens_append, Layout.tokens_commas,
      ← List.map_cons, List.map_map, List.append_assoc]
    rfl

end Expr

@[simp]
theorem CaseArm.words_mk_none (p : Pattern) (body : Expr) :
    (CaseArm.mk p none body).words = p.words ++ .keyword .then_ :: body.words := by
  simp [words, Layout.arm, Pattern.words, Expr.words]

/-- As in `p if g then e`. -/
@[simp]
theorem CaseArm.words_mk_some (p : Pattern) (guard body : Expr) :
    (CaseArm.mk p (some guard) body).words
      = p.words ++ .keyword .if_ :: (guard.words ++ .keyword .then_ :: body.words) := by
  simp [words, Layout.arm, Pattern.words, Expr.words]

/-- The words of a statement. -/
def Stmt.words (s : Stmt) : List TokenKind := (Layout.stmt "" 0 s).tokens

/-- The words of a function without its `fn`. -/
def FunctionDecl.words (f : FunctionDecl) : List TokenKind := (Layout.function "" 0 f).tokens

namespace Layout

mutual

/-- The words of a statement are the same for every indent and at every depth, by recursion over the
statement along with the lists and the functions in it. -/
theorem tokens_stmt (indent : String) : ∀ depth (s : Stmt), (stmt indent depth s).tokens = s.words
  | _, .expr _ | _, .print _ _ | _, .ret (some _) _ | _, .varDecl _ none | _, .ret none _
  | _, .varDecl _ (some _) => rfl
  | _, .block ss _ | _, .forever ss _ => by
    rw [Stmt.words]
    simp only [stmt, tokens_append, tokens_braces, tokens_stmts]
  | _, .fnDecl d => by
    rw [Stmt.words]
    simp only [stmt, tokens_append, tokens_function indent _ d, tokens_function "" _ d]
  | _, .classDecl _ none fs | _, .classDecl _ (some _) fs => by
    rw [Stmt.words]
    simp only [stmt, tokens_append, tokens_braces, tokens_functions]
  | _, .whileLoop _ s _ => by
    rw [Stmt.words]
    simp only [stmt, tokens_append, tokens_space, tokens_stmt indent _ s, tokens_stmt "" _ s]
  | _, .forLoop none _ _ s _ => by
    rw [Stmt.words]
    simp only [stmt, tokens_append, initial, tokens_stmt indent _ s, tokens_stmt "" _ s]
  | _, .forLoop (some t) _ _ s _ => by
    rw [Stmt.words]
    simp only [stmt, tokens_append, initial, tokens_stmt indent _ s, tokens_stmt "" _ s,
      tokens_stmt indent _ t, tokens_stmt "" _ t]

theorem tokens_stmts (indent : String) :
    ∀ depth (ss : List Stmt), (stmts indent depth ss).flatMap tokens = ss.flatMap Stmt.words
  | _, [] => rfl
  | _, s :: ss => by
    rw [stmts, List.flatMap_cons, List.flatMap_cons, tokens_stmt indent _ s,
      tokens_stmts indent _ ss]

theorem tokens_function (indent : String) :
    ∀ depth (f : FunctionDecl), (function indent depth f).tokens = f.words
  | _, .mk _ _ body => by
    rw [FunctionDecl.words]
    simp only [function, tokens_append, tokens_braces, tokens_stmts indent _ body,
      tokens_stmts "" _ body]

theorem tokens_functions (indent : String) :
    ∀ depth (fs : List FunctionDecl),
      (functions indent depth fs).flatMap tokens = fs.flatMap FunctionDecl.words
  | _, [] => rfl
  | _, f :: fs => by
    rw [functions, List.flatMap_cons, List.flatMap_cons, tokens_function indent _ f,
      tokens_functions indent _ fs]

end

end Layout

namespace Stmt

variable (span : Span)

@[simp]
theorem words_expr (e : Expr) : (expr e).words = e.words ++ [.punct .semicolon] := by
  simp [words, Layout.stmt, Expr.words]

/-- As in `print e;`. -/
@[simp]
theorem words_print (e : Expr) :
    (print e span).words = .keyword .print :: (e.words ++ [.punct .semicolon]) := by
  simp [words, Layout.stmt, Expr.words]

@[simp]
theorem words_varDecl_none (n : Ident) :
    (varDecl n none).words = [.keyword .var, .ident n.name, .punct .semicolon] := rfl

/-- As in `var n = e;`. -/
@[simp]
theorem words_varDecl_some (n : Ident) (e : Expr) :
    (varDecl n (some e)).words
      = .keyword .var :: .ident n.name :: .punct .eq :: (e.words ++ [.punct .semicolon]) := by
  simp [words, Layout.stmt, Expr.words]

/-- As in `{ s t }`. -/
@[simp]
theorem words_block (ss : List Stmt) :
    (block ss span).words = .punct .lbrace :: (ss.flatMap words ++ [.punct .rbrace]) := by
  rw [words, Layout.stmt, Layout.tokens_braces, Layout.tokens_stmts]

@[simp]
theorem words_fnDecl (d : FunctionDecl) : (fnDecl d).words = .keyword .fn :: d.words := rfl

@[simp]
theorem words_classDecl_none (n : Ident) (fs : List FunctionDecl) :
    (classDecl n none fs).words = .keyword .class_ :: .ident n.name :: .punct .lbrace
      :: (fs.flatMap FunctionDecl.words ++ [.punct .rbrace]) := by
  rw [words, Layout.stmt, Layout.tokens_append, Layout.tokens_braces, Layout.tokens_functions]
  rfl

/-- As in `class n < m { f() { } }`, where methods have no `fn`. -/
@[simp]
theorem words_classDecl_some (n superclass : Ident) (fs : List FunctionDecl) :
    (classDecl n (some superclass) fs).words = .keyword .class_ :: .ident n.name :: .punct .lt
      :: .ident superclass.name :: .punct .lbrace ::
        (fs.flatMap FunctionDecl.words ++ [.punct .rbrace]) := by
  rw [words, Layout.stmt, Layout.tokens_append, Layout.tokens_braces, Layout.tokens_functions]
  rfl

@[simp]
theorem words_ret_none : (ret none span).words = [.keyword .return_, .punct .semicolon] := rfl

@[simp]
theorem words_ret_some (e : Expr) :
    (ret (some e) span).words = .keyword .return_ :: (e.words ++ [.punct .semicolon]) := by
  simp [words, Layout.stmt, Expr.words]

/-- A condition without parentheses of its own is followed by the body at once. -/
@[simp]
theorem words_whileLoop (condition : Expr) (body : Stmt) :
    (whileLoop condition body span).words = .keyword .while_ ::
      (condition.words ++ body.words) := by
  simp [words, Layout.stmt, Expr.words]

@[simp]
theorem words_forever (ss : List Stmt) :
    (forever ss span).words
      = .keyword .loop :: .punct .lbrace :: (ss.flatMap words ++ [.punct .rbrace]) := by
  rw [words, Layout.stmt, Layout.tokens_append, Layout.tokens_braces, Layout.tokens_stmts]
  rfl

theorem tokens_clause (e : Option Expr) : (Layout.clause e).tokens = e.elim [] Expr.words := by
  cases e <;> rfl

/-- As in `for (i; c; e) s`. The initializer brings its own semicolon. -/
@[simp]
theorem words_forLoop (initializer : Option Stmt) (condition increment : Option Expr)
    (body : Stmt) :
    (forLoop initializer condition increment body span).words = .keyword .for_ :: .punct .lparen
      :: (initializer.elim [.punct .semicolon] words ++ (condition.elim [] Expr.words
        ++ .punct .semicolon ::
          (increment.elim [] Expr.words ++ .punct .rparen :: body.words))) := by
  have hinitial : (Layout.initial "" 0 initializer).tokens =
      initializer.elim [.punct .semicolon] words := by
    cases initializer <;> rfl
  simp [words, Layout.stmt, tokens_clause, hinitial]

end Stmt

/-- As in `n(a, b) { s }`. -/
@[simp]
theorem FunctionDecl.words_mk (n : Ident) (params : List Ident) (body : List Stmt) :
    (FunctionDecl.mk n params body).words = .ident n.name :: .punct .lparen
      :: (joinWords (.punct .comma) (params.map fun param => [.ident param.name]) ++ .punct .rparen
        :: .punct .lbrace :: (body.flatMap Stmt.words ++ [.punct .rbrace])) := by
  rw [words, Layout.function, Layout.tokens_append, Layout.tokens_braces, Layout.tokens_stmts]
  simp [Function.comp_def]

/-- No statement is empty. -/
theorem Stmt.words_ne_nil (s : Stmt) : s.words ≠ [] := by
  cases s with
  | varDecl n initializer => cases initializer <;> simp
  | classDecl n superclass methods => cases superclass <;> simp
  | ret value span => cases value <;> simp
  | _ => simp

theorem FunctionDecl.words_ne_nil (f : FunctionDecl) : f.words ≠ [] := by
  cases f
  simp

/-- The words of a program are those of its statements, one after the other. -/
theorem Layout.tokens_program (indent : String) (p : Program) :
    (program indent p).tokens = p.statements.flatMap Stmt.words := by
  rw [program, tokens_flatMap, ← tokens_stmts indent 0]
  simp

end TreeWalk
