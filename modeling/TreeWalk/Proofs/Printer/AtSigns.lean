import TreeWalk.Proofs.Printer.Words

/-!
# Names in front of `@`

In the words of a tree each `@` stands behind the name that it gives to a pattern. So no number
stands there.
-/

namespace TreeWalk

/-- In the words each `@` stands behind a name. -/
inductive Named : List TokenKind → Prop
  | nil : Named []
  | cons : k ≠ .punct .atSign → Named w → Named (k :: w)
  | named : Named w → Named (.ident x :: .punct .atSign :: w)

namespace Named

theorem punct (hm : m ≠ .atSign) (h : Named w) :
    Named (.punct m :: w) := .cons (by simpa using hm) h

theorem keyword (h : Named w) : Named (.keyword k :: w) := .cons (by simp) h

theorem ident (h : Named w) : Named (.ident x :: w) := .cons (by simp) h

/-- What is put together from such parts has a name in front of every `@`. -/
theorem append (h : Named w) (h' : Named w') : Named (w ++ w') := by
  induction h with
  | nil => exact h'
  | cons hk _ ih => exact .cons hk ih
  | named _ ih => exact .named ih

variable {f : α → List TokenKind} {as : List α}

theorem flatMap (h : ∀ a ∈ as, Named (f a)) : Named (as.flatMap f) := by
  induction as with
  | nil => exact .nil
  | cons a as ih =>
    obtain ⟨ha, has⟩ := List.forall_mem_cons.mp h
    exact ha.append (ih has)

theorem joined (hm : m ≠ .atSign) (h : ∀ a ∈ as, Named (f a)) :
    Named (joinWords (.punct m) (as.map f)) := by
  induction as with
  | nil => exact .nil
  | cons a as ih =>
    obtain ⟨ha, has⟩ := List.forall_mem_cons.mp h
    cases as with
    | nil => exact ha
    | cons a' as => exact ha.append (.punct hm (ih has))

/-- Items between marks, with others between them. -/
theorem enclosed (hm : m ≠ .atSign) (hopening : opening ≠ .atSign) (hclosing : closing ≠ .atSign)
    (h : ∀ a ∈ as, Named (f a)) :
    Named (.punct opening :: (joinWords (.punct m) (as.map f) ++ [.punct closing])) :=
  .punct hopening ((joined hm h).append (.punct hclosing .nil))

/-- Statements in braces. -/
theorem block (h : ∀ a ∈ as, Named (f a)) :
    Named (.punct .lbrace :: (as.flatMap f ++ [.punct .rbrace])) :=
  .punct (by simp) ((flatMap h).append (.punct (by simp) .nil))

/-- No number stands in front of an `@`. -/
theorem not_number (h : Named w) : ¬ .number x :: .punct .atSign :: w' <:+ w := by
  induction h with
  | nil => simp
  | cons hk hw ih =>
    intro hsuffix
    rcases List.suffix_cons_iff.mp hsuffix with heq | hsuffix
    · cases heq
      cases hw with
      | cons hk _ => exact hk rfl
    · exact ih hsuffix
  | named hw ih =>
    intro hsuffix
    rcases List.suffix_cons_iff.mp hsuffix with heq | hsuffix
    · cases heq
    rcases List.suffix_cons_iff.mp hsuffix with heq | hsuffix
    · cases heq
    · exact ih hsuffix

end Named

theorem named_literal (value : Literal) : Named (Layout.literal value).tokens := by
  cases value with
  | number x =>
    rw [Layout.literal]
    split
    · exact .punct (by simp) (.cons (by simp) .nil)
    · exact .cons (by simp) .nil
  | bool b => cases b <;> exact .keyword .nil
  | str contents => exact .cons (by simp) .nil
  | nil => exact .keyword .nil

mutual

/-- Only a named pattern has an `@`, and its name stands in front of it. -/
theorem named_pattern : ∀ p : Pattern, Named p.words
  | .unit _ => .punct (by simp) (.punct (by simp) .nil)
  | .wild _ => .punct (by simp) .nil
  | .var _ => .ident .nil
  | .literal value _ => named_literal value
  | .named _ p => .named (named_pattern p)
  | .tuple ps _ => by
    rw [Pattern.words_tuple]
    exact .enclosed (by simp) (by simp) (by simp) (named_patterns ps)
  | .vector ps _ => by
    rw [Pattern.words_vector]
    exact .enclosed (by simp) (by simp) (by simp) (named_patterns ps)

theorem named_patterns : ∀ ps : List Pattern, ∀ p ∈ ps, Named p.words
  | [] => fun _ h => absurd h List.not_mem_nil
  | p :: ps => List.forall_mem_cons.mpr ⟨named_pattern p, named_patterns ps⟩

end

mutual

/-- Expressions have an `@` only in the patterns of their arms. -/
theorem named_expr : ∀ e : Expr, Named e.words
  | .literal value _ => named_literal value
  | .var _ => .ident .nil
  | .this _ => .keyword .nil
  | .super _ _ => .keyword (.punct (by simp) (.ident .nil))
  | .unary op e _ => .punct (by cases op <;> simp [UnaryOp.mark]) (named_expr e)
  | .binary left op right _ => by
    rw [Expr.words_binary]
    exact (named_expr left).append
      (.cons (by cases op <;> simp [BinaryOp.token]) (named_expr right))
  | .grouping e _ => by
    rw [Expr.words_grouping]
    exact .punct (by simp) ((named_expr e).append (.punct (by simp) .nil))
  | .assign _ e => .ident (.punct (by simp) (named_expr e))
  | .get e _ => by
    rw [Expr.words_get]
    exact (named_expr e).append (.punct (by simp) (.ident .nil))
  | .set object _ value => by
    rw [Expr.words_set]
    exact (named_expr object).append
      (.punct (by simp) (.ident (.punct (by simp) (named_expr value))))
  | .call callee args _ => by
    rw [Expr.words_call]
    exact (named_expr callee).append (.enclosed (by simp) (by simp) (by simp) (named_exprs args))
  | .letIn _ definition body _ => by
    rw [Expr.words_letIn]
    exact .keyword
      (.ident (.punct (by simp) ((named_expr definition).append (.keyword (named_expr body)))))
  | .seq es _ => by
    rw [Expr.words_seq]
    exact .keyword (.enclosed (by simp) (by simp) (by simp) (named_exprs es))
  | .tuple es _ => by
    rw [Expr.words_tuple]
    exact .enclosed (by simp) (by simp) (by simp) (named_exprs es)
  | .vector es _ => by
    rw [Expr.words_vector]
    exact .enclosed (by simp) (by simp) (by simp) (named_exprs es)
  | .cond condition yes no _ => by
    rw [Expr.words_cond]
    exact .keyword ((named_expr condition).append
      (.keyword ((named_expr yes).append (.keyword (named_expr no)))))
  | .case scrutinee arms _ => by
    rw [Expr.words_case]
    exact .keyword ((named_expr scrutinee).append (.keyword
      (.enclosed (by simp) (by simp) (by simp) (named_arms arms))))

theorem named_exprs : ∀ es : List Expr, ∀ e ∈ es, Named e.words
  | [] => fun _ h => absurd h List.not_mem_nil
  | e :: es => List.forall_mem_cons.mpr ⟨named_expr e, named_exprs es⟩

theorem named_arm : ∀ a : CaseArm, Named a.words
  | .mk p none body => by
    rw [CaseArm.words_mk_none]
    exact (named_pattern p).append (.keyword (named_expr body))
  | .mk p (some guard) body => by
    rw [CaseArm.words_mk_some]
    exact (named_pattern p).append
      (.keyword ((named_expr guard).append (.keyword (named_expr body))))

theorem named_arms : ∀ as : List CaseArm, ∀ a ∈ as, Named a.words
  | [] => fun _ h => absurd h List.not_mem_nil
  | a :: as => List.forall_mem_cons.mpr ⟨named_arm a, named_arms as⟩

end

theorem named_optional (e : Option Expr) : Named (e.elim [] Expr.words) := by
  cases e with
  | none => exact .nil
  | some e => exact named_expr e

mutual

/-- Statements have none but those of their expressions. -/
theorem named_stmt : ∀ s : Stmt, Named s.words
  | .expr e => by
    rw [Stmt.words_expr]
    exact (named_expr e).append (.punct (by simp) .nil)
  | .print e _ => by
    rw [Stmt.words_print]
    exact .keyword ((named_expr e).append (.punct (by simp) .nil))
  | .varDecl _ none => .keyword (.ident (.punct (by simp) .nil))
  | .varDecl _ (some e) => by
    rw [Stmt.words_varDecl_some]
    exact .keyword (.ident (.punct (by simp) ((named_expr e).append (.punct (by simp) .nil))))
  | .ret none _ => .keyword (.punct (by simp) .nil)
  | .ret (some e) _ => by
    rw [Stmt.words_ret_some]
    exact .keyword ((named_expr e).append (.punct (by simp) .nil))
  | .block ss _ => by
    rw [Stmt.words_block]
    exact .block (named_stmts ss)
  | .forever ss _ => by
    rw [Stmt.words_forever]
    exact .keyword (.block (named_stmts ss))
  | .fnDecl f => .keyword (named_function f)
  | .classDecl _ none fs => by
    rw [Stmt.words_classDecl_none]
    exact .keyword (.ident (.block (named_functions fs)))
  | .classDecl _ (some _) fs => by
    rw [Stmt.words_classDecl_some]
    exact .keyword (.ident (.punct (by simp) (.ident (.block (named_functions fs)))))
  | .whileLoop condition body _ => by
    rw [Stmt.words_whileLoop]
    exact .keyword ((named_expr condition).append (named_stmt body))
  | .forLoop none condition increment body _ => by
    rw [Stmt.words_forLoop]
    exact .keyword (.punct (by simp) (.punct (by simp) ((named_optional condition).append
      (.punct (by simp) ((named_optional increment).append (.punct (by simp) (named_stmt body)))))))
  | .forLoop (some s) condition increment body _ => by
    rw [Stmt.words_forLoop]
    exact .keyword (.punct (by simp) ((named_stmt s).append ((named_optional condition).append
      (.punct (by simp) ((named_optional increment).append (.punct (by simp) (named_stmt body)))))))

theorem named_stmts : ∀ ss : List Stmt, ∀ s ∈ ss, Named s.words
  | [] => fun _ h => absurd h List.not_mem_nil
  | s :: ss => List.forall_mem_cons.mpr ⟨named_stmt s, named_stmts ss⟩

theorem named_function : ∀ f : FunctionDecl, Named f.words
  | .mk n params body => by
    rw [FunctionDecl.words_mk]
    have hparams : Named
        (joinWords (.punct .comma) (params.map fun param => [.ident param.name])) :=
      .joined (by simp) fun param _ => .ident .nil
    exact .ident (.punct (by simp) (hparams.append (.punct (by simp) (.block (named_stmts body)))))

theorem named_functions : ∀ fs : List FunctionDecl, ∀ f ∈ fs, Named f.words
  | [] => fun _ h => absurd h List.not_mem_nil
  | f :: fs => List.forall_mem_cons.mpr ⟨named_function f, named_functions fs⟩

end

end TreeWalk
