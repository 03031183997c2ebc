import TreeWalk.Proofs.CanonicalText
import TreeWalk.Proofs.Printer.Dump
import TreeWalk.Proofs.Renaming

/-!
# Dumps of programs

The dump of a program tells the program, but for places: where two programs were read with the names
of one table, they have the same dump just if they are the same program. So nothing has to be
escaped in a dump.
-/

namespace TreeWalk

/-! ## Dumps show no places -/

namespace Sexp

variable (names : Interner)

mutual

theorem pattern_bare : ∀ p : Pattern, pattern names p.bare = pattern names p
  | .unit _ | .var _ | .literal _ _ | .wild _ => rfl
  | .named n p => by simp only [Pattern.bare, pattern, pattern_bare p]; rfl
  | .tuple ps _ | .vector ps _ => by simp only [Pattern.bare, pattern, patterns_bare ps]

theorem patterns_bare : ∀ ps : List Pattern, patterns names (Pattern.bareAll ps) = patterns names ps
  | [] => rfl
  | p :: ps => by rw [Pattern.bareAll, patterns, patterns, pattern_bare p, patterns_bare ps]

end

mutual

theorem expr_bare : ∀ e : Expr, expr names e.bare = expr names e
  | .literal _ _ | .var _ | .this _ | .super _ _ => rfl
  | .grouping e _ | .unary _ e _ => by simp only [Expr.bare, expr, expr_bare e]
  | .binary l _ r _ => by simp only [Expr.bare, expr, expr_bare l, expr_bare r]
  | .assign n e | .get e n => by simp only [Expr.bare, expr, expr_bare e]; rfl
  | .call e es _ => by simp only [Expr.bare, expr, expr_bare e, exprs_bare es]
  | .set e n v => by simp only [Expr.bare, expr, expr_bare e, expr_bare v]; rfl
  | .letIn n d b _ => by simp only [Expr.bare, expr, expr_bare d, expr_bare b]; rfl
  | .cond c y n _ => by simp only [Expr.bare, expr, expr_bare c, expr_bare y, expr_bare n]
  | .seq es _ | .tuple es _ | .vector es _ => by simp only [Expr.bare, expr, exprs_bare es]
  | .case e as _ => by simp only [Expr.bare, expr, expr_bare e, arms_bare as]

theorem exprs_bare : ∀ es : List Expr, exprs names (Expr.bareAll es) = exprs names es
  | [] => rfl
  | e :: es => by rw [Expr.bareAll, exprs, exprs, expr_bare e, exprs_bare es]

theorem arm_bare : ∀ a : CaseArm, arm names a.bare = arm names a
  | .mk p none b => by simp only [CaseArm.bare, arm, pattern_bare, expr_bare b]
  | .mk p (some g) b => by simp only [CaseArm.bare, arm, pattern_bare, expr_bare g, expr_bare b]

theorem arms_bare : ∀ as : List CaseArm, arms names (CaseArm.bareAll as) = arms names as
  | [] => rfl
  | a :: as => by rw [CaseArm.bareAll, arms, arms, arm_bare a, arms_bare as]

end

theorem optional_bare (e : Option Expr) : optional names (e.map Expr.bare) = optional names e := by
  cases e with
  | none => rfl
  | some e => simp only [Option.map_some, optional, expr_bare]

theorem clause_bare (e : Option Expr) : clause names (e.map Expr.bare) = clause names e := by
  cases e with
  | none => rfl
  | some e => simp only [Option.map_some, clause, expr_bare]

mutual

theorem stmt_bare : ∀ s : Stmt, stmt names s.bare = stmt names s
  | .expr e | .print e _ => by simp only [Stmt.bare, stmt, expr_bare]
  | .varDecl n e => by simp only [Stmt.bare, stmt, optional_bare]; rfl
  | .block ss _ | .forever ss _ => by simp only [Stmt.bare, stmt, stmts_bare ss]
  | .fnDecl d => by simp only [Stmt.bare, stmt, function_bare d]
  | .classDecl n none ms | .classDecl n (some _) ms => by
    simp only [Stmt.bare, Option.map_none, Option.map_some, stmt, methods_bare ms]; rfl
  | .ret e _ => by simp only [Stmt.bare, stmt, optional_bare]
  | .whileLoop c s _ => by simp only [Stmt.bare, stmt, expr_bare, stmt_bare s]
  | .forLoop none c i s _ => by simp only [Stmt.bare, stmt, clause_bare, stmt_bare s]
  | .forLoop (some t) c i s _ => by
    simp only [Stmt.bare, stmt, clause_bare, stmt_bare t, stmt_bare s]

theorem stmts_bare : ∀ ss : List Stmt, stmts names (Stmt.bareAll ss) = stmts names ss
  | [] => rfl
  | s :: ss => by rw [Stmt.bareAll, stmts, stmts, stmt_bare s, stmts_bare ss]

theorem function_bare :
    ∀ d : FunctionDecl, ∀ head, function names head d.bare = function names head d
  | .mk n params body, head => by
    simp only [FunctionDecl.bare, function, stmts_bare body, List.map_map]; rfl

theorem methods_bare :
    ∀ ms : List FunctionDecl, methods names (FunctionDecl.bareAll ms) = methods names ms
  | [] => rfl
  | m :: ms => by rw [FunctionDecl.bareAll, methods, methods, function_bare m, methods_bare ms]

end

end Sexp

theorem Program.dump_bare (p : Program) (names : Interner) : p.bare.dump names = p.dump names := by
  simp only [Program.dump, Program.bare, List.map_map, Function.comp_def, Sexp.stmt_bare]

/-! ## Dumps tell programs -/

namespace Program

variable {p q : Program} {names : Interner}
  (hp : ∀ k ∈ p.statements.flatMap Stmt.words, k.Readable names)
include hp

theorem shows_statement :
    ∀ s ∈ p.statements, Sexp.Shows (Sexp.readStmt names) (Sexp.stmt names s) s.bare :=
  fun s hs => Sexp.shows_stmt s fun k hk => hp k (List.mem_flatMap_of_mem hs hk)

theorem clear_statements : ∀ x ∈ p.statements.map (Sexp.stmt names), x.Clear :=
  List.forall_mem_map.mpr fun s hs => (shows_statement hp s hs).clear

theorem read_statements :
    (p.statements.map (Sexp.stmt names)).map (Sexp.readStmt names) =
      p.bare.statements.map some := by
  rw [bare, List.map_map, List.map_map]
  exact List.map_congr_left fun s hs => (shows_statement hp s hs).read

/-- Programs that are made of readable words are told by their dumps. -/
theorem bare_of_dump (hq : ∀ k ∈ q.statements.flatMap Stmt.words, k.Readable names)
    (h : p.dump names = q.dump names) : p.bare = q.bare := by
  have hdumps : p.statements.map (Sexp.stmt names) = q.statements.map (Sexp.stmt names) := by
    refine Sexp.lines_inj (clear_statements hp) (clear_statements hq) ?_
    simpa only [dump, List.map_map, Function.comp_def] using h
  have hread := read_statements hp
  rw [hdumps, read_statements hq] at hread
  have hstatements := (List.map_inj_right fun _ _ => Option.some.inj).mp hread
  exact congrArg Program.mk hstatements.symm

end Program

/-- The words of a program that was read without errors are readable. -/
theorem readable_program (hdiagnostics : (readSource names source).diagnostics = [])
    (hfinite : ∀ t ∈ (readSource names source).scan.tokens, t.kind.isFinite = true)
    (hsize : (readSource names source).names.size ≤ Symbol.bound) :
    ∀ k ∈ (readSource names source).program.statements.flatMap Stmt.words,
      k.Readable (readSource names source).names := by
  obtain ⟨ks, rest, hreadable, hsource⟩ := quiet_of_readSource hdiagnostics hfinite hsize
  have hown := (Parser.quiet_programBody_words (V := (readSource names source).names.vocabulary)
      hreadable hsource).1
  rwa [← Layout.tokens_program "", Layout.program_bare, Layout.tokens_program] at hown

/-- Let two texts be read one after the other without errors, with finite numbers only. Then the
programs have the same dump if and only if they are the same but for places. -/
theorem dumps_tell_programs_apart (names : Interner) (source other : String)
    (hdiagnostics : (readSource names source).diagnostics = [])
    (hfinite : ∀ t ∈ (readSource names source).scan.tokens, t.kind.isFinite = true)
    (hdiagnostics' : (readSource (readSource names source).names other).diagnostics = [])
    (hfinite' : ∀ t ∈ (readSource (readSource names source).names other).scan.tokens,
      t.kind.isFinite = true)
    (hsize : (readSource (readSource names source).names other).names.size ≤ Symbol.bound) :
    let r := readSource names source
    let r' := readSource r.names other
    r.program.dump r'.names = r'.program.dump r'.names ↔ r.program.bare = r'.program.bare := by
  intro r r'
  have hfirst : ∀ k ∈ r.program.statements.flatMap Stmt.words, k.Readable r'.names := by
    intro k hk
    have hsize' : r.names.size ≤ Symbol.bound :=
      Nat.le_trans (Scan.size_le_ofLexemes r.names _) hsize
    exact (readable_program hdiagnostics hfinite hsize' k hk).mono
      (readSource_within r.names other) hsize
  have hsecond : ∀ k ∈ r'.program.statements.flatMap Stmt.words, k.Readable r'.names :=
    readable_program hdiagnostics' hfinite' hsize
  constructor
  · exact Program.bare_of_dump hfirst hsecond
  · intro hbare
    rw [← Program.dump_bare r.program, hbare, Program.dump_bare]

/-- The texts differ in blanks, a comment, the spelling of a number and parentheses around a
pattern. -/
theorem respaced_texts_have_one_dump :
    let r := readSource .empty "for(;;)print-1.50;case(x)of\x7b(a@-2)if a then\"(b c\"\x7d"
    let r' := readSource r.names
      "for ( ; ; ) print -1.5; // same\ncase (x) of \x7b a @ -2 if a then \"(b c\" \x7d;"
    r.diagnostics = [] ∧ (∀ t ∈ r.scan.tokens, t.kind.isFinite = true) ∧
      r'.diagnostics = [] ∧ (∀ t ∈ r'.scan.tokens, t.kind.isFinite = true) ∧
      r'.names.size ≤ Symbol.bound ∧
      r.program.dump r'.names =
        "(for () () () (print (- 1.5)))\n(expr (case (group x) ((@ a -2) if a \"(b c\")))\n" ∧
      r.program.dump r'.names = r'.program.dump r'.names ∧ r.program.bare = r'.program.bare := by
  intro r r'
  have hall : r.diagnostics.isEmpty = true ∧ (∀ t ∈ r.scan.tokens, t.kind.isFinite = true) ∧
      r'.diagnostics.isEmpty = true ∧ (∀ t ∈ r'.scan.tokens, t.kind.isFinite = true) ∧
      r'.names.size ≤ Symbol.bound ∧
      r.program.dump r'.names =
        "(for () () () (print (- 1.5)))\n(expr (case (group x) ((@ a -2) if a \"(b c\")))\n" ∧
      r.program.dump r'.names = r'.program.dump r'.names := by
    decide +kernel
  obtain ⟨hnone, hfinite, hnone', hfinite', hsize, htext, hdump⟩ := hall
  have hdiagnostics : r.diagnostics = [] := List.isEmpty_iff.mp hnone
  have hdiagnostics' : r'.diagnostics = [] := List.isEmpty_iff.mp hnone'
  refine ⟨hdiagnostics, hfinite, hdiagnostics', hfinite', hsize, htext, hdump, ?_⟩
  exact (dumps_tell_programs_apart .empty _ _ hdiagnostics hfinite hdiagnostics' hfinite' hsize).mp
    hdump

end TreeWalk
