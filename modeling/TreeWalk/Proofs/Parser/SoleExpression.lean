import TreeWalk.Proofs.Parser.Local
import TreeWalk.Proofs.Parser.Yields

/-!
# Programs that are one expression

An expression starts with a token that starts no other statement. So where an expression is read to
the end of the tokens, the program of these tokens is that expression as its only statement, and the
other way round if no `;` stands at the end.
-/

namespace TreeWalk.Parser

variable {α β : Type}

/-! ## First tokens -/

/-- Without errors, the parser reads only where an expression can start. -/
def Opens (p : Parser α) : Prop :=
  ∀ cx ts r, p.quiet cx ts = some r → (cx.next ts).kind.beginsExpr = true

namespace Opens

theorem bind {p : Parser α} {f : α → Parser β} (h : Opens p) : Opens (p >>= f) := by
  intro cx ts r hr
  rw [quiet_bind] at hr
  obtain ⟨_, ha, -⟩ := Option.bind_eq_some_iff.mp hr
  exact h cx ts _ ha

section

variable (self : Parser Expr)

theorem primaryForms {t : Token} (h : Parser.primaryForms self t = some q) :
    t.kind.beginsExpr = true := by
  obtain ⟨kind, span⟩ := t
  cases kind with
  | punct m => cases m <;> first | rfl | cases h
  | keyword w => cases w <;> first | rfl | cases h
  | ident | str | number => rfl
  | eof => cases h

theorem primary : Opens (Parser.primary self) := by
  intro cx ts r hr
  rw [Parser.primary, quiet_branch] at hr
  split at hr
  · next hq => exact primaryForms self hq
  · cases hr

/-- There is a prefix operator to start with, or the operand starts here. -/
theorem unary : Opens (Parser.unary self) := by
  intro cx ts r hr
  rw [Parser.unary, quiet_bind, unaryOps, quiet_collect, quiet_branch, unaryForms] at hr
  cases hop : UnaryOp.ofToken? (cx.next ts).kind with
  | some op =>
    generalize (cx.next ts).kind = kind at hop
    cases kind with
    | punct m => cases m <;> first | rfl | cases hop
    | _ => cases hop
  | none =>
    rw [hop] at hr
    exact (primary self).bind.bind cx ts r hr

theorem infixed : Opens (Parser.infixed self) := by
  have hchains : ∀ levels : List Nat, Opens (levels.foldr chain (Parser.unary self)) := by
    intro levels
    induction levels with
    | nil => exact unary self
    | cons level levels ih => exact ih.bind
  exact hchains (List.range 6)

end

theorem expression : Opens Parser.expression := by
  intro cx ts r hr
  rw [Parser.expression, quiet_fix] at hr
  exact (infixed _).bind cx ts r hr

end Opens

/-! ## Statements that are expressions -/

theorem quiet_exprStatement :
    exprStatement.quiet cx ts = (expression.quiet cx ts).map fun (e, rest) =>
      (.expr e, if (cx.next rest).kind = .punct .semicolon then rest.tail else rest) := by
  rw [exprStatement, quiet_bind]
  cases expression.quiet cx ts with
  | none => rfl
  | some r =>
    simp only [Option.bind_some, quiet_bind, quiet_eat, quiet_pure, Option.map_some]
    split <;> rfl

section

variable (self : Level → Parser Stmt)

/-- No statement but an expression starts where an expression can start. -/
theorem forms_of_beginsExpr {t : Token} (h : t.kind.beginsExpr = true) :
    declarationForms self t = none ∧ statementForms self t = none := by
  obtain ⟨kind, span⟩ := t
  cases kind with
  | punct m => cases m <;> first | exact ⟨rfl, rfl⟩ | cases h
  | keyword w => cases w <;> first | exact ⟨rfl, rfl⟩ | cases h
  | ident | str | number => exact ⟨rfl, rfl⟩
  | eof => cases h

theorem Yields.of_statementForms {t : Token} (h : Parser.statementForms self t = some q) :
    q.Yields (∀ e, · ≠ .expr e) := by
  unfold Parser.statementForms at h
  split at h <;> cases h
  case h_5 =>
    unfold forLoop
    repeat refine .skip fun _ => ?_
    exact .pure fun _ h => by cases h
  all_goals
    repeat refine .skip fun _ => ?_
    exact .pure fun _ h => by cases h

theorem Yields.of_declarationForms {t : Token} (h : Parser.declarationForms self t = some q) :
    q.Yields (∀ e, · ≠ .expr e) := by
  unfold Parser.declarationForms at h
  split at h <;> cases h
  case h_1 =>
    unfold classDecl
    repeat refine .skip fun _ => ?_
    exact .pure fun _ h => by cases h
  case h_2 => exact .skip fun _ => .pure fun _ h => by cases h
  case h_3 =>
    unfold varDecl
    repeat refine .skip fun _ => ?_
    exact .pure fun _ h => by cases h

end

theorem Yields.of_quiet {p : Parser α} {P : α → Prop} (h : p.Yields P)
    (hp : p.quiet cx ts = some (a, rest)) : P a := by
  obtain ⟨s, hs, -⟩ := quiet_eq_some_iff.mp hp
  exact h cx ts a s hs

theorem quiet_declaration_expr :
    (stmt .declaration).quiet cx ts = some (.expr e, rest) ↔
      exprStatement.quiet cx ts = some (.expr e, rest) := by
  rw [stmt, quiet_fix]
  change (declaration _).quiet cx ts = _ ↔ _
  rw [declaration, quiet_branch]
  constructor
  · intro h
    split at h
    · next hq => exact absurd rfl ((Yields.of_declarationForms _ hq).of_quiet h e)
    · rw [statement, quiet_branch] at h
      split at h
      · next hq => exact absurd rfl ((Yields.of_statementForms _ hq).of_quiet h e)
      · exact h
  · intro h
    rw [quiet_exprStatement] at h
    obtain ⟨r, hr, -⟩ := Option.map_eq_some_iff.mp h
    obtain ⟨hdeclaration, hstatement⟩ :=
      forms_of_beginsExpr (fun j => below ts.length (fix stmtStep j))
        (Opens.expression cx ts r hr)
    rw [hdeclaration, statement, quiet_branch, hstatement, quiet_exprStatement]
    exact h

/-! ## Programs that are expressions -/

theorem quiet_declarations_nil (n : Nat) :
    (collect (fun _ => declarationStep) n).quiet cx [] = some ([], []) := by
  rw [quiet_collect, quiet_declarationStep]
  rfl

theorem quiet_declarations_cons
    (h : (collect (fun _ => declarationStep) n).quiet cx (t :: ts) = some (found, [])) :
    ∃ s mid found', (stmt .declaration).quiet cx (t :: ts) = some (s, mid) ∧
      found = some s :: found' ∧
      (collect (fun _ => declarationStep) (n + 1)).quiet cx mid = some (found', []) := by
  rw [quiet_collect, quiet_declarationStep] at h
  by_cases heof : (cx.next (t :: ts)).kind = .eof
  · rw [if_pos heof] at h
    cases h
  rw [if_neg heof] at h
  cases hs : (stmt .declaration).quiet cx (t :: ts) with
  | none => rw [hs] at h; cases h
  | some r =>
    obtain ⟨s, mid⟩ := r
    rw [hs] at h
    dsimp only [Option.map_some] at h
    split at h
    · obtain ⟨⟨found', rest⟩, hmore, heq⟩ := Option.map_eq_some_iff.mp h
      cases heq
      exact ⟨s, mid, found', rfl, rfl, hmore⟩
    · cases h

theorem quiet_declarations_expr :
    (∃ found, (collect (fun _ => declarationStep) 0).quiet cx ts = some (found, []) ∧
        found.filterMap id = [.expr e]) ↔
      exprStatement.quiet cx ts = some (.expr e, []) := by
  constructor
  · rintro ⟨found, hfound, hone⟩
    cases ts with
    | nil =>
      rw [quiet_declarations_nil] at hfound
      cases hfound
      cases hone
    | cons t ts =>
      obtain ⟨s, mid, found, hs, rfl, hmore⟩ := quiet_declarations_cons hfound
      obtain ⟨rfl, hnone⟩ := List.cons.inj hone
      cases mid with
      | nil => exact quiet_declaration_expr.mp hs
      | cons u mid =>
        obtain ⟨s, _, found, -, rfl, -⟩ := quiet_declarations_cons hmore
        cases hnone
  · intro h
    rw [quiet_exprStatement] at h
    obtain ⟨r, hr, -⟩ := Option.map_eq_some_iff.mp h
    have hbegins := Opens.expression cx ts r hr
    refine ⟨[some (.expr e)], ?_, rfl⟩
    rw [← quiet_exprStatement, ← quiet_declaration_expr] at h
    cases ts with
    | nil => cases hbegins
    | cons t ts =>
      have hmark : (cx.next (t :: ts)).kind ≠ .eof := by
        intro heof
        rw [heof] at hbegins
        cases hbegins
      rw [quiet_collect, quiet_declarationStep, if_neg hmark, h]
      simp [quiet_declarations_nil]

theorem quiet_programBody_expr :
    programBody.quiet cx ts = some (⟨[.expr e]⟩, []) ↔
      exprStatement.quiet cx ts = some (.expr e, []) := by
  rw [← quiet_declarations_expr, quiet, programBody_eq, Reply.quiet_map]
  change ((collect (fun _ => declarationStep) 0).quiet cx ts).map _ = _ ↔ _
  rw [Option.map_eq_some_iff]
  constructor
  · rintro ⟨⟨found, rest⟩, hfound, heq⟩
    obtain ⟨hone, rfl⟩ := Prod.mk.inj heq
    exact ⟨found, hfound, Program.mk.inj hone⟩
  · rintro ⟨found, hfound, hone⟩
    exact ⟨(found, []), hfound, congrArg (fun ss => (Program.mk ss, [])) hone⟩

/-- The tokens are an expression and nothing else just if they are a program of which this is the
only statement and do not end with `;`. -/
theorem quiet_completeExpression (hmarks : ∀ t ∈ ts, t.kind ≠ .eof) :
    (∃ rest, completeExpression.quiet cx ts = some (e, rest)) ↔
      programBody.quiet cx ts = some (⟨[.expr e]⟩, []) ∧ ¬ EndsClosed ts := by
  rw [quiet_programBody_expr, quiet_exprStatement]
  constructor
  · rintro ⟨rest, h⟩
    rw [completeExpression, quiet_bind] at h
    obtain ⟨⟨e', mid⟩, he, hcheck⟩ := Option.bind_eq_some_iff.mp h
    obtain ⟨front, rfl, hfront⟩ := Unclosed.expression cx ts e' mid he
    dsimp only at hcheck
    rw [quiet_bind, quiet_check, Option.bind_some] at hcheck
    cases mid with
    | nil =>
      cases hcheck
      rw [he, List.append_nil]
      exact ⟨rfl, hfront trivial⟩
    | cons t mid =>
      have hmark : (t.kind == .eof) = false := beq_eq_false_iff_ne.mpr (hmarks t (by simp))
      rw [next_cons, hmark] at hcheck
      cases hcheck
  · rintro ⟨h, hopen⟩
    obtain ⟨⟨e', mid⟩, he, heq⟩ := Option.map_eq_some_iff.mp h
    obtain ⟨hexpr, hrest⟩ := Prod.mk.inj heq
    cases hexpr
    cases mid with
    | nil =>
      refine ⟨[], ?_⟩
      rw [completeExpression, quiet_bind, he]
      rfl
    | cons t mid =>
      -- What the expression leaves is the `;` that its statement takes with it.
      obtain ⟨front, rfl, -⟩ := Unclosed.expression cx ts e _ he
      split at hrest
      · next hmark =>
        obtain rfl : mid = [] := hrest
        exact absurd ((endsClosed_append (List.cons_ne_nil t [])).mpr
            (endsClosed_singleton.mpr hmark)) hopen
      · cases hrest

end TreeWalk.Parser
