import TreeWalk.Lexeme
import TreeWalk.Printer.Layout

/-!
# Gaps between tokens

In a layout a token is followed by a gap, by the end, or by a token that cannot be taken for a part
of it. This holds for the layouts of all trees. `Fine l` says that it holds of `l`, and of what
follows `l` together with it.
-/

namespace TreeWalk

namespace TokenKind

/-- Marks that end whatever stands in front of them. -/
def closes : TokenKind → Bool
  | punct .lparen | punct .rparen | punct .rbrace | punct .rbracket => true
  | punct .comma | punct .dot | punct .semicolon => true
  | _ => false

/-- Tokens with which no longer token starts. -/
def isFree : TokenKind → Bool
  | punct .lparen | punct .rparen | punct .lbrace | punct .rbrace | punct .lbracket | punct
      .rbracket => true
  | punct .comma | punct .semicolon | punct .atSign | punct .minus => true
  | str _ => true
  | _ => false

/-- Whether `k'` may follow `k` without a gap. A `.` is followed by a name, so that it is no decimal
point. -/
def touches : TokenKind → TokenKind → Bool
  | punct .dot, ident _ => true
  | punct .dot, _ => false
  | punct .bang, k' => k'.beginsExpr || k'.closes
  | _, k' => k'.closes

/-- Behind all tokens but the dot a closing token may stand at once. -/
theorem touches_of_closes (hk : k ≠ punct .dot) (hk' : k'.closes = true) : k.touches k' = true := by
  unfold touches
  split
  · rfl
  · exact absurd rfl hk
  · rw [hk', Bool.or_true]
  · exact hk'

/-- There are two reasons why a token may touch the one before it. -/
theorem touches_cases (hk : k ≠ punct .dot) (h : k.touches k' = true) :
    k'.closes = true ∨ k = punct .bang ∧ k'.beginsExpr = true := by
  unfold touches at h
  split at h
  · exact absurd rfl hk
  · cases h
  · rcases (Bool.or_eq_true _ _).mp h with hbegins | hcloses
    · exact .inr ⟨rfl, hbegins⟩
    · exact .inl hcloses
  · exact .inl h

end TokenKind

namespace Layout

/-- Whether `k` is a token of its own in front of `l`. -/
def Stands (k : TokenKind) (l : Layout) : Prop :=
  k.isFree = true ∨
    match l with
    | [] => k ≠ .punct .dot
    | .gap t :: _ => t ≠ "" ∧ k ≠ .punct .dot
    | .token k' :: _ => k.touches k' = true

/-- No token of the layout runs into the next. -/
def Spaced : Layout → Prop
  | [] => True
  | .gap t :: l => (∀ c ∈ t.toList, Lexeme.isBlank c = true) ∧ Spaced l
  | .token k :: l => Stands k l ∧ Spaced l

/-- Whether `l` ends whatever stands in front of it. -/
def Closes : Layout → Prop
  | [] => True
  | .gap t :: _ => t ≠ ""
  | .token k :: _ => k.closes = true

/-- The layout is spaced, and stays so in front of whatever closes. -/
def Fine (l : Layout) : Prop :=
  ∀ rest, Closes rest → Spaced rest → Spaced (l ++ rest)

/-- What closes can follow any token but the dot. -/
theorem Closes.stands (h : Closes l) (hk : k ≠ .punct .dot) : Stands k l := by
  refine .inr ?_
  cases l with
  | nil => exact hk
  | cons f l =>
    cases f with
    | gap t => exact ⟨h, hk⟩
    | token k' => exact TokenKind.touches_of_closes hk h

section

variable (l : Layout)

/-- To be spaced is asked of one token after the other. Gaps ask for nothing. -/
@[simp]
theorem spaced_token : Spaced (.token k :: l) ↔ Stands k l ∧ Spaced l := .rfl

@[simp]
theorem spaced_mark : Spaced (mark m :: l) ↔ Stands (.punct m) l ∧ Spaced l := .rfl

@[simp]
theorem spaced_word : Spaced (word k :: l) ↔ Stands (.keyword k) l ∧ Spaced l := .rfl

@[simp]
theorem spaced_name : Spaced (name n :: l) ↔ Stands (.ident n.name) l ∧ Spaced l := .rfl

@[simp]
theorem spaced_space : Spaced (space :: l) ↔ Spaced l := by
  simp [space, Spaced, Lexeme.isBlank]

@[simp]
theorem spaced_newline : Spaced (newline :: l) ↔ Spaced l := by
  simp [newline, Spaced, Lexeme.isBlank]

/-- A gap separates. -/
@[simp]
theorem stands_space (hk : k ≠ .punct .dot) : Stands k (space :: l) := .inr ⟨by simp, hk⟩

@[simp]
theorem stands_newline (hk : k ≠ .punct .dot) : Stands k (newline :: l) := .inr ⟨by simp, hk⟩

/-- Brackets, braces and the semicolon can be followed by anything. -/
@[simp]
theorem stands_lparen : Stands (.punct .lparen) l := .inl rfl

@[simp]
theorem stands_rparen : Stands (.punct .rparen) l := .inl rfl

@[simp]
theorem stands_lbrace : Stands (.punct .lbrace) l := .inl rfl

@[simp]
theorem stands_rbrace : Stands (.punct .rbrace) l := .inl rfl

@[simp]
theorem stands_semicolon : Stands (.punct .semicolon) l := .inl rfl

@[simp]
theorem keyword_stands_dot : Stands (.keyword k) (mark .dot :: l) := .inr rfl

@[simp]
theorem keyword_stands_semicolon : Stands (.keyword k) (mark .semicolon :: l) := .inr rfl

@[simp]
theorem ident_stands_semicolon : Stands (.ident n) (mark .semicolon :: l) := .inr rfl

/-- A name right before a parenthesis, as in a call. -/
@[simp]
theorem ident_stands_lparen : Stands (.ident n) (mark .lparen :: l) := .inr rfl

/-- The dot is the only token that needs a name right behind it. -/
@[simp]
theorem stands_dot_name : Stands (.punct .dot) (name n :: l) := .inr rfl

@[simp]
theorem closes_space : Closes (space :: l) := by simp [space, Closes]

@[simp]
theorem closes_newline : Closes (newline :: l) := by simp [newline, Closes]

end

/-! ## Patterns -/

/-- Separators close the item before them and have a gap behind them. -/
theorem fine_joined (hm : (TokenKind.punct m).closes = true) (hdot : m ≠ .dot)
    (h : ∀ l ∈ ls, Fine l) :
    Fine (joined [mark m, space] ls) := by
  induction ls with
  | nil => exact fun rest _ hs => hs
  | cons l ls ih =>
    obtain ⟨hl, hls⟩ := List.forall_mem_cons.mp h
    cases ls with
    | nil => exact hl
    | cons l' ls =>
      intro rest hc hs
      have hrest := ih hls rest hc hs
      have hall := hl (mark m :: space :: (joined [mark m, space] (l' :: ls) ++ rest)) hm (by
        simpa [hdot] using hrest)
      simpa [joined] using hall

theorem fine_commas (h : ∀ l ∈ ls, Fine l) : Fine (commas ls) :=
  fine_joined rfl (by simp) h

theorem fine_token (hk : k ≠ .punct .dot) : Fine [.token k] :=
  fun _ hc hs => ⟨hc.stands hk, hs⟩

/-- Something in front of a mark that closes. -/
theorem Fine.before (h : Fine l) (hm : (TokenKind.punct m).closes = true) (hdot : m ≠ .dot) :
    Fine (l ++ [mark m]) := by
  intro rest hc hs
  have hmark : Spaced (mark m :: rest) := ⟨hc.stands (by simpa using hdot), hs⟩
  simpa using h (mark m :: rest) hm hmark

/-- A token that needs no gap behind it can be put in front. -/
theorem Fine.cons (h : Fine l) (hk : k.isFree = true) : Fine (.token k :: l) :=
  fun rest hc hs => ⟨.inl hk, h rest hc hs⟩

theorem fine_literal (value : Literal) : Fine (literal value) := by
  cases value with
  | number x =>
    rw [literal]
    split
    · exact (fine_token (by simp)).cons rfl
    · exact fine_token (by simp)
  | bool b => cases b <;> exact fine_token (by simp)
  | _ => exact fine_token (by simp)

mutual

/-- By recursion over patterns, along with lists of them. -/
theorem fine_pattern : ∀ p : Pattern, Fine (pattern p)
  | .unit _ => (fine_token (k := .punct .rparen) (by simp)).cons rfl
  | .var _ | .wild _ => fine_token (by simp)
  | .literal value _ => fine_literal value
  | .named n p => by
    intro rest hc hs
    simpa [pattern] using fine_pattern p rest hc hs
  | .tuple ps _ => ((fine_commas (fine_patterns ps)).before (m := .rparen) rfl (by simp)).cons rfl
  | .vector ps _ =>
    ((fine_commas (fine_patterns ps)).before (m := .rbracket) rfl (by simp)).cons rfl

theorem fine_patterns : ∀ ps : List Pattern, ∀ l ∈ patterns ps, Fine l
  | [] => fun _ h => absurd h List.not_mem_nil
  | p :: ps => List.forall_mem_cons.mpr ⟨fine_pattern p, fine_patterns ps⟩

end

/-! ## Expressions -/

/-- An expression begins with a token, which is one that may stand behind a `!`. -/
theorem expr_head : ∀ e : Expr, ∃ k l, expr e = .token k :: l ∧ k.beginsExpr = true
  | .literal (.number x) _ => by
    rw [expr, literal]
    split <;> exact ⟨_, _, rfl, rfl⟩
  | .literal (.str _) _ | .literal (.bool true) _ | .literal (.bool false) _ | .literal .nil _ =>
    ⟨_, _, rfl, rfl⟩
  | .unary op _ _ => by cases op <;> exact ⟨_, _, rfl, rfl⟩
  | .binary left _ _ _ | .call left _ _ | .get left _ | .set left _ _ => by
    obtain ⟨k, l, hl, hk⟩ := expr_head left
    exact ⟨k, _, by simp only [expr, hl]; rfl, hk⟩
  | .seq [] _ | .seq (_ :: _) _ | .case _ [] _ | .case _ (_ :: _) _ => ⟨_, _, rfl, rfl⟩
  | .grouping _ _ | .var _ | .assign _ _ | .this _ | .super _ _ | .letIn _ _ _ _ | .cond
      _ _ _ _ | .tuple _ _
  | .vector _ _ => ⟨_, _, rfl, rfl⟩

mutual

/-- By recursion over expressions, along with arms. -/
theorem fine_expr : ∀ e : Expr, Fine (expr e)
  | .literal value _ => fine_literal value
  | .grouping inner _ => ((fine_expr inner).before (m := .rparen) rfl (by simp)).cons rfl
  | .unary op operand _ => by
    intro rest hc hs
    obtain ⟨k, l, hl, hk⟩ := expr_head operand
    refine ⟨?_, fine_expr operand rest hc hs⟩
    cases op with
    | not => exact .inr (by simp [hl, UnaryOp.mark, TokenKind.touches, hk])
    | neg => exact .inl rfl
  | .binary left op right _ => by
    intro rest hc hs
    have hop : op.token ≠ .punct .dot := by cases op <;> simp [BinaryOp.token]
    have hright := fine_expr right rest hc hs
    have hleft :=
      fine_expr left (space :: .token op.token :: space :: (expr right ++ rest)) (by simp)
        (by simpa [hop] using hright)
    simpa [expr] using hleft
  | .var _ | .this _ => fine_token (by simp)
  | .assign n value => by
    intro rest hc hs
    simpa [expr] using fine_expr value rest hc hs
  | .call callee args _ => by
    intro rest hc hs
    have hargs := (fine_commas (fine_exprs args)).before (m := .rparen) rfl (by simp) rest hc hs
    have hcallee :=
      fine_expr callee (mark .lparen :: (commas (exprs args) ++ [mark .rparen] ++ rest)) rfl
        ⟨.inl rfl, hargs⟩
    simpa [expr] using hcallee
  | .get object n => by
    intro rest hc hs
    have hobject :=
      fine_expr object (mark .dot :: name n :: rest) rfl ⟨.inr rfl, hc.stands (by simp), hs⟩
    simpa [expr] using hobject
  | .set object n value => by
    intro rest hc hs
    have hvalue := fine_expr value rest hc hs
    have hobject := fine_expr object
      (mark .dot :: name n :: space :: mark .eq :: space :: (expr value ++ rest)) rfl
      (by simpa using hvalue)
    simpa [expr] using hobject
  | .super n _ => by
    intro rest hc hs
    have hname : Stands (.ident n.name) rest := hc.stands (by simp)
    simpa [expr, hname] using hs
  | .letIn _ definition body _ => by
    intro rest hc hs
    have hbody := fine_expr body rest hc hs
    have hdefinition :=
      fine_expr definition (space :: word .in_ :: space :: (expr body ++ rest)) (by simp)
        (by simpa using hbody)
    simpa [expr] using hdefinition
  | .seq [] _ => by
    intro rest hc hs
    simpa [expr] using hs
  | .seq (e :: es) _ => by
    intro rest hc hs
    have hlist := fine_joined (m := .semicolon) rfl (by simp) (fine_exprs (e :: es))
      (space :: mark .rbrace :: rest)
      (by simp) (by simpa using hs)
    simpa [expr, exprs] using hlist
  | .cond condition yes no _ => by
    intro rest hc hs
    have hno := fine_expr no rest hc hs
    have hyes := fine_expr yes (space :: word .else_ :: space :: (expr no ++ rest)) (by simp)
      (by simpa using hno)
    have hcondition := fine_expr condition
      (space :: word .then_ :: space ::
        (expr yes ++ space :: word .else_ :: space :: (expr no ++ rest)))
      (by simp) (by simpa using hyes)
    simpa [expr] using hcondition
  | .tuple es _ => ((fine_commas (fine_exprs es)).before (m := .rparen) rfl (by simp)).cons rfl
  | .vector es _ => ((fine_commas (fine_exprs es)).before (m := .rbracket) rfl (by simp)).cons rfl
  | .case scrutinee [] _ => by
    intro rest hc hs
    have hscrutinee :=
      fine_expr scrutinee (space :: word .of :: space :: mark .lbrace :: mark .rbrace :: rest)
        (by simp) (by simpa using hs)
    simpa [expr] using hscrutinee
  | .case scrutinee (a :: as) _ => by
    intro rest hc hs
    have harms := fine_commas (fine_arms (a :: as)) (space :: mark .rbrace :: rest) (by simp)
      (by simpa using hs)
    have hscrutinee := fine_expr scrutinee
      (space :: word .of :: space :: mark .lbrace :: space ::
        (commas (arms (a :: as)) ++ space :: mark .rbrace :: rest)) (by simp) (by simpa using harms)
    simpa [expr, arms] using hscrutinee

theorem fine_exprs : ∀ es : List Expr, ∀ l ∈ exprs es, Fine l
  | [] => fun _ h => absurd h List.not_mem_nil
  | e :: es => List.forall_mem_cons.mpr ⟨fine_expr e, fine_exprs es⟩

theorem fine_arm : ∀ a : CaseArm, Fine (arm a)
  | .mk p none body => by
    intro rest hc hs
    have hbody := fine_expr body rest hc hs
    have hpattern :=
      fine_pattern p (space :: word .then_ :: space :: (expr body ++ rest)) (by simp)
        (by simpa using hbody)
    simpa [arm] using hpattern
  | .mk p (some guard) body => by
    intro rest hc hs
    have hbody := fine_expr body rest hc hs
    have hguard :=
      fine_expr guard (space :: word .then_ :: space :: (expr body ++ rest)) (by simp)
        (by simpa using hbody)
    have hpattern := fine_pattern p
      (space :: word .if_ :: space ::
        (expr guard ++ space :: word .then_ :: space :: (expr body ++ rest)))
      (by simp) (by simpa using hguard)
    simpa [arm] using hpattern

theorem fine_arms : ∀ as : List CaseArm, ∀ l ∈ arms as, Fine l
  | [] => fun _ h => absurd h List.not_mem_nil
  | a :: as => List.forall_mem_cons.mpr ⟨fine_arm a, fine_arms as⟩

end

/-! ## Statements -/

theorem fine_clause (e : Option Expr) : Fine (clause e) := by
  intro rest hc hs
  cases e with
  | none => exact hs
  | some e => simpa [clause] using fine_expr e rest hc hs

/-- A missing clause leaves the semicolon behind it, which closes. -/
theorem closes_clause (e : Option Expr) : Closes (clause e ++ mark .semicolon :: l) := by
  cases e with
  | none => rfl
  | some e => exact closes_space _

/-- Blanks only. -/
def Blank (text : String) : Prop :=
  ∀ c ∈ text.toList, Lexeme.isBlank c = true

theorem spaced_indentation (h : Blank indent) (depth : Nat) (l : Layout) :
    Spaced (indentation indent depth :: l) ↔ Spaced l := by
  refine ⟨And.right, fun hs => ⟨fun c hc => ?_, hs⟩⟩
  rw [Text.times, String.toList_join, List.mem_flatMap] at hc
  obtain ⟨text, htext, hc⟩ := hc
  rw [List.eq_of_mem_replicate htext] at hc
  exact h c hc

/-- Each line ends with a gap, so the lines do not touch. -/
theorem spaced_lines {bodies : List Layout} (h : Blank indent) (depth : Nat)
    (hfine : ∀ b ∈ bodies, Fine b) (hs : Spaced rest) :
    Spaced ((bodies.flatMap fun body => indentation indent depth :: body ++ [newline]) ++
      rest) := by
  induction bodies with
  | nil => exact hs
  | cons body bodies ih =>
    obtain ⟨hbody, hbodies⟩ := List.forall_mem_cons.mp hfine
    have hlines := ih hbodies
    have hall := hbody
      (newline :: ((bodies.flatMap fun body => indentation indent depth :: body ++ [newline]) ++
        rest)) (by simp) (by simpa using hlines)
    simpa [spaced_indentation h] using hall

/-- Braces around nothing are two tokens, around lines they stand on lines of their own. -/
theorem fine_braces (h : Blank indent) (depth : Nat) (hfine : ∀ b ∈ bodies, Fine b) :
    Fine (braces indent depth bodies) := by
  intro rest hc hs
  unfold braces
  split
  · simpa using hs
  · have hlast : Spaced (indentation indent depth :: mark .rbrace :: rest) := by
      simpa [spaced_indentation h] using hs
    simpa using spaced_lines h (depth + 1) hfine hlast

mutual

/-- By recursion over statements, along with functions. -/
theorem fine_stmt (h : Blank indent) : ∀ depth (s : Stmt), Fine (stmt indent depth s)
  | _, .expr e => (fine_expr e).before rfl (by simp)
  | _, .print e _ | _, .ret (some e) _ => by
    intro rest hc hs
    simpa [stmt] using (fine_expr e).before (m := .semicolon) rfl (by simp) rest hc hs
  | _, .varDecl n none | _, .ret none _ => by
    intro rest hc hs
    simpa [stmt] using hs
  | _, .varDecl n (some e) => by
    intro rest hc hs
    simpa [stmt] using (fine_expr e).before (m := .semicolon) rfl (by simp) rest hc hs
  | depth, .block ss _ => fine_braces h depth (fine_stmts h (depth + 1) ss)
  | depth, .fnDecl d => by
    intro rest hc hs
    simpa [stmt] using fine_function h depth d rest hc hs
  | depth, .classDecl _ none fs | depth, .classDecl _ (some _) fs => by
    intro rest hc hs
    simpa [stmt] using fine_braces h depth (fine_functions h (depth + 1) fs) rest hc hs
  | depth, .whileLoop condition body _ => by
    intro rest hc hs
    have hbody := fine_stmt h depth body rest hc hs
    have hcondition := fine_expr condition (space :: (stmt indent depth body ++ rest)) (by simp) (by
      simpa using hbody)
    simpa [stmt] using hcondition
  | depth, .forever ss _ => by
    intro rest hc hs
    simpa [stmt] using fine_braces h depth (fine_stmts h (depth + 1) ss) rest hc hs
  | depth, .forLoop initializer condition increment body _ => by
    intro rest hc hs
    have hbody := fine_stmt h depth body rest hc hs
    have hincrement :=
      fine_clause increment (mark .rparen :: space :: (stmt indent depth body ++ rest)) rfl
        (by simpa using hbody)
    have hcondition := fine_clause condition
      (mark .semicolon ::
        (clause increment ++ mark .rparen :: space :: (stmt indent depth body ++ rest))) rfl
      (by simpa using hincrement)
    have hinitial := fine_initial h depth initializer _ (closes_clause condition) hcondition
    simpa [stmt] using hinitial

theorem fine_stmts (h : Blank indent) :
    ∀ depth (ss : List Stmt), ∀ l ∈ stmts indent depth ss, Fine l
  | _, [] => fun _ hl => absurd hl List.not_mem_nil
  | depth, s :: ss => List.forall_mem_cons.mpr ⟨fine_stmt h depth s, fine_stmts h depth ss⟩

theorem fine_initial (h : Blank indent) : ∀ depth (s : Option Stmt), Fine (initial indent depth s)
  | _, none => fine_token (by simp)
  | depth, some s => fine_stmt h depth s

theorem fine_function (h : Blank indent) :
    ∀ depth (f : FunctionDecl), Fine (function indent depth f)
  | depth, .mk n params body => by
    intro rest hc hs
    have hbody := fine_braces h depth (fine_stmts h (depth + 1) body) rest hc hs
    have hparams : ∀ l ∈ params.map (fun param => [name param]), Fine l :=
      List.forall_mem_map.mpr fun param _ => fine_token (by simp)
    have hall := fine_commas hparams
      (mark .rparen :: space :: (braces indent depth (stmts indent (depth + 1) body) ++ rest)) rfl
      (by simpa using hbody)
    simpa [function] using hall

theorem fine_functions (h : Blank indent) :
    ∀ depth (fs : List FunctionDecl), ∀ l ∈ functions indent depth fs, Fine l
  | _, [] => fun _ hl => absurd hl List.not_mem_nil
  | depth, f :: fs => List.forall_mem_cons.mpr ⟨fine_function h depth f, fine_functions h depth fs⟩

end

/-- The layout of a program can be told apart into its tokens. -/
theorem spaced_program (h : Blank indent) (p : Program) : Spaced (program indent p) := by
  unfold program
  have hfine := fine_stmts h 0 p.statements
  generalize stmts indent 0 p.statements = ls at hfine
  induction ls with
  | nil => trivial
  | cons l ls ih =>
    obtain ⟨hl, hls⟩ := List.forall_mem_cons.mp hfine
    have hline := hl (newline :: ls.flatMap (· ++ [newline])) (by simp) (by simpa using ih hls)
    simpa using hline

end Layout

end TreeWalk
