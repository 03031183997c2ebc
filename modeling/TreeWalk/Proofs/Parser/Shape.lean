import TreeWalk.Proofs.Parser.Yields
import TreeWalk.Proofs.Tree

/-!
# The shape of parsed trees

Trees that come out of the parser obey the precedence and associativity of the operators, although
nothing in their type says so. The reason is where each production stops: in front of a token that
no looser operator and no open `let` or `if` could still take in. The shape does not depend on the
absence of errors, since what was given up is left out.
-/

namespace TreeWalk

/-! ## Shapes -/

namespace Expr

/-- The level of the operator, where the expression is an infix one. -/
def level? : Expr → Option Nat
  | .binary _ op _ _ => some op.level
  | _ => none

def isAssignment : Expr → Bool
  | .assign _ _ | .set _ _ _ => true
  | _ => false

/-- Whether the right edge of the expression is a `let` or an `if`, which reach as far to the right
as they can. -/
def endsOpen : Expr → Bool
  | .letIn _ _ _ _ | .cond _ _ _ _ => true
  | .unary _ e _ | .binary _ _ e _ | .assign _ e | .set _ _ e => e.endsOpen
  | _ => false

/-- Whether a call or a property may stand directly behind the expression. -/
def takesSuffix : Expr → Bool
  | .assign _ _ | .set _ _ _ | .unary _ _ _ | .binary _ _ _ _ | .letIn _ _ _ _ | .cond _ _ _ _ =>
    false
  | _ => true

/-- What one node of a parsed expression is like. -/
def Shaped : Expr → Prop
  | .binary l op r _ =>
    (∀ n, l.level? = some n → op.level ≤ n) ∧ (∀ n, r.level? = some n → op.level < n) ∧
      l.isAssignment = false ∧ r.isAssignment = false ∧ l.endsOpen = false
  | .unary _ e _ => e.isAssignment = false ∧ e.level? = none
  | .call e _ _ | .get e _ | .set e _ _ => e.takesSuffix = true
  | .tuple es _ => 2 ≤ es.length
  | _ => True

end Expr

/-- What one node of a parsed pattern is like. -/
def Pattern.Shaped : Pattern → Prop
  | .tuple ps _ => 2 ≤ ps.length
  | _ => True

namespace Stmt

/-- Whether the statement may stand first in the header of a `for`. -/
def isInitializer : Stmt → Bool
  | .varDecl _ _ | .expr _ => true
  | _ => false

/-- What one node of a parsed statement is like. -/
def Shaped : Stmt → Prop
  | .whileLoop _ body _ => body.declared? = none
  | .forLoop init _ _ body _ =>
    (∀ s, init = some s → s.isInitializer = true) ∧ body.declared? = none
  | _ => True

/-- Loops without declarations as their bodies declare nothing. -/
theorem Settled.of_shaped : ∀ {s : Stmt}, s.Everywhere Shaped → s.Settled
  | .whileLoop _ body _, h, _ =>
    have ⟨hbody, hparts⟩ := everywhere_iff.mp h
    Settled.of_shaped (s := body) (hparts body (List.mem_singleton_self body)) hbody
  | .expr _, _, _ | .print _ _, _, _ | .block _ _, _, _ | .ret _ _, _, _ | .forever _ _, _, _
  | .forLoop _ _ _ _ _, _, _ => rfl

end Stmt

/-- The node is shaped, and so are the patterns of its arms. -/
def Expr.Proper (e : Expr) : Prop :=
  e.Shaped ∧ ∀ p ∈ e.patterns, p.Everywhere Pattern.Shaped

theorem Expr.Proper.of_shaped {e : Expr} (hs : e.Shaped) (hp : e.patterns = []) : e.Proper :=
  ⟨hs, by simp [hp]⟩

/-- The node is shaped, and so are the expressions in it. -/
def Stmt.Proper (s : Stmt) : Prop :=
  s.Shaped ∧ ∀ e ∈ s.exprs, e.Everywhere Expr.Proper

namespace Parser

/-! ## Patterns -/

theorem Pattern.everywhere_of_simple {p : Pattern} (hs : p.Shaped) (hp : p.parts = []) :
    p.Everywhere Pattern.Shaped :=
  Pattern.everywhere_iff.mpr ⟨hs, by simp [hp]⟩

theorem two_le_length_cons {α : Type} {a : α} {as : List α} (h : as ≠ []) : 2 ≤ (a :: as).length :=
  Nat.succ_le_succ (List.length_pos_iff.mpr h)

section

variable {self : Parser Pattern} (hself : self.Yields (·.Everywhere Pattern.Shaped))
include hself

theorem Yields.namedPattern :
    (Parser.namedPattern self name).Yields (·.Everywhere Pattern.Shaped) := by
  refine .bind (.behind hself) fun r hr => ?_
  cases r with
  | none => exact .pure (Pattern.everywhere_of_simple trivial rfl)
  | some p =>
    refine .pure (Pattern.everywhere_iff.mpr ⟨trivial, fun q hq => ?_⟩)
    obtain rfl := List.mem_singleton.mp hq
    exact hr q rfl

theorem Yields.parenPattern :
    (Parser.parenPattern self span).Yields (·.Everywhere Pattern.Shaped) := by
  refine .onKind (fun close => .pure (Pattern.everywhere_of_simple trivial rfl)) ?_
  refine .bind hself fun first hfirst => .skip fun more => ?_
  cases more with
  | false => exact .skip fun _ => .pure hfirst
  | true =>
    refine .bind (.collect_given (fun _ => hself.itemThen) 1) fun rest hrest =>
      .skip fun _ => .pure ?_
    refine Pattern.everywhere_iff.mpr ⟨two_le_length_cons hrest.1, ?_⟩
    exact List.forall_mem_cons.mpr ⟨hfirst, hrest.2⟩

theorem Yields.patternStep : (Parser.patternStep self).Yields (·.Everywhere Pattern.Shaped) := by
  refine .branch (fun token q hq => ?_) .fail
  unfold patternForms at hq
  split at hq <;> cases hq
  case h_7 =>
    refine .branch (fun token q hq => ?_) .fail
    unfold negativeForms at hq
    split at hq <;> cases hq
    exact .pure (Pattern.everywhere_of_simple trivial rfl)
  case h_8 => exact .namedPattern hself
  case h_9 => exact .parenPattern hself
  case h_10 =>
    exact .bind hself.closed fun ps hps => .pure (Pattern.everywhere_iff.mpr ⟨trivial, hps⟩)
  all_goals exact .pure (Pattern.everywhere_of_simple trivial rfl)

end

theorem Yields.pattern : Parser.pattern.Yields (·.Everywhere Pattern.Shaped) :=
  .fix (P := fun _ => Pattern.Everywhere Pattern.Shaped)
    (fun _ hself _ => .patternStep (hself ())) ()

/-! ## Expressions -/

/-- How tightly the outermost form of an expression binds. An infix operator comes right behind its
level, so that `n < rank e` says that `e` may be an operand at level `n`. -/
def rank : Expr → Nat
  | .assign _ _ | .set _ _ _ => 0
  | .binary _ op _ _ => op.level + 1
  | .unary _ _ _ => 7
  | _ => 8

theorem isAssignment_of_rank (h : 0 < rank e) : e.isAssignment = false := by
  cases e with
  | assign _ _ | set _ _ _ => exact absurd h (Nat.lt_irrefl 0)
  | _ => rfl

theorem le_level_of_rank (h : n < rank e) (hl : e.level? = some m) : n ≤ m := by
  cases e with
  | binary _ op _ _ =>
    cases hl
    exact Nat.le_of_lt_succ h
  | _ => exact nomatch hl

theorem level?_of_rank (h : 6 < rank e) : e.level? = none := by
  cases e with
  | binary _ op _ _ => cases op <;> simp [rank, BinaryOp.level] at h
  | _ => rfl

theorem takesSuffix_of_rank (h : 7 < rank e) (ho : e.endsOpen = false) : e.takesSuffix = true := by
  cases e with
  | binary _ op _ _ => cases op <;> simp [rank, BinaryOp.level] at h
  | assign _ _ | set _ _ _ | unary _ _ _ => simp [rank] at h
  | letIn _ _ _ _ | cond _ _ _ _ => exact nomatch ho
  | _ => rfl

/-- A well-shaped expression in front of a token with which no expression goes on. -/
def Whole (e : Expr) (k : TokenKind) : Prop :=
  e.Everywhere Expr.Proper ∧ goesOn k = false

/-- A well-shaped expression that binds tighter than `n` and leaves the next token to operators
below level `m`. An open `let` or `if` at its end leaves it only what no expression takes in. -/
structure Operand (n m : Nat) (e : Expr) (k : TokenKind) : Prop where
  shaped : e.Everywhere Expr.Proper
  rank : n < rank e
  closed : e.endsOpen = true → goesOn k = false
  level : ∀ op : BinaryOp, k = op.token → op.level < m

/-- An operand that the next token does not make longer by a call or a property. -/
structure Finished (n m : Nat) (e : Expr) (k : TokenKind) : Prop extends Operand n m e k where
  not_lparen : k ≠ .punct .lparen
  not_dot : k ≠ .punct .dot

theorem level_lt_six (op : BinaryOp) : op.level < 6 := by
  cases op <;> decide

theorem Operand.endsOpen (h : Operand n m e k) (hk : goesOn k = true) : e.endsOpen = false :=
  Bool.eq_false_iff.mpr fun ho => absurd hk (by simp [h.closed ho])

/-- An expression from its parts, where nothing is said about operators behind it. -/
theorem Operand.of_parts (hs : e.Proper) (hparts : ∀ d ∈ e.parts, d.Everywhere Expr.Proper)
    (hr : Parser.rank e = 8) (ho : e.endsOpen = true → goesOn k = false) : Operand 7 6 e k :=
  ⟨Expr.everywhere_iff.mpr ⟨hs, hparts⟩, hr ▸ Nat.lt_succ_self 7, ho, fun op _ => level_lt_six op⟩

section

variable {self : Parser Expr} (hself : ∀ k, Lands k self Whole)
include hself

theorem Yields.of_whole : self.Yields (·.Everywhere Expr.Proper) :=
  Lands.yields fun k => (hself k).mono fun _ _ h => h.1

theorem Yields.caseArm : (Parser.caseArm self).Yields fun a =>
    a.pattern.Everywhere Pattern.Shaped ∧ ∀ e ∈ a.exprs, e.Everywhere Expr.Proper := by
  refine .bind .pattern fun p hp => .bind (.behind (Yields.of_whole hself)) fun g hg =>
    .skip fun _ => ?_
  refine .bind (Yields.of_whole hself) fun body hbody => .pure ⟨hp, fun e he => ?_⟩
  rcases List.mem_append.mp he with he | he
  · exact hg e (Option.mem_toList.mp he)
  · obtain rfl := List.mem_singleton.mp he
    exact hbody

theorem Lands.letForm : Lands k (Parser.letForm self span) (Operand 7 6) := by
  refine .skip fun name _ => .skip fun _ _ => .bind (hself _) fun d _ hd => .skip fun _ _ => ?_
  refine .bind (hself _) fun body k' hbody => .pure ?_
  refine .of_parts (.of_shaped trivial rfl) ?_ rfl fun _ => hbody.2
  simpa [Expr.parts] using ⟨hd.1, hbody.1⟩

theorem Lands.ifForm : Lands k (Parser.ifForm self span) (Operand 7 6) := by
  refine .bind (hself _) fun c _ hc => .skip fun _ _ => .bind (hself _) fun yes _ hyes =>
    .skip fun _ _ => ?_
  refine .bind (hself _) fun no k' hno => .pure ?_
  refine .of_parts (.of_shaped trivial rfl) ?_ rfl fun _ => hno.2
  simpa [Expr.parts] using ⟨hc.1, hyes.1, hno.1⟩

theorem Lands.caseForm : Lands k (Parser.caseForm self span) (Operand 7 6) := by
  refine .bind (hself _) fun e _ he => .skip fun _ _ => ?_
  refine .bind (.of_yields (.delimited (.caseArm hself))) fun arms _ harms => .pure ?_
  refine .of_parts ⟨trivial, ?_⟩ ?_ rfl (fun h => nomatch h)
  · intro p hp
    obtain ⟨a, ha, rfl⟩ := List.mem_map.mp hp
    exact (harms a ha).1
  · refine List.forall_mem_cons.mpr ⟨he.1, fun d hd => ?_⟩
    obtain ⟨a, ha, hd⟩ := List.mem_flatMap.mp hd
    exact (harms a ha).2 d hd

theorem Lands.parenForm : Lands k (Parser.parenForm self span) (Operand 7 6) := by
  refine .onKind (fun _ close _ => .pure ?_) fun _ => ?_
  · exact .of_parts (.of_shaped trivial rfl) (by simp [Expr.parts]) rfl (fun h => nomatch h)
  refine .bind (hself _) fun first _ hfirst => .skip fun more _ => ?_
  cases more with
  | false =>
    refine .skip fun _ _ => .pure (.of_parts (.of_shaped trivial rfl) ?_ rfl fun h => nomatch h)
    simpa [Expr.parts] using hfirst.1
  | true =>
    refine .bind (.of_yields (.commaList (Yields.of_whole hself) 1)) fun rest _ hrest =>
      .skip fun _ _ => .pure ?_
    refine .of_parts (.of_shaped (two_le_length_cons hrest.1) rfl) ?_ rfl (fun h => nomatch h)
    exact List.forall_mem_cons.mpr ⟨hfirst.1, hrest.2⟩

theorem Lands.primary : Lands k (Parser.primary self) (Operand 7 6) := by
  refine .branch (fun span q hq k' => ?_) fun _ _ => .fail
  -- A form without expressions inside.
  have simple : ∀ (e : Expr) k, e.Shaped → e.patterns = [] → e.parts = [] → rank e = 8 →
      e.endsOpen = false → Operand 7 6 e k :=
    fun e k hs hps hp hr ho => .of_parts (.of_shaped hs hps) (by simp [hp]) hr (by simp [ho])
  unfold primaryForms at hq
  split at hq
  · cases hq
    exact .pure (simple _ _ trivial rfl rfl rfl rfl)
  unfold compoundForms at hq
  split at hq <;> cases hq
  · exact .letForm hself
  · refine .bind (.of_yields (.delimited (Yields.of_whole hself))) fun es _ hes => .pure ?_
    exact .of_parts (.of_shaped trivial rfl) hes rfl (fun h => nomatch h)
  · exact .ifForm hself
  · exact .caseForm hself
  · exact .skip fun _ _ => .skip fun _ _ => .pure (simple _ _ trivial rfl rfl rfl rfl)
  · exact .pure (simple _ _ trivial rfl rfl rfl rfl)
  · exact .pure (simple _ _ trivial rfl rfl rfl rfl)
  · refine .bind (.of_yields (.closed (Yields.of_whole hself))) fun es _ hes => .pure ?_
    exact .of_parts (.of_shaped trivial rfl) hes rfl (fun h => nomatch h)
  · exact .parenForm hself

theorem Yields.arguments :
    (Parser.arguments self).Yields fun es => ∀ e ∈ es, e.Everywhere Expr.Proper := by
  refine .bind (.unlessAt (.commaList (Yields.of_whole hself) 0)) fun r hr =>
    .skip fun _ => .pure ?_
  cases r with
  | none => exact fun e he => absurd he List.not_mem_nil
  | some es => exact (hr es rfl).2

/-- A call or a property makes a primary form longer; it is taken in only behind a form that is not
open. -/
theorem Lands.postfixed : Lands k (Parser.postfixed self) (Finished 7 6) := by
  refine .bind (.primary hself) fun e k he => ?_
  refine .bind (.collect_foldl (f := Suffix.apply) (B := Finished 7 6) (fun e k _ he => ?_) he)
    fun suffixes k h => .pure h
  refine .branch (fun span q hq k' => ?_) fun span hq => ?_
  · have hs : goesOn k = true → e.takesSuffix = true := fun hk =>
      takesSuffix_of_rank he.rank (he.endsOpen hk)
    unfold suffixForms at hq
    split at hq <;> cases hq
    · next hk =>
      obtain rfl : k = .punct .lparen := hk
      refine .bind (.of_yields (.arguments hself)) fun args k' hargs => .pure ?_
      refine ⟨fun h => (nomatch h), fun _ h => (nomatch h), fun a ha => ?_⟩
      cases ha
      refine .of_parts (.of_shaped (hs rfl) rfl) ?_ rfl (fun h => nomatch h)
      exact List.forall_mem_cons.mpr ⟨he.shaped, hargs⟩
    · next hk =>
      obtain rfl : k = .punct .dot := hk
      refine .skip fun name k' =>
        .pure ⟨fun h => (nomatch h), fun _ h => (nomatch h), fun a ha => ?_⟩
      cases ha
      refine .of_parts (.of_shaped (hs rfl) rfl) ?_ rfl (fun h => nomatch h)
      exact List.forall_mem_singleton.mpr he.shaped
  · refine .pure ⟨fun _ => ⟨he, ?_, ?_⟩, fun _ h => (nomatch h), fun _ h => (nomatch h)⟩
    · rintro rfl
      cases hq
    · rintro rfl
      cases hq

theorem Lands.unary : Lands k (Parser.unary self) (Finished 6 6) := by
  refine .skip fun ops _ => .bind (.postfixed hself) fun e k he => .pure ?_
  induction ops with
  | nil => exact { he with rank := Nat.lt_of_succ_lt he.rank }
  | cons op ops ih =>
    refine { ih with shaped := ?_, rank := Nat.lt_succ_self 6 }
    have hrank := ih.rank
    refine Expr.everywhere_iff.mpr ⟨.of_shaped ⟨?_, level?_of_rank hrank⟩ rfl, ?_⟩
    · exact isAssignment_of_rank (Nat.zero_lt_of_lt hrank)
    · exact List.forall_mem_singleton.mpr ih.shaped

end

/-- Operators of one level group to the left: what there is so far becomes the left operand. -/
theorem Lands.chain {operand : Parser Expr} (h : ∀ k, Lands k operand (Finished (n + 1) (n + 1))) :
    Lands k (Parser.chain n operand) (Finished n n) := by
  refine .bind (h _) fun first k hfirst => ?_
  have hfirst : Finished n (n + 1) first k := { hfirst with rank := Nat.lt_of_succ_lt hfirst.rank }
  refine .bind (.collect_foldl (B := Finished n n) (fun left k _ hleft => ?_) hfirst)
    fun rest k h => .pure h
  refine .branch (fun span q hq k' => ?_) fun span hq => ?_
  · obtain ⟨op, hop, hlevel, rfl⟩ : ∃ op : BinaryOp, BinaryOp.ofToken? k = some op ∧ op.level = n ∧
        q = (do let right ← operand; return .more (op, span, right)) := by
      unfold chainForms at hq
      split at hq
      · next op hop =>
        split at hq
        · next hlevel => cases hq; exact ⟨op, hop, eq_of_beq hlevel, rfl⟩
        · cases hq
      · cases hq
    obtain rfl := BinaryOp.ofToken?_eq_some_iff.mp hop
    refine .bind (h _) fun right k' hright =>
      .pure ⟨fun h => (nomatch h), fun _ h => (nomatch h), fun a ha => ?_⟩
    cases ha
    refine { hright with shaped := ?_, rank := ?_ }
    · refine Expr.everywhere_iff.mpr ⟨.of_shaped ⟨?_, ?_, ?_, ?_, ?_⟩ rfl, ?_⟩
      · exact fun m hm => hlevel ▸ le_level_of_rank hleft.rank hm
      · exact fun m hm => hlevel ▸ le_level_of_rank hright.rank hm
      · exact isAssignment_of_rank (Nat.zero_lt_of_lt hleft.rank)
      · exact isAssignment_of_rank (Nat.zero_lt_of_lt hright.rank)
      · exact hleft.endsOpen (goesOn_token op)
      · simpa [Expr.parts] using ⟨hleft.shaped, hright.shaped⟩
    · simp [rank, hlevel]
  · refine .pure ⟨fun _ => { hleft with level := fun op hop => ?_ }, fun _ h => (nomatch h),
      fun _ h => (nomatch h)⟩
    have hne : op.level ≠ n := by
      rintro hlevel
      simp [chainForms, BinaryOp.ofToken?_eq_some_iff.mpr hop, hlevel] at hq
    exact Nat.lt_of_le_of_ne (Nat.le_of_lt_succ (hleft.level op hop)) hne

theorem Lands.report : Lands k (Parser.report e) fun _ k' => k' = k := by
  intro cx ts a s hk hr
  cases hr
  exact hk

section

variable {self : Parser Expr} (hself : ∀ k, Lands k self Whole)
include hself

theorem Lands.infixed : Lands k (Parser.infixed self) (Finished 0 0) :=
  .chain fun _ => .chain fun _ => .chain fun _ => .chain fun _ => .chain fun _ => .chain fun _ =>
    .unary hself

omit hself in
/-- What cannot be assigned to stays as it is, so it keeps its shape. -/
theorem Lands.assignTo (hleft : left.Everywhere Expr.Proper) (hvalue : Whole value k) :
    Lands k (Parser.assignTo left span value) Whole := by
  unfold Parser.assignTo
  split
  · refine .pure ⟨Expr.everywhere_iff.mpr ⟨.of_shaped trivial rfl, ?_⟩, hvalue.2⟩
    exact List.forall_mem_singleton.mpr hvalue.1
  · next object name =>
    obtain ⟨⟨hshape, -⟩, hparts⟩ := Expr.everywhere_iff.mp hleft
    refine .pure ⟨Expr.everywhere_iff.mpr ⟨.of_shaped hshape rfl, ?_⟩, hvalue.2⟩
    simpa [Expr.parts] using ⟨hparts object (List.mem_singleton_self object), hvalue.1⟩
  · exact .bind .report fun _ k' hk => .pure ⟨hleft, hk ▸ hvalue.2⟩

theorem Lands.assignment : Lands k (Parser.assignment self) Whole := by
  refine .bind (.infixed hself) fun left k hleft => .onKind (fun _ eq _ => ?_) fun hk =>
    .pure ⟨hleft.shaped, ?_⟩
  · exact .bind (hself _) fun value k' hvalue => .assignTo hleft.shaped hvalue
  · exact goesOn_eq_false (fun op hop => absurd (hleft.level op hop) (Nat.not_lt_zero _))
      hleft.not_lparen hleft.not_dot hk

end

theorem Lands.expression : Lands k Parser.expression Whole :=
  .fix (P := fun _ => Whole) (fun _ hself _ _ => .assignment (hself ())) ()

theorem Yields.expression : Parser.expression.Yields (·.Everywhere Expr.Proper) :=
  .of_whole fun _ => .expression

/-! ## Statements -/

/-- A statement as the grammar has it: of the right shape everywhere, and at the level of statements
no declaration. -/
def Regular (l : Level) (s : Stmt) : Prop :=
  s.Everywhere Stmt.Proper ∧ (l = .statement → s.declared? = none)

/-- A statement that is no declaration, from what is in it. -/
theorem Regular.of_parts {s : Stmt} (hs : s.Shaped) (hd : s.declared? = none)
    (hexprs : ∀ e ∈ s.exprs, e.Everywhere Expr.Proper)
    (hparts : ∀ t ∈ s.parts, t.Everywhere Stmt.Proper) :
    Regular l s :=
  ⟨Stmt.everywhere_iff.mpr ⟨⟨hs, hexprs⟩, hparts⟩, fun _ => hd⟩

/-- A declaration, from what is in it. -/
theorem Regular.of_declaration {s : Stmt} (hs : s.Shaped)
    (hexprs : ∀ e ∈ s.exprs, e.Everywhere Expr.Proper)
    (hparts : ∀ t ∈ s.parts, t.Everywhere Stmt.Proper) : Regular .declaration s :=
  ⟨Stmt.everywhere_iff.mpr ⟨⟨hs, hexprs⟩, hparts⟩, fun h => nomatch h⟩

theorem forall_mem_toList {α : Type} {P : α → Prop} {o : Option α} (h : ∀ a ∈ o, P a) :
    ∀ a ∈ o.toList, P a :=
  fun a ha => h a (Option.mem_toList.mp ha)

theorem Yields.varDecl :
    Parser.varDecl.Yields fun s => Regular .declaration s ∧ s.isInitializer = true := by
  refine .skip fun name => .bind (.behind .expression) fun e he => .skip fun _ => .pure ⟨?_, rfl⟩
  exact .of_declaration trivial (forall_mem_toList he) (by simp [Stmt.parts])

theorem Yields.forInitializer :
    Parser.forInitializer.Yields fun r => ∀ s, r = some s → s.Everywhere Stmt.Proper ∧
      s.isInitializer = true := by
  refine .onKind (fun _ => .pure fun _ h => nomatch h) ?_
  refine .bind (P := fun s => s.Everywhere Stmt.Proper ∧ s.isInitializer = true)
    (.onKind (fun _ => ?_) ?_) ?_
  · exact Yields.varDecl.mono fun s hs => ⟨hs.1.1, hs.2⟩
  · refine .bind .expression fun e he => .skip fun _ => .pure ⟨?_, rfl⟩
    have h : Regular .statement (.expr e) :=
      .of_parts trivial rfl (List.forall_mem_singleton.mpr he) (by simp [Stmt.parts])
    exact h.1
  · intro s hs
    refine .pure ?_
    rintro _ ⟨⟩
    exact hs

theorem Yields.returnValue :
    Parser.returnValue.Yields fun r => ∀ e ∈ r, e.Everywhere Expr.Proper := by
  refine .skip fun token => ?_
  cases token.kind.beginsExpr with
  | true =>
    refine .bind .expression fun e he => .pure ?_
    rintro _ ⟨⟩
    exact he
  | false => exact .pure fun _ h => nomatch h

theorem Yields.exprStatement : Parser.exprStatement.Yields (Regular .statement) :=
  .bind .expression fun e he => .skip fun _ =>
    .pure (.of_parts trivial rfl (List.forall_mem_singleton.mpr he) (by simp [Stmt.parts]))

section

variable {self : Level → Parser Stmt} (hself : ∀ l, (self l).Yields (Regular l))
include hself

theorem Yields.blockBody :
    (Parser.blockBody self).Yields fun ss => ∀ s ∈ ss, s.Everywhere Stmt.Proper := by
  refine .bind (.itemsUntil (.recovering (hself .declaration))) fun found hfound => ?_
  refine .skip fun _ => .pure fun s hs => ?_
  obtain ⟨r, hr, rfl⟩ := List.mem_filterMap.mp hs
  exact (hfound _ hr s rfl).1

theorem Yields.function :
    (Parser.function self context).Yields fun d => ∀ s ∈ d.body, s.Everywhere Stmt.Proper :=
  .skip fun _ => .skip fun _ => .skip fun _ => .skip fun _ => .skip fun _ =>
    .bind (.blockBody hself) fun _ hbody => .pure hbody

theorem Yields.classDecl : (Parser.classDecl self).Yields (Regular .declaration) := by
  refine .skip fun name => .skip fun sup => .skip fun _ => ?_
  refine .bind (.itemsUntil (.function hself)) fun methods hmethods => .skip fun _ => .pure ?_
  refine .of_declaration trivial (by simp [Stmt.exprs]) fun t ht => ?_
  obtain ⟨d, hd, ht⟩ := List.mem_flatMap.mp ht
  exact hmethods d hd t ht

theorem Yields.forLoop : (Parser.forLoop self span).Yields (Regular .statement) := by
  refine .skip fun _ => .bind .forInitializer fun init hinit => ?_
  refine .bind (.unlessAt .expression) fun c hc => .skip fun _ => ?_
  refine .bind (.unlessAt .expression) fun inc hinc => .skip fun _ => ?_
  refine .bind (hself .statement) fun body hbody => .pure (.of_parts ?_ rfl ?_ ?_)
  · exact ⟨fun s hs => (hinit s hs).2, hbody.2 rfl⟩
  · exact List.forall_mem_append.mpr ⟨forall_mem_toList hc, forall_mem_toList hinc⟩
  · refine List.forall_mem_append.mpr ⟨forall_mem_toList fun s hs => (hinit s hs).1, ?_⟩
    exact List.forall_mem_singleton.mpr hbody.1

theorem Yields.statement : (Parser.statement self).Yields (Regular .statement) := by
  refine .branch (fun token q hq => ?_) .exprStatement
  unfold statementForms at hq
  split at hq <;> cases hq
  · refine .bind .expression fun e he => .skip fun _ => .pure ?_
    exact .of_parts trivial rfl (List.forall_mem_singleton.mpr he) (by simp [Stmt.parts])
  · refine .bind .returnValue fun e he => .skip fun _ => .pure ?_
    exact .of_parts trivial rfl (forall_mem_toList he) (by simp [Stmt.parts])
  · refine .bind .expression fun c hc => .bind (hself .statement) fun body hbody => .pure ?_
    exact .of_parts (hbody.2 rfl) rfl (List.forall_mem_singleton.mpr hc)
      (List.forall_mem_singleton.mpr hbody.1)
  · refine .skip fun _ => .bind (.blockBody hself) fun ss hss => .pure ?_
    exact .of_parts trivial rfl (by simp [Stmt.exprs]) hss
  · exact .forLoop hself
  · refine .bind (.blockBody hself) fun ss hss => .pure ?_
    exact .of_parts trivial rfl (by simp [Stmt.exprs]) hss

theorem Yields.declaration : (Parser.declaration self).Yields (Regular .declaration) := by
  refine .branch (fun token q hq => ?_)
    ((Yields.statement hself).mono fun s hs => ⟨hs.1, fun h => nomatch h⟩)
  unfold declarationForms at hq
  split at hq <;> cases hq
  · exact .classDecl hself
  · exact .bind (.function hself) fun d hd =>
      .pure (.of_declaration trivial (by simp [Stmt.exprs]) hd)
  · exact Yields.varDecl.mono fun s hs => hs.1

end

theorem Yields.stmt (l : Level) : (Parser.stmt l).Yields (Regular l) := by
  refine .fix (fun self hself l => ?_) l
  cases l with
  | declaration => exact .declaration hself
  | statement => exact .statement hself

theorem Yields.programBody :
    Parser.programBody.Yields fun p => ∀ s ∈ p.statements, s.Everywhere Stmt.Proper := by
  refine .bind (P := fun found => ∀ r ∈ found, ∀ s, r = some s → Regular .declaration s)
    (.collect (fun n => .skip fun b => ?_) 0) fun found hfound => .pure fun s hs => ?_
  · cases b with
    | true => exact .pure trivial
    | false => exact .bind (.recovering (.stmt .declaration)) fun r hr => .pure hr
  · obtain ⟨r, hr, rfl⟩ := List.mem_filterMap.mp hs
    exact (hfound _ hr s rfl).1

end Parser

/-! ## Programs -/

theorem Stmt.Proper.of_parse (h : (parse source tokens).program.Contains s) : s.Proper := by
  obtain ⟨top, htop, hs⟩ := h
  unfold parse at htop
  split at htop
  · next p t hp => exact Parser.Yields.programBody _ _ p t hp top htop s hs
  · exact absurd htop List.not_mem_nil

/-- In a program that was read from tokens, a statement that does not declare a name itself does not
declare one at all: a `while` has no declaration as its body. -/
theorem Stmt.Settled.of_parse (h : (parse source tokens).program.Contains s) : s.Settled := by
  obtain ⟨top, htop, hs⟩ := h
  exact .of_shaped fun t ht => (Stmt.Proper.of_parse ⟨top, htop, hs.trans ht⟩).1

/-- Every node of a program that was read from tokens has the shape that the precedence of operators
and the grammar of statements give it, whether or not there were errors. -/
theorem parsed_nodes_are_shaped (source : String) (tokens : List Token) :
    (∀ e, (parse source tokens).program.ContainsExpr e → e.Shaped) ∧
      (∀ p, (parse source tokens).program.ContainsPattern p → p.Shaped) ∧
      ∀ s, (parse source tokens).program.Contains s → s.Shaped := by
  have hexpr : ∀ e, (parse source tokens).program.ContainsExpr e → e.Proper := by
    rintro e ⟨s, hs, top, htop, he⟩
    exact (Stmt.Proper.of_parse hs).2 top htop e he
  refine ⟨fun e he => (hexpr e he).1, ?_, fun s hs => (Stmt.Proper.of_parse hs).1⟩
  rintro p ⟨e, he, top, htop, hp⟩
  exact (hexpr e he).2 top htop p hp

end TreeWalk
