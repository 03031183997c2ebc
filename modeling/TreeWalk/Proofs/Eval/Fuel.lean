import TreeWalk.Eval.Run

/-!
# More fuel

A computation is below another if it has the same outcome or none at all. With less fuel,
evaluating, executing and calling are below the same with more (`Eval.below_of_le`): fuel decides
whether there is an outcome, and never which.
-/

namespace TreeWalk.Eval

variable {α β : Type}

/-- Wherever the first computation has an outcome, it is that of the second. -/
def Below (act act' : Eval α) : Prop :=
  ∀ names m, act names m ≠ .exhausted → act' names m = act names m

namespace Below

/-! ## Sequences and frames -/

theorem refl (act : Eval α) : Below act act :=
  fun _ _ _ => rfl

/-- An outcome that is there goes through the middle computation. -/
theorem trans {act₁ act₂ act₃ : Eval α} (h : Below act₁ act₂) (h' : Below act₂ act₃) :
    Below act₁ act₃ := by
  intro names m hne
  have heq := h names m hne
  rw [← heq] at hne ⊢
  exact h' names m hne

/-- A computation that has run out of fuel is below all others. -/
theorem exhausted (act : Eval α) : Below Eval.exhausted act :=
  fun _ _ hne => absurd rfl hne

/-- If the first part has no outcome, the sequence has none. -/
theorem bind {act act' : Eval α} {next next' : α → Eval β} (h : Below act act')
    (hnext : ∀ a, Below (next a) (next' a)) :
    Below (act >>= next) (act' >>= next') := by
  intro names m hne
  simp only [Bind.bind] at hne ⊢
  cases hact : act names m with
  | ok a m₁ =>
    rw [hact] at hne
    rw [h names m (by simp [hact]), hact]
    exact hnext a names m₁ hne
  | fault e m₁ => rw [h names m (by simp [hact]), hact]
  | exhausted =>
    rw [hact] at hne
    exact absurd rfl hne

theorem backTo {o o' : Outcome α} (h : o ≠ .exhausted → o' = o)
    (hne : Eval.backTo here o ≠ .exhausted) :
    Eval.backTo here o' = Eval.backTo here o := by
  rw [h]
  rintro rfl
  exact hne rfl

/-- The frame is left in the same way by both. -/
theorem within {act act' : Eval α} (h : Below act act') (f : FrameId)
    (pairs : List (Symbol × Value)) :
    Below (Eval.within f pairs act) (Eval.within f pairs act') :=
  bind (.refl _) fun _ names _ hne => backTo (h names _) hne

theorem nested {act act' : Eval α} (h : Below act act') (pairs : List (Symbol × Value)) :
    Below (Eval.nested pairs act) (Eval.nested pairs act') :=
  fun names m hne => h.within m.current pairs names m hne

/-! ## Parts in order -/

section

variable {eval eval' : Expr → Eval Value} (hev : ∀ e, Below (eval e) (eval' e))
include hev

/-- By induction on the expressions, of which only those up to the first failure are evaluated. -/
theorem evaluateAll (es : List Expr) :
    Below (Eval.evaluateAll eval es) (Eval.evaluateAll eval' es) := by
  induction es with
  | nil => exact .refl _
  | cons e es ih => exact .bind (hev e) fun _ => .bind ih fun _ => .refl _

theorem evaluateLast (last : Value) (es : List Expr) :
    Below (Eval.evaluateLast eval last es) (Eval.evaluateLast eval' last es) := by
  induction es generalizing last with
  | nil => exact .refl _
  | cons e es ih => exact .bind (hev e) ih

theorem optional (e : Option Expr) : Below (Eval.optional eval e) (Eval.optional eval' e) := by
  cases e with
  | none => exact .refl _
  | some e => exact hev e

theorem holds (e : Expr) : Below (Eval.holds eval e) (Eval.holds eval' e) :=
  .bind (hev e) fun _ => .refl _

theorem holdsIfGiven (e : Option Expr) :
    Below (Eval.holdsIfGiven eval e) (Eval.holdsIfGiven eval' e) := by
  cases e with
  | none => exact .refl _
  | some e => exact holds hev e

theorem effect (e : Option Expr) : Below (Eval.effect eval e) (Eval.effect eval' e) :=
  .bind (optional hev e) fun _ => .refl _

/-- A guard is evaluated in the frame of its arm, and so is the value. -/
theorem armValue (arm : CaseArm) : Below (Eval.armValue eval arm) (Eval.armValue eval' arm) := by
  have hbody : Below (do return some (← eval arm.body)) (do return some (← eval' arm.body)) :=
    .bind (hev arm.body) fun _ => .refl _
  unfold Eval.armValue
  cases arm.guard with
  | none => exact hbody
  | some guard =>
    refine .bind (hev guard) fun v => ?_
    split
    · exact hbody
    · exact .refl _

/-- By induction on the arms, as both computations choose the same one. -/
theorem firstArm (v : Value) (span : Span) (arms : List CaseArm) :
    Below (Eval.firstArm eval v span arms) (Eval.firstArm eval' v span arms) := by
  induction arms with
  | nil => exact .refl _
  | cons arm arms ih =>
    refine .bind (.refl _) fun r => ?_
    obtain ⟨matched, bound⟩ := r
    cases matched with
    | false => exact ih
    | true =>
      refine .bind ((armValue hev arm).nested bound) fun r => ?_
      cases r with
      | none => exact ih
      | some w => exact .refl _

end

/-- Rounds take fuel as well, so here the fuel of the loop may differ too. -/
theorem repeatWhile {test test' : Eval Bool} {body body' : Eval Flow} {step step' : Eval Unit}
    (ht : Below test test') (hb : Below body body') (hs : Below step step') (hn : n ≤ n') :
    Below (Eval.repeatWhile test body step n) (Eval.repeatWhile test' body' step' n') := by
  induction n generalizing n' with
  | zero => exact .exhausted _
  | succ n ih =>
    cases n' with
    | zero => exact absurd hn (Nat.not_succ_le_zero n)
    | succ n' =>
      refine .bind ht fun b => ?_
      cases b with
      | false => exact .refl _
      | true =>
        refine .bind hb fun flow => ?_
        cases flow with
        | normal => exact .bind hs fun _ => ih (Nat.le_of_succ_le_succ hn)
        | returned v span => exact .refl _

section

variable {exec exec' : Stmt → Eval Flow} (hex : ∀ s, Below (exec s) (exec' s))
include hex

theorem executeAll (ss : List Stmt) :
    Below (Eval.executeAll exec ss) (Eval.executeAll exec' ss) := by
  induction ss with
  | nil => exact .refl _
  | cons s ss ih =>
    refine .bind (hex s) fun flow => ?_
    cases flow with
    | normal => exact ih
    | returned v span => exact .refl _

theorem prepare (s : Option Stmt) : Below (Eval.prepare exec s) (Eval.prepare exec' s) := by
  cases s with
  | none => exact .refl _
  | some s => exact .bind (hex s) fun _ => .refl _

/-! ## Calls -/

theorem invoke (c : Closure) (args : List Value) :
    Below (Eval.invoke exec c args) (Eval.invoke exec' c args) :=
  .bind (.refl _) fun _ => .bind ((executeAll hex c.decl.body).within _ _) fun _ => .refl _

/-- Making an object runs the initializer, if there is one. -/
theorem instantiate (k : ClassId) (args : List Value) (span : Span) :
    Below (Eval.instantiate exec k args span) (Eval.instantiate exec' k args span) := by
  refine .bind (.refl _) fun o => .bind (.refl _) fun shown => .bind (.refl _) fun found => ?_
  cases found with
  | none => exact .refl _
  | some c =>
    exact .bind (.refl _) fun _ => .bind (.refl _) fun ready =>
      .bind (invoke hex ready args) fun _ => .refl _

/-- The callee decides what runs, and it is the same value for both. -/
theorem callWith (callee : Value) (args : List Value) (span : Span) :
    Below (Eval.callWith exec callee args span) (Eval.callWith exec' callee args span) := by
  cases callee with
  | function f =>
    refine .bind (.refl _) fun found => ?_
    cases found with
    | none => exact .refl _
    | some c => exact .bind (.refl _) fun _ => invoke hex c args
  | class_ k => exact instantiate hex k args span
  | _ => exact .refl _

end

end Below

/-! ## Programs -/

/-- The three mutually recursive parts of a run are below the same with more fuel. -/
structure BelowWith (n n' : Nat) : Prop where
  evaluate : ∀ e, Below (evaluate n e) (evaluate n' e)
  execute : ∀ s, Below (execute n s) (execute n' s)
  call : ∀ callee args span, Below (call n callee args span) (call n' callee args span)

namespace BelowWith

variable {n n' : Nat} (ih : BelowWith n n')
include ih

/-- One more unit of fuel on both sides, for each kind of expression. -/
theorem evaluate_succ (e : Expr) : Below (Eval.evaluate (n + 1) e) (Eval.evaluate (n' + 1) e) := by
  have hev := ih.evaluate
  cases e with
  | literal | var | this | super => exact .refl _
  | grouping e => exact hev e
  | unary op e | assign x e | get e x => exact .bind (hev e) fun _ => .refl _
  | binary l op r =>
    refine .bind (hev l) fun v => ?_
    cases op.decided? v with
    | none => exact .bind (hev r) fun _ => .refl _
    | some w => exact .refl _
  | call e args =>
    exact .bind (hev e) fun f => .bind (.evaluateAll hev args) fun vs => ih.call f vs _
  | set e x d =>
    refine .bind (hev e) fun v => ?_
    cases v with
    | object o => exact .bind (hev d) fun _ => .refl _
    | _ => exact .refl _
  | letIn x d e => exact .bind (hev d) fun v => (hev e).nested _
  | seq es => exact (Below.evaluateLast hev .nil es).nested _
  | cond c d e =>
    refine .bind (hev c) fun v => ?_
    split
    · exact hev d
    · exact hev e
  | tuple es | vector es => exact .bind (.evaluateAll hev es) fun _ => .refl _
  | case e arms => exact .bind (hev e) fun v => .firstArm hev v _ arms

theorem execute_succ (hn : n ≤ n') (s : Stmt) :
    Below (Eval.execute (n + 1) s) (Eval.execute (n' + 1) s) := by
  have hev := ih.evaluate
  have hex := ih.execute
  cases s with
  | expr e => exact .bind (hev e) fun _ => .refl _
  | print e => exact .bind (hev e) fun _ => .refl _
  | varDecl x e | ret e => exact .bind (.optional hev e) fun _ => .refl _
  | block ss => exact (Below.executeAll hex ss).nested _
  | fnDecl | classDecl => exact .refl _
  | whileLoop c body => exact .repeatWhile (.holds hev c) (hex body) (.refl _) hn
  | forever ss => exact .repeatWhile (.refl _) ((Below.executeAll hex ss).nested _) (.refl _) hn
  | forLoop init c inc body =>
    refine Below.nested (.bind (.prepare hex init) fun _ => ?_) []
    exact .repeatWhile (.holdsIfGiven hev c) (hex body) (.effect hev inc) hn

end BelowWith

/-- With more fuel there is an outcome at least as often, and where there was one before it is the
same. -/
theorem below_of_le (hn : n ≤ n') : BelowWith n n' := by
  induction n generalizing n' with
  | zero => exact ⟨fun _ => .exhausted _, fun _ => .exhausted _, fun _ _ _ => .exhausted _⟩
  | succ n ih =>
    cases n' with
    | zero => exact absurd hn (Nat.not_succ_le_zero n)
    | succ n' =>
      have hn := Nat.le_of_succ_le_succ hn
      have ih := ih hn
      exact ⟨ih.evaluate_succ, ih.execute_succ hn, fun callee args span =>
        .callWith ih.execute callee args span⟩

end TreeWalk.Eval
