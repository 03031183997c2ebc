import TreeWalk.Proofs.Parser.Respell

/-!
# The grammar in another spelling

The grammar in terms of `Respells`, one production after the other. Two productions do not go on as
before behind an infinite number: where it is a pattern of its own it is read as a name, and behind
`-` it cannot be read.
-/

namespace TreeWalk

namespace Respelling

variable (S : Respelling)

/-- Operators are marks, which are spelled in one way. -/
theorem unaryOp_kind (k : TokenKind) : UnaryOp.ofToken? (S.kind k) = UnaryOp.ofToken? k := by
  cases k with
  | number x => exact S.kind_number_eq rfl
  | _ => rfl

theorem binaryOp_kind (k : TokenKind) : BinaryOp.ofToken? (S.kind k) = BinaryOp.ofToken? k := by
  cases k with
  | number x => exact S.kind_number_eq rfl
  | _ => rfl

end Respelling

namespace Parser

variable {α β γ δ : Type}

def Suffix.isSpellable : Suffix → Bool
  | call args _ => args.all Expr.isSpellable
  | get _ => true

/-- What a suffix becomes in the spelling. -/
def Suffix.respelled (S : Respelling) : Suffix → Suffix
  | call args span => call (args.map S.expr) span
  | get n => get (S.ident n)

namespace Respells

variable {S : Respelling} {ok : α → Bool} {sp : α → β} {ok' : γ → Bool} {sp' : γ → δ}

/-! ## Patterns -/

/-- Behind `-` the pattern needs a number, so an infinite one is out of the question. -/
theorem negativeNumber :
    Respells S true Pattern.isSpellable S.pattern (Parser.negativeNumber default)
      (Parser.negativeNumber default) := by
  intro ks hks pat rest h
  cases ks with
  | nil => cases h
  | cons k ks =>
    cases k with
    | number x =>
      cases h
      refine ⟨ks, rfl, List.suffix_cons _ ks, ?_⟩
      have hsign : x.isNegative = false := (TokenKind.isUnsigned_number.mp hks.next).1
      rw [List.map_cons, if_pos rfl]
      rcases S.kind_number_cases x with ⟨hfinite, hkind⟩ | ⟨hfinite, hkind⟩
      · simp [hkind, Pattern.isSpellable, Literal.isSpellable, Respelling.pattern,
          Respelling.constantPattern, x.isFinite_neg, hfinite]
        rfl
      · simp [hkind, Pattern.isSpellable, Literal.isSpellable, x.isFinite_neg, hfinite,
          x.isNegative_neg, hsign]
        rfl
    | _ => cases h

section

variable {self self' : Parser Pattern}
  (h : Respells S true Pattern.isSpellable S.pattern self self')
include h

/-- The name is respelled before the pattern behind `@` is read. -/
theorem namedPattern (n : Ident) :
    Respells S true Pattern.isSpellable S.pattern (Parser.namedPattern self n)
      (Parser.namedPattern self' (S.ident n)) := by
  refine bind (behind rfl h) fun pat => ?_
  cases pat with
  | none => exact pure rfl rfl
  | some pat => exact pure rfl rfl

theorem parenPattern :
    Respells S true Pattern.isSpellable S.pattern (Parser.parenPattern self default)
      (Parser.parenPattern self' default) := by
  refine onKind rfl (pure rfl rfl) (bind h fun first => seq (eat rfl) fun more => ?_)
  cases more with
  | true =>
    refine bind (collect (fun _ => itemThen h) 1) fun rest => seq mark fun _ => pure ?_ ?_
    · exact Pattern.areSpellable_eq (first :: rest)
    · exact congrArg (Pattern.tuple · default) (S.patterns_eq_map (first :: rest))
  | false => exact seq mark fun _ => pure rfl rfl

omit h in
/-- A name that no `@` makes the name of a pattern. -/
theorem quiet_namedPattern (self : Parser Pattern) (n : Ident) (hk : nextKind ks ≠ .punct .atSign) :
    (Parser.namedPattern self n).quiet default (words ks) = some (.var n, words ks) := by
  simp [Parser.namedPattern, Parser.behind, quiet_onKind, hk]

/-- The next token chooses the same form in both spellings, unless it is an infinite number. -/
theorem patternForms (hfinite : ∀ x, k = .number x → x.isFinite = true) :
    Option.Rel (Respells S true Pattern.isSpellable S.pattern)
      (Parser.patternForms self ⟨k, default⟩) (Parser.patternForms self' ⟨S.kind k, default⟩) := by
  cases k with
  | punct m =>
    cases m with
    | underscore => exact .some (pure rfl rfl)
    | minus => exact .some negativeNumber
    | lparen => exact .some (parenPattern h)
    | lbracket =>
      refine .some (bind (closed h) fun ps => pure ?_ ?_)
      · exact Pattern.areSpellable_eq ps
      · exact congrArg (Pattern.vector · default) (S.patterns_eq_map ps)
    | _ => exact .none
  | keyword w =>
    cases w with
    | nil => exact .some (pure rfl rfl)
    | true_ => exact .some (pure rfl rfl)
    | false_ => exact .some (pure rfl rfl)
    | _ => exact .none
  | number x =>
    rw [S.kind_number (hfinite x rfl)]
    refine .some (pure ?_ ?_)
    · simp [Pattern.isSpellable, Literal.isSpellable, hfinite x rfl]
    · simp [Respelling.pattern, Respelling.constantPattern, hfinite x rfl]
  | str x => exact .some (pure rfl rfl)
  | ident n => exact .some (namedPattern h ⟨n, default⟩)
  | eof => exact .none

/-- An infinite number is read as the name `inf`, which is a pattern as well. -/
theorem patternStep :
    Respells S true Pattern.isSpellable S.pattern (Parser.patternStep self)
      (Parser.patternStep self') := by
  intro ks hks
  by_cases hfinite : ∀ x, nextKind ks = .number x → x.isFinite = true
  · exact branchOn (behindNext (patternForms h hfinite) hks) (fail ks hks)
  -- An infinite number is read as a name, which no `@` follows.
  cases ks with
  | nil => exact absurd (fun x hx => by cases hx) hfinite
  | cons k ks =>
    simp only [nextKind_cons, not_forall, Bool.not_eq_true] at hfinite
    obtain ⟨x, rfl, hfinite⟩ := hfinite
    have hsign : x.isNegative = false := (TokenKind.isUnsigned_number.mp hks.next).1
    have hnext : nextKind (ks.map S.kind) ≠ .punct .atSign := by
      cases ks with
      | nil => simp [nextKind]
      | cons k ks =>
        intro hat
        obtain rfl := S.kind_eq_punct.mp hat
        exact absurd (hks.finite x ks (List.suffix_refl _)) (by simp [hfinite])
    intro pat rest hp
    cases hp
    refine ⟨ks, rfl, List.suffix_cons _ ks, ?_⟩
    rw [List.map_cons, S.kind_infinite hfinite, if_pos rfl]
    refine (quiet_namedPattern self' ⟨S.infinity, default⟩ hnext).trans ?_
    simp [Pattern.isSpellable, Literal.isSpellable, hsign, Respelling.pattern,
      Respelling.constantPattern, hfinite]

end

theorem pattern : Respells S true Pattern.isSpellable S.pattern Parser.pattern Parser.pattern :=
  fix (fun _ _ h _ => patternStep (h ())) ()

/-! ## Expressions -/

/-- A chain is spellable if its first part and all later ones are. -/
theorem all_foldl {f : α → γ → α} (h : ∀ a c, ok (f a c) = (ok a && ok' c)) (a : α) (cs : List γ) :
    ok (cs.foldl f a) = (ok a && cs.all ok') := by
  induction cs generalizing a with
  | nil => exact (Bool.and_true _).symm
  | cons c cs ih => rw [List.foldl_cons, ih, h, List.all_cons, Bool.and_assoc]

/-- Chains are respelled part by part. -/
theorem map_foldl {f : α → γ → α} {g : β → δ → β} (h : ∀ a c, sp (f a c) = g (sp a) (sp' c)) (a : α)
    (cs : List γ) :
    sp (cs.foldl f a) = (cs.map sp').foldl g (sp a) := by
  rw [List.foldl_map]
  exact (List.foldl_hom sp fun a c => (h a c).symm).symm

section

variable {self self' : Parser Expr} (h : Respells S true Expr.isSpellable S.expr self self')
include h

theorem letForm :
    Respells S true Expr.isSpellable S.expr (Parser.letForm self default)
      (Parser.letForm self' default) := by
  refine seq ident fun n => seq mark fun _ => bind h fun definition => seq word fun _ =>
    bind h fun body => ?_
  exact pure rfl rfl

theorem ifForm :
    Respells S true Expr.isSpellable S.expr (Parser.ifForm self default)
      (Parser.ifForm self' default) := by
  refine bind h fun condition => seq word fun _ => bind h fun yes => seq word fun _ =>
    bind h fun no => ?_
  exact pure rfl rfl

theorem caseArm :
    Respells S true CaseArm.isSpellable S.arm (Parser.caseArm self) (Parser.caseArm self') := by
  refine bind pattern fun pat => bind (behind rfl h) fun guard => seq word fun _ =>
    bind h fun body => ?_
  cases guard with
  | none => exact pure (congrArg (· && body.isSpellable) (Bool.and_true pat.isSpellable).symm) rfl
  | some guard => exact pure rfl rfl

theorem caseForm :
    Respells S true Expr.isSpellable S.expr (Parser.caseForm self default)
      (Parser.caseForm self' default) := by
  refine bind h fun scrutinee => seq word fun _ =>
    bind (delimited (caseArm h)) fun arms => pure ?_ ?_
  · exact congrArg (scrutinee.isSpellable && ·) (CaseArm.areSpellable_eq arms)
  · exact congrArg (Expr.case (S.expr scrutinee) · default) (S.arms_eq_map arms)

omit h in
theorem superForm :
    Respells S true Expr.isSpellable S.expr (Parser.superForm default) (Parser.superForm default) :=
  seq mark fun _ => seq ident fun _ => pure rfl rfl

/-- What stands behind the first expression decides whether there is a tuple. -/
theorem parenRest (first : Expr) :
    Respells S (true && first.isSpellable) Expr.isSpellable S.expr
      (Parser.parenRest self default first) (Parser.parenRest self' default (S.expr first)) := by
  refine seq (eat rfl) fun more => ?_
  cases more with
  | true =>
    refine bind (commaList h 1) fun rest => seq mark fun _ => pure ?_ ?_
    · exact Expr.areSpellable_eq (first :: rest)
    · exact congrArg (Expr.tuple · default) (S.exprs_eq_map (first :: rest))
  | false => exact seq mark fun _ => pure rfl rfl

theorem parenForm :
    Respells S true Expr.isSpellable S.expr (Parser.parenForm self default)
      (Parser.parenForm self' default) :=
  onKind rfl (pure rfl rfl) (bind h fun first => parenRest h first)

/-- Primaries begin with the same tokens in both spellings. A number that is read as a name is a
primary too. -/
theorem primaryForms (hk : k.isUnsigned = true) :
    Option.Rel (Respells S true Expr.isSpellable S.expr) (Parser.primaryForms self ⟨k, default⟩)
      (Parser.primaryForms self' ⟨S.kind k, default⟩) := by
  cases k with
  | punct m =>
    cases m with
    | lparen => exact .some (parenForm h)
    | lbracket =>
      refine .some (bind (closed h) fun es => pure ?_ ?_)
      · exact Expr.areSpellable_eq es
      · exact congrArg (Expr.vector · default) (S.exprs_eq_map es)
    | _ => exact .none
  | keyword w =>
    cases w with
    | nil => exact .some (pure rfl rfl)
    | true_ => exact .some (pure rfl rfl)
    | false_ => exact .some (pure rfl rfl)
    | let_ => exact .some (letForm h)
    | do_ =>
      refine .some (bind (delimited h) fun es => pure ?_ ?_)
      · exact Expr.areSpellable_eq es
      · exact congrArg (Expr.seq · default) (S.exprs_eq_map es)
    | if_ => exact .some (ifForm h)
    | case => exact .some (caseForm h)
    | super => exact .some superForm
    | this => exact .some (pure rfl rfl)
    | _ => exact .none
  | number x =>
    have hsign : x.isNegative = false := (TokenKind.isUnsigned_number.mp hk).1
    rcases S.kind_number_cases x with ⟨hfinite, hkind⟩ | ⟨hfinite, hkind⟩
    · rw [hkind]
      exact .some (pure rfl (by simp [Respelling.expr, Respelling.constant, hfinite]))
    · rw [hkind]
      exact .some (pure rfl (by simp [Respelling.expr, Respelling.constant, hfinite, hsign]))
  | str x => exact .some (pure rfl rfl)
  | ident n => exact .some (pure rfl rfl)
  | eof => exact .none

theorem primary :
    Respells S true Expr.isSpellable S.expr (Parser.primary self) (Parser.primary self') :=
  branch (fun _ hk => primaryForms h hk) .fail

theorem arguments :
    Respells S true (fun es => es.all Expr.isSpellable) (List.map S.expr) (Parser.arguments self)
      (Parser.arguments self') := by
  refine bind (unlessAt rfl (commaList h 0)) fun args => seq mark fun _ => ?_
  cases args with
  | none => exact pure rfl rfl
  | some args => exact pure rfl rfl

/-- Calls and properties, one after the other. -/
theorem suffixStep :
    Respells S true (Item.all Suffix.isSpellable) (Item.map (Suffix.respelled S))
      (Parser.suffixStep self) (Parser.suffixStep self') := by
  refine branch (fun k _ => ?_) (pure rfl rfl)
  cases k with
  | punct m =>
    cases m with
    | lparen => exact .some (bind (arguments h) fun args => pure rfl rfl)
    | dot => exact .some (seq ident fun n => pure rfl rfl)
    | _ => exact .none
  | number x =>
    rcases S.kind_number_cases x with ⟨-, hkind⟩ | ⟨-, hkind⟩ <;> rw [hkind] <;> exact .none
  | _ => exact .none

theorem postfixed :
    Respells S true Expr.isSpellable S.expr (Parser.postfixed self) (Parser.postfixed self') := by
  refine bind (primary h) fun e => bind (collect (fun _ => suffixStep h) 0) fun suffixes =>
    pure ?_ ?_
  · refine all_foldl (fun e s => ?_) e suffixes
    cases s with
    | call args span => exact congrArg (e.isSpellable && ·) (Expr.areSpellable_eq args)
    | get n => exact (Bool.and_true _).symm
  · refine map_foldl (fun e s => ?_) e suffixes
    cases s with
    | call args span => exact congrArg (Expr.call (S.expr e) · span) (S.exprs_eq_map args)
    | get n => rfl

omit h in
theorem unaryOps :
    Respells S true (fun _ => true) (List.map id) Parser.unaryOps Parser.unaryOps := by
  have hstep : Respells S true (Item.all fun _ => true) (Item.map id)
    (Parser.branch unaryForms (return .none))
      (Parser.branch unaryForms (return .none)) := by
    refine branch (fun k _ => ?_) (pure rfl rfl)
    unfold unaryForms
    rw [S.unaryOp_kind]
    cases UnaryOp.ofToken? k with
    | none => exact .none
    | some op => exact .some (pure rfl rfl)
  exact always (collect (fun _ => hstep) 0) fun ops => by simp

/-- The operators in front are read first and put around the operand from the inside out. -/
theorem unary :
    Respells S true Expr.isSpellable S.expr (Parser.unary self) (Parser.unary self') := by
  refine seq unaryOps fun ops => bind (postfixed h) fun e => pure ?_ ?_
  · induction ops with
    | nil => rfl
    | cons op ops ih => exact ih
  · induction ops with
    | nil => rfl
    | cons op ops ih => exact congrArg (Expr.unary op.1 · op.2) ih

theorem chain (level : Nat) :
    Respells S true Expr.isSpellable S.expr (Parser.chain level self)
      (Parser.chain level self') := by
  have hstep : Respells S true (Item.all fun r : BinaryOp × Span × Expr => r.2.2.isSpellable)
      (Item.map fun r => (r.1, r.2.1, S.expr r.2.2)) (Parser.chainStep level self)
        (Parser.chainStep level self') := by
    refine branch (fun k _ => ?_) (pure rfl rfl)
    unfold chainForms
    rw [S.binaryOp_kind]
    cases BinaryOp.ofToken? k with
    | none => exact .none
    | some op =>
      dsimp only
      split
      · exact .some (bind h fun right => pure rfl rfl)
      · exact .none
  refine bind h fun first => bind (collect (fun _ => hstep) 0) fun rest => pure ?_ ?_
  · exact all_foldl (fun e r => rfl) first rest
  · exact map_foldl (fun e r => rfl) first rest

theorem infixed :
    Respells S true Expr.isSpellable S.expr (Parser.infixed self) (Parser.infixed self') := by
  unfold Parser.infixed
  induction List.range 6 with
  | nil => exact unary h
  | cons level levels ih => exact chain ih level

omit h in
/-- Whether a target can be assigned to does not depend on the spelling. -/
theorem assignTo (target value : Expr) :
    Respells S (true && target.isSpellable && value.isSpellable) Expr.isSpellable S.expr
      (Parser.assignTo target default value)
        (Parser.assignTo (S.expr target) default (S.expr value)) := by
  cases target with
  | var n => exact pure rfl rfl
  | get object n => exact pure rfl rfl
  | _ =>
    intro ks _ e rest hp
    cases hp

theorem assignment :
    Respells S true Expr.isSpellable S.expr (Parser.assignment self) (Parser.assignment self') := by
  exact bind (infixed h) fun left =>
    onKind rfl (bind h fun value => assignTo left value) (pure rfl rfl)

end

/-- The whole of expressions, as the fixed point of one step. -/
theorem expression : Respells S true Expr.isSpellable S.expr Parser.expression Parser.expression :=
  fix (fun _ _ h _ => assignment (h ())) ()

/-! ## Statements -/

/-- Statements that were given up are left out before anything is asked of the others. -/
theorem all_filterMap_id (as : List (Option α)) :
    (as.filterMap id).all ok = as.all (Option.all ok) := by
  induction as with
  | nil => rfl
  | cons a as ih =>
    cases a with
    | none => exact ih
    | some a => exact congrArg (ok a && ·) ih

theorem map_filterMap_id (as : List (Option α)) :
    (as.filterMap id).map sp = (as.map (Option.map sp)).filterMap id := by
  rw [List.map_filterMap, List.filterMap_map]
  rfl

section

variable {self self' : Level → Parser Stmt}
  (h : ∀ level, Respells S true Stmt.isSpellable S.stmt (self level) (self' level))
include h

theorem blockBody :
    Respells S true (fun ss => ss.all Stmt.isSpellable) (List.map S.stmt) (Parser.blockBody self)
      (Parser.blockBody self') :=
  bind (itemsUntil (recovering (h .declaration))) fun found => seq mark fun _ =>
    pure (all_filterMap_id found) (map_filterMap_id found)

theorem function :
    Respells S true FunctionDecl.isSpellable S.function (Parser.function self context)
      (Parser.function self' context) := by
  have hparams : Respells S true (fun _ => true) (Option.map (List.map S.ident))
      (Parser.unlessAt (.punct .rparen)
        (Parser.commaList .parameters (Parser.ident "parameter name") 0))
      (Parser.unlessAt (.punct .rparen)
          (Parser.commaList .parameters (Parser.ident "parameter name") 0)) :=
    always (unlessAt rfl (commaList ident 0)) fun params => by cases params <;> simp
  refine seq ident fun n => seq mark fun _ => seq hparams fun params => seq mark fun _ =>
    seq mark fun _ => ?_
  refine bind (blockBody h) fun body => pure (Stmt.areSpellable_eq body) ?_
  cases params with
  | none => exact congrArg (FunctionDecl.mk _ [] ·) (S.stmts_eq_map body)
  | some params => exact congrArg (FunctionDecl.mk _ (params.map S.ident) ·) (S.stmts_eq_map body)

theorem classDecl :
    Respells S true Stmt.isSpellable S.stmt (Parser.classDecl self) (Parser.classDecl self') := by
  have hsuperclass : Respells S true (fun _ => true) (Option.map S.ident)
      (Parser.behind (.punct .lt) (Parser.ident "superclass name after `<`"))
      (Parser.behind (.punct .lt) (Parser.ident "superclass name after `<`")) :=
    always (behind rfl ident) fun superclass => by cases superclass <;> rfl
  refine seq ident fun n => seq hsuperclass fun superclass => seq mark fun _ => ?_
  refine bind (itemsUntil (function h)) fun methods => seq mark fun _ => pure ?_ ?_
  · exact FunctionDecl.areSpellable_eq methods
  · exact congrArg (Stmt.classDecl (S.ident n) (superclass.map S.ident) ·)
      (S.functions_eq_map methods)

omit h in
theorem varDecl : Respells S true Stmt.isSpellable S.stmt Parser.varDecl Parser.varDecl :=
  seq ident fun _ => bind (behind rfl expression) fun _ => seq mark fun _ => pure rfl rfl

omit h in
/-- It may be missing, a declaration or an expression. -/
theorem forInitializer :
    Respells S true (Option.all Stmt.isSpellable)
      (Option.map S.stmt) Parser.forInitializer Parser.forInitializer := by
  refine onKind rfl (pure rfl rfl) (bind (onKind rfl varDecl ?_) fun s => pure rfl rfl)
  exact bind expression fun e => seq mark fun _ => pure rfl rfl

theorem forLoop :
    Respells S true Stmt.isSpellable S.stmt (Parser.forLoop self default)
      (Parser.forLoop self' default) := by
  refine seq mark fun _ => bind forInitializer fun initializer => ?_
  refine bind (unlessAt rfl expression) fun condition => seq mark fun _ => ?_
  refine bind (unlessAt rfl expression) fun increment => seq mark fun _ => ?_
  refine bind (h .statement) fun body => ?_
  cases initializer with
  | none => exact pure rfl rfl
  | some s => exact pure rfl rfl

omit h in
theorem returnValue :
    Respells S true (Option.all Expr.isSpellable)
      (Option.map S.expr) Parser.returnValue Parser.returnValue := by
  refine seq peek fun token => ?_
  dsimp only
  rw [S.beginsExpr_kind]
  split
  · exact bind expression fun e => pure rfl rfl
  · exact pure rfl rfl

/-- Statements begin with keywords and marks, which stay what they are. -/
theorem statementForms (k : TokenKind) :
    Option.Rel (Respells S true Stmt.isSpellable S.stmt) (Parser.statementForms self ⟨k, default⟩)
      (Parser.statementForms self' ⟨S.kind k, default⟩) := by
  cases k with
  | punct m =>
    cases m with
    | lbrace =>
      refine .some (bind (blockBody h) fun ss => pure ?_ ?_)
      · exact Stmt.areSpellable_eq ss
      · exact congrArg (Stmt.block · default) (S.stmts_eq_map ss)
    | _ => exact .none
  | keyword w =>
    cases w with
    | print => exact .some (bind expression fun e => seq (eat rfl) fun _ => pure rfl rfl)
    | return_ => exact .some (bind returnValue fun e => seq (eat rfl) fun _ => pure rfl rfl)
    | while_ =>
      exact .some (bind expression fun e => bind (h .statement) fun body => pure rfl rfl)
    | loop =>
      refine .some (seq mark fun _ => bind (blockBody h) fun ss => pure ?_ ?_)
      · exact Stmt.areSpellable_eq ss
      · exact congrArg (Stmt.forever · default) (S.stmts_eq_map ss)
    | for_ => exact .some (forLoop h)
    | _ => exact .none
  | number x =>
    rcases S.kind_number_cases x with ⟨-, hkind⟩ | ⟨-, hkind⟩ <;> rw [hkind] <;> exact .none
  | _ => exact .none

theorem statement :
    Respells S true Stmt.isSpellable S.stmt (Parser.statement self) (Parser.statement self') :=
  branch (fun k _ => statementForms h k)
    (bind expression fun _ => seq (eat rfl) fun _ => pure rfl rfl)

theorem declaration : Respells S true Stmt.isSpellable S.stmt (Parser.declaration self)
    (Parser.declaration self') := by
  refine branch (fun k _ => ?_) (statement h)
  cases k with
  | keyword w =>
    cases w with
    | class_ => exact .some (classDecl h)
    | fn => exact .some (bind (function h) fun f => pure rfl rfl)
    | var => exact .some varDecl
    | _ => exact .none
  | number x =>
    rcases S.kind_number_cases x with ⟨-, hkind⟩ | ⟨-, hkind⟩ <;> rw [hkind] <;> exact .none
  | _ => exact .none

end

/-- Statements and declarations, as the fixed point of one step. -/
theorem stmt (level : Level) :
    Respells S true Stmt.isSpellable S.stmt (Parser.stmt level) (Parser.stmt level) := by
  refine fix (fun self self' h level => ?_) level
  cases level with
  | declaration => exact declaration h
  | statement => exact statement h

/-- A program that is read from tokens is read from the respelled tokens, respelled, if it can be
spelled, and only then. -/
theorem programBody :
    Respells S true Program.isSpellable S.program Parser.programBody Parser.programBody := by
  refine bind (itemsToEnd (recovering (stmt .declaration))) fun found => pure ?_ ?_
  · exact all_filterMap_id found
  · exact congrArg Program.mk (map_filterMap_id found)

end Respells

end Parser

end TreeWalk
