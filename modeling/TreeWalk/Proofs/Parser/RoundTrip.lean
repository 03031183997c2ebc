import TreeWalk.Proofs.Parser.Replay
import TreeWalk.Proofs.Parser.Yields

/-!
# Reading the words of a tree

The grammar in terms of `Replays`, one production after the other: whatever a production reads is
read again, as the same tree, from the words of that tree. The relations between next tokens say
where layout may differ from what was read. A pattern loses its parentheses, `()` becomes `nil`, and
a missing `;` is put in.
-/

namespace TreeWalk

namespace Parser

/-! ## Next tokens -/

/-- A token with which a pattern can start. -/
def beginsPattern : TokenKind → Bool
  | .punct .underscore | .punct .minus | .punct .lparen | .punct .lbracket => true
  | .keyword .nil | .keyword .true_ | .keyword .false_ => true
  | .number _ | .str _ | .ident _ => true
  | _ => false

/-- In front of anything but `@`. -/
def NotAt : Follow := fun _ k' => k' ≠ .punct .atSign

/-- The words start with a token that can start a pattern. -/
def PatternStart : Follow := fun _ k' => beginsPattern k' = true

theorem PatternStart.ne (h : PatternStart k k') (hm : beginsPattern m = false) : k' ≠ m := by
  rintro rfl
  cases h.symm.trans hm

/-- The same token, or one that ends any expression. -/
def Fits : Follow := fun k k' => k' = k ∨ goesOn k' = false

theorem Fits.rfl : Fits k k := .inl (Eq.refl k)

/-- A token with which an expression could go on has not been put in. -/
theorem Fits.eq_of_goesOn (h : Fits k k') (hk : goesOn k' = true) : k' = k :=
  h.resolve_right (by simp [hk])

theorem Starts.fits (h : Starts k k') : Fits k k' :=
  h.elim .inl fun h => .inr (by rw [h.2]; rfl)

/-- The words start where an expression starts. -/
def ExprStart : Follow := fun k k' => Starts k k' ∧ k'.beginsExpr = true

theorem ExprStart.ne (h : ExprStart k k') (hm : m.beginsExpr = false) : k' ≠ m := by
  rintro rfl
  cases h.2.symm.trans hm

/-- The words of what follows a primary form. -/
def Suffix.words : Suffix → List TokenKind
  | .call args _ =>
    .punct .lparen :: (joinWords (.punct .comma) (args.map Expr.words) ++ [.punct .rparen])
  | .get name => [.punct .dot, .ident name.name]

/-- Suffixes are printed behind the expression in the order in which they were read. -/
theorem words_applySuffixes (e : Expr) (suffixes : List Suffix) :
    (suffixes.foldl Suffix.apply e).words = e.words ++ suffixes.flatMap Suffix.words := by
  induction suffixes generalizing e with
  | nil => simp
  | cons suffix suffixes ih =>
    rw [List.foldl_cons, ih, List.flatMap_cons]
    cases suffix <;> simp [Suffix.apply, Suffix.words]

theorem words_applyUnary (ops : List (UnaryOp × Span)) (e : Expr) :
    (ops.foldr (fun (op, span) e => Expr.unary op e span) e).words
      = (ops.flatMap fun (op, _) => [.punct op.mark]) ++ e.words := by
  induction ops with
  | nil => rfl
  | cons op ops ih => rw [List.foldr_cons, Expr.words_unary, ih]; rfl

/-- A chain to the left is printed without parentheses. -/
theorem words_applyChain (e : Expr) (rest : List (BinaryOp × Span × Expr)) :
    (rest.foldl (fun left (op, span, right) => Expr.binary left op right span) e).words
      = e.words ++ rest.flatMap fun (op, _, right) => op.token :: right.words := by
  induction rest generalizing e with
  | nil => simp
  | cons link rest ih => rw [List.foldl_cons, ih]; simp

namespace Replays

variable {V : Vocabulary} {A B C : Follow}

/-! ## Patterns -/

/-- The unit is printed as `()`, whichever way it was written. -/
theorem unitPattern {self : Parser Pattern} :
    Replays V A PatternStart (Pure.pure (.unit default)) (Parser.patternStep self) fun p w =>
      w = p.words := by
  intro ks p rest hks hp
  cases hp
  refine ⟨ks, [.punct .lparen, .punct .rparen], rfl, List.suffix_refl ks,
    rfl, by simp [V.punct], ?_⟩
  intro ks' _ _
  refine ⟨rfl, ?_⟩
  simp [Parser.patternStep, quiet_branch, Parser.patternForms, Parser.parenPattern, Parser.onKind]
  rfl

theorem negativeNumber {self : Parser Pattern} :
    Replays V A PatternStart (Parser.negativeNumber default) (Parser.patternStep self)
      fun p w => w = p.words := by
  refine token (B := PatternStart) (U := fun p w => .punct .minus :: w = Pattern.words p)
    (W := fun p w => w = Pattern.words p) (V.punct .minus) rfl rfl
    (branch_as (B := fun _ _ => True) rfl (fun k q hk hq => ?_) .fail) fun p w h => h
  cases k with
  | number x =>
    cases hq
    obtain ⟨hpos, hnum⟩ := V.unsigned x hk
    have hneg : x.neg.isNegative = true := by rw [x.isNegative_neg, hpos]; rfl
    refine token (B := fun _ _ => True)
      (U := fun p w => p = .literal (.number x.neg) default ∧ w = []) hk rfl
      trivial (.pure ⟨rfl, rfl⟩) ?_
    rintro p w ⟨rfl, rfl⟩
    simp [Pattern.words_literal, Layout.literal, hneg, x.isNaN_neg, hnum, Number.abs, x.neg_neg]
  | _ => cases hq

/-- A pattern in parentheses stands for itself. -/
theorem groupedPattern {self r : Parser Pattern}
    (h : Replays V NotAt PatternStart self r fun p w => w = p.words) :
    Replays V NotAt PatternStart (do
        let first ← self
        let _ ← Parser.mark .rparen "after pattern"
        return first) r fun p w => w = p.words := by
  intro ks p rest hks hp
  rw [quiet_bind, Option.bind_eq_some_iff] at hp
  obtain ⟨⟨first, mid⟩, hfirst, hp⟩ := hp
  obtain ⟨ks₁, w, rfl, hsuf, hw, hhas, hagain⟩ := h ks first mid hks hfirst
  dsimp only at hp
  rw [quiet_bind, quiet_mark, next_words] at hp
  split at hp
  · next hnext =>
    cases ks₁ with
    | nil => cases hnext
    | cons k ks₁ =>
      cases hp
      exact ⟨ks₁, w, rfl, (List.suffix_cons k ks₁).trans hsuf, hw, hhas, hagain⟩
  · cases hp

section

variable {self self' : Parser Pattern}
  (h : Replays V NotAt PatternStart self self' fun p w => w = p.words)
include h

/-- Behind a name there is either an `@` or the end of the pattern. -/
theorem namedPattern (name : Symbol) :
    Replays V NotAt (fun _ _ => True) (Parser.namedPattern self ⟨name, default⟩)
      (Parser.namedPattern self' ⟨name, default⟩) fun p w => .ident name :: w = p.words := by
  refine .bind (behind (B := fun _ _ => True) (by simp) h trivial fun _ _ hne =>
    ⟨trivial, fun heq => absurd heq hne⟩) fun inner w hw => ?_
  cases inner with
  | none => exact .pure (by rw [hw]; rfl)
  | some inner =>
    obtain ⟨w', rfl, rfl⟩ := hw
    exact .pure (by simp)

/-- With a comma behind the first pattern. -/
theorem tuplePatternRest (first : Pattern) :
    Replays V A NotAt (do
        if ← Parser.eat (.punct .comma) then
          let rest ← Parser.collect (fun _ => Parser.itemThen .comma self) 1
          let _ ← Parser.mark .rparen "after tuple pattern"
          return .tuple (first :: rest) default
        else
          stuck) (Parser.parenPatternRest self' default first)
      fun p w => .punct .lparen :: (first.words ++ w) = p.words := by
  refine .bind (A := PatternStart) (eat (by simp) (by simp [NotAt]) fun k k' hk =>
    ⟨hk.ne rfl, fun heq => absurd heq (hk.ne rfl)⟩) fun more w hw => ?_
  cases more with
  | false => exact .fail
  | true =>
    refine .bind (commaItems (C := fun _ k' => k' = .punct .rparen) ?_ ?_ h (by simp [NotAt]) 1)
      fun rest w' hw' => .bind (mark rfl) fun _ w'' hw'' => .pure ?_
    · rintro _ _ rfl
      simp [NotAt]
    · exact fun k k' hk => ⟨hk.ne rfl, fun heq => absurd heq (hk.ne rfl)⟩
    · obtain ⟨hne, hw'⟩ := hw'
      simp [hw, hw', hw'', joinWords_cons, hne]

/-- A tuple of two or more. -/
theorem tuplePattern :
    Replays V A PatternStart (do
        let first ← self
        if ← Parser.eat (.punct .comma) then
          let rest ← Parser.collect (fun _ => Parser.itemThen .comma self) 1
          let _ ← Parser.mark .rparen "after tuple pattern"
          return .tuple (first :: rest) default
        else
          stuck) (Parser.patternStep self') fun p w => w = p.words := by
  refine token (B := PatternStart) (U := fun p w => .punct .lparen :: w = Pattern.words p)
    (W := fun p w => w = Pattern.words p) (V.punct .lparen) rfl rfl
    (otherwiseOn (.bind h fun first w hw => ?_) fun k k' hk => hk.ne rfl) fun p w h => h
  subst hw
  exact tuplePatternRest h first

theorem parenPattern
    (hstep : Replays V NotAt PatternStart self (Parser.patternStep self') fun p w => w = p.words) :
    Replays V NotAt PatternStart (Parser.parenPattern self default) (Parser.patternStep self')
      fun p w => w = p.words := by
  refine onKind_as (by simp) (fun _ => unitPattern) fun ks p rest hks hp => ?_
  rw [quiet_bind, Option.bind_eq_some_iff] at hp
  obtain ⟨⟨first, mid⟩, hfirst, hp⟩ := hp
  dsimp only [parenPatternRest] at hp
  rw [quiet_bind, quiet_eat, Option.bind_some] at hp
  -- What follows the first pattern decides whether the parentheses stay.
  by_cases hcomma : (Context.next default mid).kind = .punct .comma
  · rw [if_pos hcomma] at hp
    exact tuplePattern h ks p rest hks (by simpa [hfirst, quiet_eat, hcomma] using hp)
  · rw [if_neg hcomma] at hp
    exact groupedPattern hstep ks p rest hks (by simpa [hfirst] using hp)

/-- The first token of the printed pattern chooses the form again. -/
theorem patternStep
    (hstep : Replays V NotAt PatternStart self (Parser.patternStep self') fun p w =>
      w = p.words) :
    Replays V NotAt PatternStart (Parser.patternStep self) (Parser.patternStep self') fun p w =>
      w = p.words := by
  refine branch_as rfl (fun k q hk hq => ?_) .fail
  have hpure : ∀ p, Parser.patternForms self' ⟨k, default⟩ = some (Pure.pure p) → PatternStart k k →
      Pattern.words p = [k] → Replays V NotAt PatternStart (Pure.pure p) (Parser.patternStep self')
      fun p w => w = p.words := by
    intro p hform hstart hwords
    refine token (B := PatternStart) (U := fun p' w => p' = p ∧ w = []) hk hform hstart
      (.pure ⟨rfl, rfl⟩) ?_
    rintro _ _ ⟨rfl, rfl⟩
    exact hwords.symm
  cases k with
  | punct m =>
    cases m with
    | underscore => cases hq; exact hpure _ rfl rfl rfl
    | minus => cases hq; exact negativeNumber
    | lparen => cases hq; exact parenPattern h hstep
    | lbracket =>
      cases hq
      refine token (B := PatternStart) (U := fun p w => .punct .lbracket :: w = Pattern.words p) hk
        rfl rfl (.bind (closed h (fun _ => by simp [NotAt]) (by simp [NotAt]) (by simp)
          fun k k' hk heq => absurd heq (hk.ne rfl)) fun elements w hw => .pure ?_) fun p w h => h
      rw [hw, List.append_nil, Pattern.words_vector]
    | _ => cases hq
  | keyword word =>
    cases word with
    | nil => cases hq; exact unitPattern
    | true_ => cases hq; exact hpure _ rfl rfl rfl
    | false_ => cases hq; exact hpure _ rfl rfl rfl
    | _ => cases hq
  | ident name =>
    cases hq
    exact token (B := PatternStart) hk rfl rfl (namedPattern h name) fun p w h => h
  | number x =>
    cases hq
    exact hpure _ rfl rfl (by simp [Pattern.words_literal, Layout.literal, V.unsigned x hk])
  | str contents => cases hq; exact hpure _ rfl rfl rfl
  | eof => cases hq

end

/-- Patterns are read from what they are printed as. -/
theorem pattern :
    Replays V NotAt PatternStart Parser.pattern Parser.pattern fun p w => w = p.words := by
  have hbare : ∀ p q, Pattern.Linked .bare p q → q = p.bare := fun _ _ h => h.eq_bare
  have hlike : ∀ n (self self' : Unit → Parser Pattern),
      (∀ j, Alike (.bare default) n 1 (Pattern.Linked .bare) (self j) (self' j)) → ∀ _ : Unit,
        Alike (.bare default) (n + 1) 1 (Pattern.Linked .bare) (Parser.patternStep (self ()))
          (Parser.patternStep (self' ())) :=
    fun _ _ _ hself _ => (hself ()).patternStep
  refine fix (A := fun _ => NotAt) (B := fun _ => PatternStart)
    (W := fun _ p w => w = Pattern.words p) hbare hlike
    (fun self hself _ => ?_) ()
  exact patternStep (hself ())
    ((hself ()).congr_right fun ks => (quiet_fix_unfold hbare hlike ks ()).symm)

/-! ## Expressions -/

theorem superForm :
    Replays V A (fun _ _ => True) (Parser.superForm default) (Parser.superForm default)
      fun e w => .keyword .super :: w = e.words := by
  refine .bind (A := fun _ _ => True) (mark trivial) fun _ w hw =>
    .bind (ident fun _ => trivial) fun name w' hw' => .pure ?_
  simp [hw, hw']

section

variable {self self' : Parser Expr} (h : Replays V Fits ExprStart self self' fun e w => w = e.words)
include h

theorem letForm :
    Replays V Fits (fun _ _ => True) (Parser.letForm self default) (Parser.letForm self' default)
      fun e w => .keyword .let_ :: w = e.words := by
  refine .bind (A := fun _ _ => True) (ident fun _ => trivial) fun name w₁ h₁ =>
    .bind (mark trivial) fun _ w₂ h₂ =>
    .bind h fun definition w₃ h₃ =>
    .bind (word .rfl) fun _ w₄ h₄ =>
    .bind h fun body w₅ h₅ => .pure ?_
  simp [h₁, h₂, h₃, h₄, h₅]

/-- The two branches are read up to the same ends. -/
theorem ifForm :
    Replays V Fits (fun _ _ => True) (Parser.ifForm self default) (Parser.ifForm self' default)
      fun e w => .keyword .if_ :: w = e.words := by
  refine (Replays.bind h fun condition w₁ h₁ =>
    .bind (word .rfl) fun _ w₂ h₂ =>
    .bind h fun yes w₃ h₃ =>
    .bind (word .rfl) fun _ w₄ h₄ =>
    .bind h fun no w₅ h₅ => .pure ?_).post fun _ _ _ => trivial
  simp [h₁, h₂, h₃, h₄, h₅]

/-- An arm ends in front of the comma or the brace behind it. -/
theorem caseArm :
    Replays V Fits PatternStart (Parser.caseArm self) (Parser.caseArm self') fun a w =>
      w = a.words := by
  refine .bind pattern fun p w₁ h₁ => ?_
  refine .bind
    (behind (A := fun _ k' => k' = .keyword .then_) (by simp) (h.pre ?_) (by simp [NotAt]) ?_)
    fun guard w₂ h₂ => ?_
  · rintro _ _ rfl
    exact .inr rfl
  · rintro _ _ rfl
    simp [NotAt]
  · refine .bind (word rfl) fun _ w₃ h₃ => .bind h fun body w₄ h₄ => .pure ?_
    cases guard with
    | none => simp [h₁, show w₂ = [] from h₂, h₃, h₄]
    | some guard =>
      obtain ⟨w, rfl, rfl⟩ := h₂
      simp [h₁, h₃, h₄]

theorem caseForm :
    Replays V A (fun _ _ => True) (Parser.caseForm self default) (Parser.caseForm self' default)
      fun e w => .keyword .case :: w = e.words := by
  refine (Replays.bind h fun scrutinee w₁ h₁ =>
    .bind (word .rfl) fun _ w₂ h₂ =>
    .bind (delimited (caseArm h) (fun _ => .inr rfl) .rfl (by simp)
      (fun k k' hk heq => absurd heq (hk.ne rfl))
      Fits.rfl) fun arms w₃ h₃ => .pure ?_).post fun _ _ _ => trivial
  simp [h₁, h₂, h₃]

/-- Expressions with commas between them. -/
theorem commaExprs (n : Nat) :
    Replays V (fun k k' => k' = k) Starts (Parser.commaList kind self n)
      (Parser.commaList kind self' n)
      fun es w => es ≠ [] ∧ w = joinWords (.punct .comma) (es.map Expr.words) := by
  refine (commaList ?_ ?_ h .rfl n).post fun _ _ h => h.1
  · rintro k _ rfl
    exact ⟨.rfl, id⟩
  · exact fun k k' hk => ⟨hk.1.fits, fun heq => hk.1.back heq (by simp)⟩

/-- One expression in parentheses is a group, and more are a tuple. -/
theorem parenRest (first : Expr) :
    Replays V A Fits (Parser.parenRest self default first) (Parser.parenRest self' default first)
      fun e w => .punct .lparen :: (first.words ++ w) = e.words := by
  refine .bind (A := Starts)
    (eat (by simp) .rfl fun k k' hk => ⟨hk.fits, fun heq => hk.back heq (by simp)⟩)
    fun more w hw => ?_
  cases more with
  | true =>
    refine .bind (commaExprs h 1) fun rest w' hw' =>
      .bind (mark rfl) fun _ w'' hw'' => .pure ?_
    obtain ⟨hne, hw'⟩ := hw'
    simp [hw, hw', hw'', joinWords_cons, hne]
  | false =>
    refine .bind (mark (.inl rfl)) fun _ w' hw' => .pure ?_
    simp [hw, hw']

omit h in
/-- `()` becomes `nil`. -/
theorem unitExpr :
    Replays V A (fun _ k' => ExprStart (.punct .lparen) k') (Pure.pure (.literal .nil default))
      (Parser.primary self') fun e w => w = e.words := by
  intro ks e rest hks hp
  cases hp
  refine ⟨ks, [.keyword .nil], rfl, List.suffix_refl ks, rfl, by simp [V.keyword], ?_⟩
  exact fun ks' _ _ => ⟨⟨.inr ⟨rfl, rfl⟩, rfl⟩, rfl⟩

theorem parenForm :
    Replays V A (fun _ k' => ExprStart (.punct .lparen) k') (Parser.parenForm self default)
      (Parser.primary self') fun e w => w = e.words := by
  refine onKind_as (by simp) (fun _ => unitExpr) ?_
  refine token (B := ExprStart) (U := fun e w => .punct .lparen :: w = Expr.words e)
    (V.punct .lparen) rfl ⟨.inl rfl, rfl⟩
    (otherwiseOn (.bind h fun first w hw => ?_) fun k k' hk => hk.ne rfl) fun e w h => h
  subst hw
  exact parenRest h first

/-- The first token of the printed expression chooses the form again. -/
theorem primary :
    Replays V Fits ExprStart (Parser.primary self) (Parser.primary self') fun e w =>
      w = e.words := by
  refine branch_as rfl (fun k q hk hq => ?_) .fail
  have hpure : ∀ e, Parser.primaryForms self' ⟨k, default⟩ = some (Pure.pure e) →
      k.beginsExpr = true → Expr.words e = [k] →
      Replays V Fits (fun _ k' => ExprStart k k') (Pure.pure e) (Parser.primary self')
        fun e w => w = e.words := by
    intro e hform hbegins hwords
    refine token (U := fun e' w => e' = e ∧ w = []) hk hform ⟨.inl rfl, hbegins⟩
      (.pure ⟨rfl, rfl⟩) ?_
    rintro _ _ ⟨rfl, rfl⟩
    exact hwords.symm
  have hform : ∀ p r, Parser.primaryForms self' ⟨k, default⟩ = some r → k.beginsExpr = true →
      Replays V Fits (fun _ _ => True) p r (fun e w => k :: w = e.words) →
      Replays V Fits (fun _ k' => ExprStart k k') p (Parser.primary self') fun e w => w = e.words :=
    fun p r hform hbegins hp => token hk hform ⟨.inl rfl, hbegins⟩ hp fun _ _ h => h
  cases k with
  | punct m =>
    cases m with
    | lbracket =>
      cases hq
      refine hform _ _ rfl rfl (.bind (closed h (fun _ => .inr rfl) .rfl (by simp)
        fun k k' hk heq => absurd heq (hk.ne rfl)) fun elements w hw => .pure ?_)
      simp [hw]
    | lparen => cases hq; exact parenForm h
    | _ => cases hq
  | keyword word =>
    cases word with
    | nil | true_ | false_ | this => cases hq; exact hpure _ rfl rfl rfl
    | let_ => cases hq; exact hform _ _ rfl rfl (letForm h)
    | if_ => cases hq; exact hform _ _ rfl rfl (ifForm h)
    | case => cases hq; exact hform _ _ rfl rfl (caseForm h)
    | super => cases hq; exact hform _ _ rfl rfl superForm
    | do_ =>
      cases hq
      refine hform _ _ rfl rfl (.bind (delimited h (fun _ => .inr rfl) .rfl (by simp)
        (fun k k' hk heq => absurd heq (hk.ne rfl)) trivial) fun body w hw => .pure ?_)
      simp [hw]
    | _ => cases hq
  | ident name => cases hq; exact hpure _ rfl rfl rfl
  | number x =>
    cases hq; exact hpure _ rfl rfl (by simp [Expr.words_literal, Layout.literal, V.unsigned x hk])
  | str contents => cases hq; exact hpure _ rfl rfl rfl
  | eof => cases hq

theorem arguments :
    Replays V A (fun _ _ => True) (Parser.arguments self) (Parser.arguments self')
      fun args w => w = joinWords (.punct .comma) (args.map Expr.words) ++ [.punct .rparen] := by
  refine (Replays.bind (unlessAt (commaExprs h 0) (fun _ => rfl) (.inl rfl) fun k k' hk heq =>
    hk.back heq (by simp)) fun args w hw => .bind (mark rfl) fun _ w' hw' =>
      .pure ?_).post fun _ _ _ => trivial
  cases args with
  | none => simp [show w = [] from hw, hw', joinWords]
  | some args => simp [hw.2, hw']

/-- A call or a property. -/
theorem suffixStep :
    Replays V Fits Fits (Parser.suffixStep self) (Parser.suffixStep self')
      (Listed fun s w => w = s.words) := by
  refine branch rfl (fun k q hk hq => ?_) (.pure rfl) fun k k' hk hnone => ?_
  · cases k with
    | punct m =>
      cases m with
      | lparen =>
        cases hq
        refine token (U := fun i w =>
            Listed (fun s w => w = Suffix.words s) i (.punct .lparen :: w)) hk rfl .rfl
          (.bind (arguments h) fun args w hw => .pure ?_) fun i w h => h
        simp [Listed, Suffix.words, hw]
      | dot =>
        cases hq
        refine token (C := fun _ _ => True)
          (U := fun i w => Listed (fun s w => w = Suffix.words s) i (.punct .dot :: w)) hk rfl .rfl
          (.bind (ident fun _ => trivial) fun name w hw => .pure ?_) fun i w h => h
        simp [Listed, Suffix.words, hw]
      | _ => cases hq
    | _ => cases hq
  · cases k' with
    | punct m =>
      cases m with
      | lparen | dot =>
        obtain rfl := hk.eq_of_goesOn rfl
        cases hnone
      | _ => rfl
    | _ => rfl

theorem postfixed :
    Replays V Fits ExprStart (Parser.postfixed self) (Parser.postfixed self') fun e w =>
      w = e.words := by
  refine .bind (primary h) fun e w hw =>
    .bind (collect (fun _ => suffixStep h) (fun _ _ h => h) ?_ 0)
    fun suffixes w' hw' => .pure ?_
  · exact fun _ _ h => h.2
  · rw [hw, flatMap_of_items hw', words_applySuffixes, List.append_nil]

end

/-- Operators in front are read as long as there are some. -/
theorem unaryOps :
    Replays V ExprStart ExprStart Parser.unaryOps Parser.unaryOps
      fun ops w => w = ops.flatMap fun (op, _) => [.punct op.mark] := by
  have hstep : Replays V ExprStart ExprStart (Parser.branch Parser.unaryForms (return .none))
      (Parser.branch Parser.unaryForms (return .none))
      (Listed fun (op : UnaryOp × Span) w => w = [.punct op.1.mark]) := by
    refine branch rfl (fun k q hk hq => ?_) (.pure rfl) fun k k' hk hnone => ?_
    · obtain ⟨op, hop, rfl⟩ := Option.map_eq_some_iff.mp hq
      obtain rfl := UnaryOp.ofToken?_eq_some_iff.mp hop
      have hbegins : (TokenKind.punct op.mark).beginsExpr = true := by cases op <;> rfl
      refine token (U := fun i w => i = .more (op, default) ∧ w = []) hk
        (by rw [Parser.unaryForms, hop]; rfl) ⟨.inl rfl, hbegins⟩ (.pure ⟨rfl, rfl⟩) ?_
      rintro _ _ ⟨rfl, rfl⟩
      simp [Listed]
    · rcases hk.1 with rfl | ⟨-, rfl⟩
      · exact hnone
      · rfl
  exact (collect (fun _ => hstep) (fun _ _ h => h) (fun _ _ h => h.2) 0).mono (fun _ _ h => h)
    (fun _ _ h => h)
    fun _ _ h => flatMap_of_items h

/-- A chain of one level ends in front of an operator of another. -/
theorem chain {operand operand' : Parser Expr}
    (h : Replays V Fits ExprStart operand operand' fun e w => w = e.words) :
    Replays V Fits ExprStart (Parser.chain level operand) (Parser.chain level operand')
      fun e w => w = e.words := by
  have hstep : Replays V Fits Fits (Parser.chainStep level operand)
    (Parser.chainStep level operand')
      (Listed fun (link : BinaryOp × Span × Expr) w => w = link.1.token :: link.2.2.words) := by
    refine branch rfl (fun k q hk hq => ?_) (.pure rfl) fun k k' hk hnone => ?_
    · simp only [Parser.chainForms] at hq
      split at hq
      · next op hop =>
        split at hq
        · next hlevel =>
          cases hq
          obtain rfl := BinaryOp.ofToken?_eq_some_iff.mp hop
          refine token (U := fun i w =>
            Listed (fun link w => w = link.1.token :: Expr.words link.2.2) i
            (op.token :: w)) hk (by simp only [Parser.chainForms, hop, hlevel, if_true]) .rfl
            (.bind h fun right w hw => .pure ?_) fun i w h => h
          simp [Listed, hw]
        · cases hq
      · cases hq
    · rcases hk with rfl | hends
      · simp only [Parser.chainForms] at hnone ⊢
        cases hop : BinaryOp.ofToken? k' with
        | none => rfl
        | some op =>
          rw [hop] at hnone
          dsimp only at hnone ⊢
          split at hnone
          · cases hnone
          · next hlevel => rw [if_neg hlevel]
      · simp only [Parser.chainForms, ofToken?_of_goesOn hends]
  refine .bind h fun first w hw =>
    .bind (collect (fun _ => hstep) (fun _ _ h => h) (fun _ _ h => h.2) 0)
    fun rest w' hw' => .pure ?_
  rw [hw, flatMap_of_items hw', words_applyChain, List.append_nil]

section

variable {self self' : Parser Expr} (h : Replays V Fits ExprStart self self' fun e w => w = e.words)
include h

theorem unary :
    Replays V Fits ExprStart (Parser.unary self) (Parser.unary self') fun e w => w = e.words := by
  refine .bind unaryOps fun ops w hw =>
    .bind (postfixed h) fun operand w' hw' => .pure ?_
  rw [hw, hw', words_applyUnary, List.append_nil]

theorem infixed :
    Replays V Fits ExprStart (Parser.infixed self) (Parser.infixed self') fun e w =>
      w = e.words := by
  unfold Parser.infixed
  induction List.range 6 with
  | nil => exact unary h
  | cons level levels ih => exact chain ih

omit h in
/-- What can be assigned to is printed as it was read. -/
theorem assignTo (target value : Expr) :
    Replays V A A (Parser.assignTo target default value) (Parser.assignTo target default value)
      fun e w => target.words ++ .punct .eq :: (value.words ++ w) = e.words := by
  cases target with
  | var name => exact .pure (by simp)
  | get object name => exact .pure (by simp)
  | _ => exact fun _ _ _ _ hp => nomatch hp

theorem assignment :
    Replays V Fits ExprStart (Parser.assignment self) (Parser.assignment self') fun e w =>
      w = e.words := by
  refine .bind (infixed h) fun left w hw => ?_
  refine onKind (by simp) (fun hhas => ?_) (.pure (by simpa using hw)) fun k k' hk heq => ?_
  · refine tokenOn hhas .rfl (.bind h fun value w' hw' => ?_) fun _ _ h => h
    subst hw hw'
    exact (assignTo left value).mono (fun _ _ h => h) (fun _ _ h => h) fun e w h => by simpa using h
  · obtain rfl := hk.eq_of_goesOn (by rw [heq]; rfl)
    exact heq

end

/-- Expressions are read from what they are printed as. -/
theorem expression :
    Replays V Fits ExprStart Parser.expression Parser.expression fun e w => w = e.words :=
  fix (R := Expr.Linked .bare) (A := fun _ => Fits) (B := fun _ => ExprStart)
    (W := fun _ e w => w = Expr.words e)
    (fun _ _ h => h.eq_bare) (fun _ _ _ hself _ => (hself ()).assignment)
      (fun _ hself _ => assignment (hself ())) ()

/-! ## Statements -/

/-- With or without a value. -/
theorem varDecl :
    Replays V A (fun _ _ => True) Parser.varDecl Parser.varDecl fun s w =>
      .keyword .var :: w = s.words := by
  refine .bind (A := fun _ _ => True) (ident fun _ => trivial) fun name w₁ h₁ =>
    .bind
      (behind (A := fun _ k' => k' = .punct .semicolon) (by simp) (expression.pre ?_) trivial ?_)
    fun initializer w₂ h₂ => .bind (mark rfl) fun _ w₃ h₃ => .pure ?_
  · rintro _ _ rfl
    exact .inr rfl
  · rintro _ _ rfl
    exact ⟨trivial, fun heq => nomatch heq⟩
  · cases initializer with
    | none => simp [h₁, show w₂ = [] from h₂, h₃]
    | some e =>
      obtain ⟨w, rfl, rfl⟩ := h₂
      simp [h₁, h₃]

theorem forInitializer :
    Replays V A Starts Parser.forInitializer Parser.forInitializer
      fun s w => w = s.elim [.punct .semicolon] Stmt.words := by
  refine onKind (by simp) (fun hhas => ?_) (.bind (W := fun s w => w = s.words) ?_ fun s w hw =>
    .pure (by simpa using hw)) fun k k' hk heq => hk.back heq (by simp)
  · refine tokenOn (U := fun s w => s = none ∧ w = []) hhas (.inl rfl) (.pure ⟨rfl, rfl⟩) ?_
    rintro _ _ ⟨rfl, rfl⟩
    rfl
  · refine onKind (by simp) (fun hhas => ?_) ?_ fun k k' hk heq => hk.back heq (by simp)
    · exact tokenOn hhas (.inl rfl) varDecl fun _ _ h => h
    · refine .bind (expression.post fun _ _ h => h.1) fun e w hw =>
        .bind (mark .rfl) fun _ w' hw' => .pure ?_
      simp [hw, hw']

/-- A value is read in front of `;` only if one was read before. -/
theorem returnValue :
    Replays V (fun _ k' => k' = .punct .semicolon)
      (fun _ _ => True) Parser.returnValue Parser.returnValue
      (Given fun e w => w = e.words) := by
  intro ks value rest hks hp
  simp only [Parser.returnValue, quiet_bind, quiet_peek, next_words, Option.bind_some] at hp
  cases hbegins : (nextKind ks).beginsExpr with
  | true =>
    simp only [hbegins, if_true, quiet_bind] at hp
    obtain ⟨⟨e, mid⟩, he, hvalue⟩ := Option.bind_eq_some_iff.mp hp
    cases hvalue
    obtain ⟨ks₁, w, hrest, hsuf, hw, hhas, hagain⟩ := expression ks e _ hks he
    refine ⟨ks₁, w, hrest, hsuf, hw, hhas, fun ks' hks' hnext => ?_⟩
    obtain ⟨hstart, hr⟩ := hagain ks' hks' (.inr (by rw [hnext]; rfl))
    exact ⟨trivial, by simp [Parser.returnValue, hstart.2, hr]⟩
  | false =>
    simp only [hbegins, Bool.false_eq_true, if_false, quiet_pure] at hp
    cases hp
    refine ⟨ks, [], rfl, List.suffix_refl ks, rfl, fun _ hk => absurd hk List.not_mem_nil, ?_⟩
    intro ks' _ hnext
    exact ⟨trivial, by simp [Parser.returnValue, hnext, TokenKind.beginsExpr]⟩

theorem exprStatement :
    Replays V A Starts Parser.exprStatement Parser.exprStatement fun s w => w = s.words := by
  refine .bind (expression.post fun _ _ h => h.1) fun e w hw => optionalMark (fun _ => .inr rfl) ?_
  rw [hw, Stmt.words_expr]

/-- The same token. -/
def Same : Follow := fun k k' => k' = k

theorem parameters :
    Replays V Same Same
      (Parser.unlessAt (.punct .rparen)
        (Parser.commaList .parameters (Parser.ident "parameter name") 0))
      (Parser.unlessAt (.punct .rparen)
        (Parser.commaList .parameters (Parser.ident "parameter name") 0))
      (Given fun params w => params ≠ [] ∧
        w = joinWords (.punct .comma) (params.map fun param => [.ident param.name])) := by
  have hsame : ∀ k k', Same k k' → Same k k' ∧ (k' = .punct .comma → k = .punct .comma) :=
    fun k k' h => ⟨h, fun heq => h.symm.trans heq⟩
  refine unlessAt (A := Same) (B := Same)
    (commaList (A := Same) hsame hsame (ident fun _ => rfl) rfl 0)
    (fun _ => rfl) rfl fun k k' h heq => h.symm.trans heq

/-- Which tokens start a statement does not depend on how its parts are read. -/
theorem isSome_statementForms (self self' : Level → Parser Stmt) (k : TokenKind) :
    (Parser.statementForms self ⟨k, default⟩).isSome =
      (Parser.statementForms self' ⟨k, default⟩).isSome := by
  cases k with
  | punct m => cases m <;> rfl
  | keyword word => cases word <;> rfl
  | _ => rfl

theorem isSome_declarationForms (self self' : Level → Parser Stmt) (k : TokenKind) :
    (Parser.declarationForms self ⟨k, default⟩).isSome =
      (Parser.declarationForms self' ⟨k, default⟩).isSome := by
  cases k with
  | keyword word =>
    cases word with
    -- `rfl` would first compare the two parsers
    | class_ | fn | var => exact Option.isSome_some.trans Option.isSome_some.symm
    | _ => rfl
  | _ => rfl

theorem flatMap_found (found : List (Option Stmt)) :
    (found.flatMap fun s => s.elim [] Stmt.words) = (found.filterMap id).flatMap Stmt.words := by
  induction found with
  | nil => rfl
  | cons s found ih =>
    rw [List.flatMap_cons, ih]
    cases s <;> rfl

section

variable {self self' : Level → Parser Stmt}
  (h : ∀ l, Replays V (fun _ _ => True) Starts (self l) (self' l) fun s w => w = s.words)
include h

/-- Without errors every statement of a block is found. -/
theorem found :
    Replays V (fun _ _ => True) Starts (Parser.recovering (self .declaration))
      (Parser.recovering (self' .declaration)) fun s w => w = s.elim [] Stmt.words ∧ w ≠ [] := by
  refine (recovering (h .declaration)).mono (fun _ _ h => h) (fun _ _ h => h) ?_
  rintro _ _ ⟨s, rfl, rfl⟩
  exact ⟨rfl, s.words_ne_nil⟩

theorem blockBody :
    Replays V A Starts (Parser.blockBody self) (Parser.blockBody self')
      fun ss w => w = ss.flatMap Stmt.words ++ [.punct .rbrace] := by
  refine .bind (itemsUntil (found h) (fun _ _ _ => trivial) (by simp)) fun statements w hw =>
    .bind (mark (.inl rfl)) fun _ w' hw' => .pure ?_
  rw [hw, hw', flatMap_found, List.append_nil]

/-- Parameters and body of a function or a method. -/
theorem function :
    Replays V A Starts (Parser.function self context) (Parser.function self' context) fun f w =>
      w = f.words := by
  refine .bind (A := fun _ _ => True) (ident fun _ => .inl rfl) fun name w₁ h₁ =>
    .bind (mark trivial) fun _ w₂ h₂ =>
    .bind parameters fun params w₃ h₃ =>
    .bind (A := Starts) (mark rfl) fun _ w₄ h₄ =>
    .bind (A := Starts) (mark (.inl rfl)) fun _ w₅ h₅ =>
    .bind (blockBody h) fun body w₆ h₆ => .pure ?_
  cases params with
  | none => simp [h₁, h₂, show w₃ = [] from h₃, h₄, h₅, h₆, joinWords]
  | some params => simp [h₁, h₂, h₃.2, h₄, h₅, h₆]

theorem classDecl :
    Replays V A (fun _ _ => True) (Parser.classDecl self) (Parser.classDecl self')
      fun s w => .keyword .class_ :: w = s.words := by
  have hmethod : Replays V Starts Starts (Parser.function self "method name")
    (Parser.function self' "method name")
      fun f w => w = f.words ∧ w ≠ [] := by
    refine (function h).mono (fun _ _ h => h) (fun _ _ h => h) ?_
    rintro f _ rfl
    exact ⟨rfl, f.words_ne_nil⟩
  refine .bind (A := fun _ _ => True) (ident fun _ => trivial) fun name w₁ h₁ =>
    .bind (behind (A := Same) (D := Same) (by simp) (ident fun _ => rfl) trivial fun k k' h =>
      ⟨trivial, fun heq => h.symm.trans heq⟩) fun superclass w₂ h₂ =>
    .bind (A := Starts) (mark rfl) fun _ w₃ h₃ =>
    .bind (itemsUntil hmethod (fun _ _ h => h) (by simp)) fun methods w₄ h₄ =>
    .bind (mark (.inl rfl)) fun _ w₅ h₅ =>
    .pure ?_
  cases superclass with
  | none => simp [h₁, show w₂ = [] from h₂, h₃, h₄, h₅]
  | some superclass =>
    obtain ⟨w, rfl, rfl⟩ := h₂
    simp [h₁, h₃, h₄, h₅]

theorem forLoop :
    Replays V (fun _ _ => True) (fun _ _ => True) (Parser.forLoop self default)
      (Parser.forLoop self' default)
      fun s w => .keyword .for_ :: w = s.words := by
  have hclause : ∀ m : Punct, m ≠ .lparen →
    Replays V Same Starts (Parser.unlessAt (.punct m) Parser.expression)
      (Parser.unlessAt (.punct m) Parser.expression) (Given fun e w => w = e.words) := by
    intro m hm
    refine unlessAt (expression.post fun _ _ h => h.1) (fun _ => .rfl) (.inl rfl)
      fun k k' h heq => ?_
    exact h.back heq (by simp)
  have helim : ∀ (e : Option Expr) w, Given (fun e w => w = e.words) e w →
      w = e.elim [] Expr.words := by
    intro e w hw
    cases e <;> exact hw
  refine .bind (A := Starts) (mark trivial) fun _ w₁ h₁ =>
    .bind (A := Starts) forInitializer fun initializer w₂ h₂ =>
    .bind (hclause .semicolon (by simp)) fun condition w₃ h₃ =>
    .bind (A := Starts) (mark rfl) fun _ w₄ h₄ =>
    .bind (hclause .rparen (by simp)) fun increment w₅ h₅ =>
    .bind (A := Starts) (mark rfl) fun _ w₆ h₆ =>
    .bind (h .statement) fun body w₇ h₇ => .pure ?_
  simp [h₁, h₂, helim _ _ h₃, h₄, helim _ _ h₅, h₆, h₇]

/-- One case for each keyword that a statement starts with. -/
theorem statement :
    Replays V (fun _ _ => True) Starts (Parser.statement self) (Parser.statement self')
      fun s w => w = s.words := by
  refine branch rfl (fun k q hk hq => ?_) exprStatement fun k k' hk hnone => ?_
  · have hform : ∀ p r, Parser.statementForms self' ⟨k, default⟩ = some r →
        Replays V (fun _ _ => True) (fun _ _ => True) p r (fun s w => k :: w = s.words) →
        Replays V (fun _ _ => True) (fun _ k' => Starts k k') p (Parser.statement self') fun s w =>
          w = s.words :=
      fun p r hform hp => token hk hform (.inl rfl) hp fun _ _ h => h
    cases k with
    | punct m =>
      cases m with
      | lbrace =>
        cases hq
        refine hform _ _ rfl
          ((Replays.bind (blockBody h) fun ss w hw => .pure ?_).post fun _ _ _ => trivial)
        simp [hw]
      | _ => cases hq
    | keyword word =>
      cases word with
      | print =>
        cases hq
        refine hform _ _ rfl ((Replays.bind expression fun e w hw =>
          optionalMark (fun _ => .inr rfl) ?_).post fun _ _ _ => trivial)
        simp [hw]
      | return_ =>
        cases hq
        refine hform _ _ rfl (.bind returnValue fun value w hw => optionalMark (fun _ => rfl) ?_)
        cases value with
        | none => simp [show w = [] from hw]
        | some e => simp [show w = e.words from hw]
      | while_ =>
        cases hq
        refine hform _ _ rfl ((Replays.bind expression fun condition w hw =>
          .bind ((h .statement).post fun _ _ h => h.fits) fun body w' hw' =>
            .pure ?_).post fun _ _ _ => trivial)
        simp [hw, hw']
      | loop =>
        cases hq
        refine hform _ _ rfl (.bind (mark trivial) fun _ w hw =>
          .bind (blockBody h) fun body w' hw' => .pure ?_)
        simp [hw, hw']
      | for_ => cases hq; exact hform _ _ rfl (forLoop h)
      | _ => cases hq
    | _ => cases hq
  · rcases hk with rfl | ⟨-, rfl⟩
    · rw [← Option.not_isSome_iff_eq_none] at hnone ⊢
      rwa [isSome_statementForms self' self]
    · rfl

theorem declaration :
    Replays V (fun _ _ => True) Starts (Parser.declaration self) (Parser.declaration self')
      fun s w => w = s.words := by
  refine branch rfl (fun k q hk hq => ?_) (statement h) fun k k' hk hnone => ?_
  · have hform : ∀ p r, Parser.declarationForms self' ⟨k, default⟩ = some r →
        Replays V (fun _ _ => True) (fun _ _ => True) p r (fun s w => k :: w = s.words) →
        Replays V (fun _ _ => True) (fun _ k' => Starts k k') p (Parser.declaration self')
          fun s w => w = s.words :=
      fun p r hform hp => token hk hform (.inl rfl) hp fun _ _ h => h
    cases k with
    | keyword word =>
      cases word with
      | class_ => cases hq; exact hform _ _ rfl (classDecl h)
      | fn =>
        cases hq
        refine hform _ _ rfl
          ((Replays.bind (function h) fun f w hw => .pure ?_).post fun _ _ _ => trivial)
        simp [hw]
      | var => cases hq; exact hform _ _ rfl varDecl
      | _ => cases hq
    | _ => cases hq
  · rcases hk with rfl | ⟨-, rfl⟩
    · rw [← Option.not_isSome_iff_eq_none] at hnone ⊢
      rwa [isSome_declarationForms self' self]
    · rfl

theorem stmtStep (l : Level) :
    Replays V (fun _ _ => True) Starts (Parser.stmtStep self l) (Parser.stmtStep self' l)
      fun s w => w = s.words := by
  cases l with
  | declaration => exact declaration h
  | statement => exact statement h

end

/-- Statements are read from what they are printed as, by induction on the tokens ahead. -/
theorem stmt (l : Level) :
    Replays V (fun _ _ => True) Starts (Parser.stmt l) (Parser.stmt l) fun s w => w = s.words :=
  fix (R := Stmt.Linked .bare) (A := fun _ _ _ => True) (B := fun _ => Starts)
    (W := fun _ s w => w = Stmt.words s)
    (fun _ _ h => h.eq_bare) (fun _ _ _ h l => Alike.stmtStep h l) (fun _ h l => stmtStep h l) l

/-- Programs are read from what they are printed as. -/
theorem programBody :
    Replays V Starts Starts Parser.programBody Parser.programBody
      fun p w => w = p.statements.flatMap Stmt.words := by
  refine .bind (collect (fun _ => listStep (b := (· == .eof)) (fun ks _ => ?_) ?_ (found stmt)
    fun _ _ _ => trivial) (fun _ _ h => h) (fun _ _ h => h.2) 0) fun statements w hw => .pure ?_
  · rw [quiet_check, next_words]
  · rintro k k' (rfl | ⟨rfl, rfl⟩) <;> rfl
  · rw [flatMap_of_items hw, flatMap_found, List.append_nil]

end Replays

/-- A program is read to the end of the input. -/
theorem programBody_rest (h : programBody.quiet cx ts = some (p, rest)) :
    (cx.next rest).kind = .eof := by
  rw [programBody, quiet_bind] at h
  obtain ⟨⟨found, mid⟩, hfound, hp⟩ := Option.bind_eq_some_iff.mp h
  cases hp
  refine quiet_collect_rest (P := fun rest => (cx.next rest).kind = .eof) ?_ ?_ hfound
  · intro n ts rest hstep
    rw [quiet_bind, quiet_check, Option.bind_some] at hstep
    dsimp only at hstep
    split at hstep
    · next heof => cases hstep; exact eq_of_beq heof
    · rw [quiet_bind] at hstep
      obtain ⟨_, _, hitem⟩ := Option.bind_eq_some_iff.mp hstep
      cases hitem
  · intro n ts a rest hstep
    rw [quiet_bind, quiet_check, Option.bind_some] at hstep
    dsimp only at hstep
    split at hstep
    · cases hstep
    · rw [quiet_bind] at hstep
      obtain ⟨_, _, hitem⟩ := Option.bind_eq_some_iff.mp hstep
      cases hitem

/-- A program that was read is read again from its words. -/
theorem quiet_programBody_words {V : Vocabulary} (hks : ∀ k ∈ ks, V.Has k)
    (h : programBody.quiet default (words ks) = some (p, rest)) :
    (∀ k ∈ p.statements.flatMap Stmt.words, V.Has k) ∧
      programBody.quiet default (words (p.statements.flatMap Stmt.words)) = some (p, []) := by
  obtain ⟨ks₁, w, rfl, -, rfl, hhas, hagain⟩ := Replays.programBody ks p rest hks h
  have hrest := programBody_rest h
  rw [next_words] at hrest
  obtain ⟨-, hp⟩ := hagain [] (fun _ hk => absurd hk List.not_mem_nil) (.inl hrest.symm)
  rw [List.append_nil] at hp
  exact ⟨hhas, hp⟩

end Parser

end TreeWalk
