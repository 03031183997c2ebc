import TreeWalk.Proofs.Parser.Alike

/-!
# The last token of an expression

No expression ends with `;`. The mark stands inside expressions too, between the parts of a `do`,
but these are closed by a brace. `Parser.Unclosed c p` says that what `p` reads without errors is
the front of the input and, where `c` holds, does not end with `;`. It has a rule for each
combinator.
-/

namespace TreeWalk.Parser

variable {α β : Type}

/-- The tokens end with `;`. -/
def EndsClosed (ts : List Token) : Prop :=
  (ts.map Token.kind).getLast? = some (.punct .semicolon)

theorem not_endsClosed_nil : ¬ EndsClosed [] :=
  nofun

/-- Only the last token counts. -/
theorem endsClosed_append (h : us ≠ []) : EndsClosed (ts ++ us) ↔ EndsClosed us := by
  rw [EndsClosed, List.map_append, List.getLast?_append_of_ne_nil _ (by simpa using h)]
  rfl

theorem endsClosed_singleton : EndsClosed [t] ↔ t.kind = .punct .semicolon := by
  simp [EndsClosed]

/-- Two stretches of which none ends with the mark, and either may be empty. -/
theorem not_endsClosed_append (h : ¬ EndsClosed ts) (h' : ¬ EndsClosed us) :
    ¬ EndsClosed (ts ++ us) := by
  by_cases hus : us = []
  · rwa [hus, List.append_nil]
  · rwa [endsClosed_append hus]

/-- What the parser reads without errors is the front of the input and, where `c` holds, does not
end with `;`. -/
def Unclosed (c : Prop) (p : Parser α) : Prop :=
  ∀ cx ts a rest, p.quiet cx ts = some (a, rest) → ∃ front, ts = front ++ rest ∧
    (c → ¬ EndsClosed front)

namespace Unclosed

variable {c c' : Prop} {p q : Parser α} {f : α → Parser β}

theorem mono (h : Unclosed c p) (hc : c' → c) : Unclosed c' p := by
  intro cx ts a rest hp
  obtain ⟨front, hts, hfront⟩ := h cx ts a rest hp
  exact ⟨front, hts, fun h => hfront (hc h)⟩

/-- An input that is read to its end is all that was read. -/
theorem not_endsClosed (h : Unclosed True p) (hp : p.quiet cx ts = some (a, [])) :
    ¬ EndsClosed ts := by
  obtain ⟨front, hts, hfront⟩ := h cx ts a [] hp
  rw [hts, List.append_nil]
  exact hfront trivial

/-! ## Sequences -/

/-- A parser that only looks at the tokens. -/
theorem look (h : ∀ cx ts a rest, p.quiet cx ts = some (a, rest) → rest = ts) : Unclosed c p :=
  fun cx ts a rest hp => ⟨[], (h cx ts a rest hp).symm, fun _ => not_endsClosed_nil⟩

theorem pure (a : α) : Unclosed c (Pure.pure a) :=
  look fun _ _ _ _ hp => by cases hp; rfl

theorem fail {e : String → Span → ParseError} : Unclosed c (failHere e : Parser α) :=
  fun _ _ _ _ hp => by cases hp

/-- If the second part reads nothing, the last token is one of the first. -/
theorem bind (hp : Unclosed c p) (hf : ∀ a, Unclosed c (f a)) : Unclosed c (p >>= f) := by
  intro cx ts b rest h
  rw [quiet_bind, Option.bind_eq_some_iff] at h
  obtain ⟨⟨a, mid⟩, ha, hb⟩ := h
  obtain ⟨front, rfl, hfront⟩ := hp cx ts a mid ha
  obtain ⟨front', rfl, hfront'⟩ := hf a cx mid b rest hb
  exact ⟨front ++ front', by simp, fun hc => not_endsClosed_append (hfront hc) (hfront' hc)⟩

/-- It does not matter how the input ends in front of a mark other than `;`. -/
theorem before {g : α → Token → Parser β} (hp : Unclosed False p) (hm : m ≠ .semicolon)
    (hg : ∀ a t, Unclosed c (g a t)) :
    Unclosed c (p >>= fun a => Parser.mark m context >>= g a) := by
  intro cx ts b rest h
  rw [quiet_bind, Option.bind_eq_some_iff] at h
  obtain ⟨⟨a, mid⟩, ha, hb⟩ := h
  obtain ⟨front, rfl, -⟩ := hp cx ts a mid ha
  dsimp only at hb
  rw [quiet_bind, quiet_mark] at hb
  cases mid with
  | nil => cases hb
  | cons t mid =>
    rw [next_cons] at hb
    split at hb
    · next hk =>
      obtain ⟨front', rfl, hfront'⟩ := hg a t cx mid b rest hb
      have hmark : ¬ EndsClosed [t] := by
        rw [endsClosed_singleton, hk]
        simpa using hm
      refine ⟨front ++ ([t] ++ front'), by simp, fun hc => ?_⟩
      rw [endsClosed_append (by simp)]
      exact not_endsClosed_append hmark (hfront' hc)
    · cases hb

/-! ## Single tokens -/

/-- The token that chooses a form is read with it, so it must not be the mark itself. The end of the
input chooses none. -/
theorem branch {forms : Token → Option (Parser α)} (heof : ∀ span, forms ⟨.eof, span⟩ = none)
    (hforms : ∀ t q, forms t = some q → (c → t.kind ≠ .punct .semicolon) ∧ Unclosed c q)
    (hp : Unclosed c p) :
    Unclosed c (Parser.branch forms p) := by
  intro cx ts a rest h
  rw [quiet_branch] at h
  cases ts with
  | nil =>
    rw [show forms (cx.next []) = none from heof _] at h
    exact hp cx [] a rest h
  | cons t ts =>
    rw [next_cons] at h
    cases hform : forms t with
    | none =>
      rw [hform] at h
      exact hp cx (t :: ts) a rest h
    | some q =>
      rw [hform] at h
      obtain ⟨ht, hq⟩ := hforms t q hform
      obtain ⟨front, rfl, hfront⟩ := hq cx ts a rest h
      refine ⟨[t] ++ front, rfl, fun hc => not_endsClosed_append ?_ (hfront hc)⟩
      exact endsClosed_singleton.not.mpr (ht hc)

theorem onKind {g : Token → Parser α} (heof : kind ≠ .eof) (hk : c → kind ≠ .punct .semicolon)
    (hg : ∀ t, Unclosed c (g t)) (hp : Unclosed c p) : Unclosed c (Parser.onKind kind g p) := by
  refine branch (fun span => ?_) (fun t q hq => ?_) hp
  · simp [Ne.symm heof]
  · split at hq
    · next heq => cases hq; exact ⟨fun hc => eq_of_beq heq ▸ hk hc, hg t⟩
    · cases hq

/-- A token that has to be there is the last one read. -/
theorem expect (heof : kind ≠ .eof) (hk : kind ≠ .punct .semicolon) :
    Unclosed c (Parser.expect kind context) :=
  onKind heof (fun _ => hk) (fun t => .pure t) .fail

theorem mark (hm : m ≠ .semicolon) : Unclosed c (Parser.mark m context) :=
  expect (by simp) (by simpa using hm)

theorem word : Unclosed c (Parser.word k context) :=
  expect (by simp) (by simp)

theorem ident : Unclosed c (Parser.ident context) := by
  refine branch (fun _ => rfl) (fun t q hq => ?_) .fail
  unfold identForms at hq
  split at hq
  · next hk => cases hq; exact ⟨fun _ => by simp [hk], .pure _⟩
  · cases hq

theorem eat (heof : kind ≠ .eof) (hk : c → kind ≠ .punct .semicolon) :
    Unclosed c (Parser.eat kind) :=
  onKind heof hk (fun _ => .pure true) (.pure false)

theorem check : Unclosed c (Parser.check kind) :=
  look fun _ _ _ _ hp => by cases hp; rfl

theorem ends (close : Punct) : Unclosed c (Parser.ends close) :=
  look fun _ _ _ _ hp => by cases hp; rfl

theorem report : Unclosed c (Parser.report e) :=
  fun _ _ _ _ hp => by cases hp

/-! ## Repetition -/

/-- By induction on the number of tokens that are left. -/
theorem collect {step : Nat → Parser (Item α)} (h : ∀ k, Unclosed c (step k)) (k : Nat) :
    Unclosed c (Parser.collect step k) := by
  intro cx ts as rest hp
  induction hm : ts.length using Nat.strongRecOn generalizing ts as k with
  | ind m ih =>
    rw [quiet_collect] at hp
    split at hp
    · cases hp
    · next hstep => cases hp; exact h k cx ts _ rest hstep
    · next hstep => cases hp; exact h k cx ts _ rest hstep
    · next a mid hstep =>
      split at hp
      · next hlt =>
        obtain ⟨⟨as', rest'⟩, hmore, heq⟩ := Option.map_eq_some_iff.mp hp
        cases heq
        obtain ⟨front, hts, hfront⟩ := h k cx ts _ mid hstep
        obtain ⟨front', hmid, hfront'⟩ := ih mid.length (hm ▸ hlt) (k + 1) mid as' hmore rfl
        refine ⟨front ++ front', ?_, fun hc => not_endsClosed_append (hfront hc) (hfront' hc)⟩
        rw [hts, hmid, List.append_assoc]
      · cases hp

/-- A recursive parser has the property if one unfolding keeps it. -/
theorem fix {ι : Type} {step : (ι → Parser α) → ι → Parser α}
    (h : ∀ self, (∀ j, Unclosed c (self j)) → ∀ i, Unclosed c (step self i)) (i : ι) :
    Unclosed c (Parser.fix step i) := by
  intro cx ts a rest hp
  induction hm : ts.length using Nat.strongRecOn generalizing ts a rest i cx with
  | ind m ih =>
    subst hm
    -- Inside, the parser is called on inputs shorter than this one.
    have hself : ∀ j, Unclosed c (Parser.below ts.length (Parser.fix step j)) := by
      intro j cx us b left hb
      by_cases hlt : us.length < ts.length
      · rw [quiet_below hlt] at hb
        exact ih us.length hlt j cx us b left hb rfl
      · rw [quiet, Parser.below, if_neg hlt] at hb
        cases hb
    rw [quiet_fix] at hp
    exact h _ hself i cx ts a rest hp

/-! ## Lists -/

theorem limit : Unclosed c (Parser.limit kind k) :=
  look fun _ _ _ _ hp => by
    rw [quiet_limit] at hp
    split at hp
    · cases hp
    · cases hp; rfl

/-- A separator may be the last token that is read. -/
theorem itemThen (h : Unclosed c p) (hsep : c → sep ≠ .semicolon) :
    Unclosed c (Parser.itemThen sep p) :=
  .bind h fun _ => .bind (.eat (by simp) fun hc => by simpa using hsep hc) fun _ => .pure _

theorem commaList (h : Unclosed c p) : Unclosed c (Parser.commaList kind p k) :=
  collect (fun _ => .bind .limit fun _ => h.itemThen fun _ => by simp) k

/-- Items may end in any way, since the closing mark comes behind them. -/
theorem closed (h : Unclosed False p) (hclose : close ≠ .semicolon) :
    Unclosed c (Parser.closed sep close context p) := by
  refine before (collect (fun _ => .bind (.ends close) fun b => ?_) 0) hclose fun _ _ => .pure _
  cases b with
  | true => exact .pure _
  | false => exact h.itemThen False.elim

theorem delimited (h : Unclosed False p) (hopening : opening ≠ .semicolon)
    (hclose : close ≠ .semicolon) :
    Unclosed c (Parser.delimited opening sep close context p) :=
  .bind (.mark hopening) fun _ => h.closed hclose

theorem unlessAt (h : Unclosed c p) : Unclosed c (Parser.unlessAt kind p) := by
  refine .bind .check fun b => ?_
  cases b with
  | true => exact .pure _
  | false => exact .bind h fun _ => .pure _

theorem behind (h : Unclosed c p) (heof : kind ≠ .eof) (hk : kind ≠ .punct .semicolon) :
    Unclosed c (Parser.behind kind p) :=
  .onKind heof (fun _ => hk) (fun _ => .bind h fun _ => .pure _) (.pure _)

/-! ## Expressions -/

/-- Of patterns only the front is needed. -/
theorem pattern : Unclosed False Parser.pattern := by
  intro cx ts a rest hp
  have hreply := Alike.pattern (P := .bare cx) ts _ (Nat.lt_succ_self _) (linked_map_bare ts)
  change Reply.Linked _ _ _ _ (Parser.pattern cx ts) _ at hreply
  unfold quiet at hp
  generalize Parser.pattern cx ts = r at hreply hp
  generalize Parser.pattern _ (ts.map Token.bare) = r' at hreply
  cases hreply with
  | ok _ _ hleft =>
    rw [Reply.quiet_ok] at hp
    split at hp
    · cases hp
      obtain ⟨front, hfront⟩ := hleft.suffix
      exact ⟨front, hfront.symm, False.elim⟩
    · cases hp
  | fail => cases hp

section

variable {self : Parser Expr} (h : Unclosed True self)
include h

theorem letForm (span : Span) : Unclosed True (Parser.letForm self span) :=
  .bind .ident fun _ => .bind (.mark (by simp)) fun _ => .bind h fun _ => .bind .word fun _ =>
    .bind h fun _ => .pure _

theorem ifForm (span : Span) : Unclosed True (Parser.ifForm self span) :=
  .bind h fun _ => .bind .word fun _ => .bind h fun _ => .bind .word fun _ =>
    .bind h fun _ => .pure _

theorem caseArm : Unclosed False (Parser.caseArm self) :=
  have hself := h.mono False.elim
  .bind .pattern fun _ => .bind (hself.behind (by simp) (by simp)) fun _ => .bind .word fun _ =>
    .bind hself fun _ =>
    .pure _

theorem caseForm (span : Span) : Unclosed True (Parser.caseForm self span) :=
  .bind h fun _ => .bind .word fun _ => .bind (h.caseArm.delimited (by simp) (by simp)) fun _ =>
    .pure _

theorem parenForm (span : Span) : Unclosed True (Parser.parenForm self span) := by
  refine .onKind (by simp) (fun _ => by simp) (fun _ => .pure _) ?_
  refine .bind h fun first => .bind (.eat (by simp) fun _ => by simp) fun b => ?_
  cases b with
  | true => exact .bind h.commaList fun _ => .bind (.mark (by simp)) fun _ => .pure _
  | false => exact .bind (.mark (by simp)) fun _ => .pure _

/-- No form of a primary begins with the mark. -/
theorem compoundForms (t : Token) (q : Parser Expr) (hq : Parser.compoundForms self t = some q) :
    t.kind ≠ .punct .semicolon ∧ Unclosed True q := by
  have hinner := h.mono False.elim
  unfold Parser.compoundForms at hq
  split at hq
  case h_1 hk => cases hq; exact ⟨by simp [hk], h.letForm _⟩
  case h_2 hk =>
    cases hq; exact ⟨by simp [hk], .bind (hinner.delimited (by simp) (by simp)) fun _ => .pure _⟩
  case h_3 hk => cases hq; exact ⟨by simp [hk], h.ifForm _⟩
  case h_4 hk => cases hq; exact ⟨by simp [hk], h.caseForm _⟩
  case h_5 hk =>
    cases hq; exact ⟨by simp [hk], .bind (.mark (by simp)) fun _ => .bind .ident fun _ => .pure _⟩
  case h_6 hk => cases hq; exact ⟨by simp [hk], .pure _⟩
  case h_7 hk => cases hq; exact ⟨by simp [hk], .pure _⟩
  case h_8 hk => cases hq; exact ⟨by simp [hk], .bind (hinner.closed (by simp)) fun _ => .pure _⟩
  case h_9 hk => cases hq; exact ⟨by simp [hk], h.parenForm _⟩
  case h_10 => cases hq

theorem primary : Unclosed True (Parser.primary self) := by
  refine .branch (fun _ => rfl) (fun t q hq => ?_) .fail
  unfold Parser.primaryForms at hq
  split at hq
  · next hlit =>
    cases hq
    refine ⟨fun _ hk => ?_, .pure _⟩
    rw [hk] at hlit
    cases hlit
  · exact ⟨fun _ => (h.compoundForms t q hq).1, (h.compoundForms t q hq).2⟩

theorem postfixed : Unclosed True (Parser.postfixed self) := by
  refine .bind h.primary fun _ => .bind (.collect (fun _ => ?_) 0) fun _ => .pure _
  refine .branch (fun _ => rfl) (fun t q hq => ?_) (.pure _)
  unfold Parser.suffixForms at hq
  split at hq
  · next hk =>
    cases hq
    refine ⟨fun _ => by simp [hk], .bind (.bind h.commaList.unlessAt fun _ => ?_) fun _ => .pure _⟩
    exact .bind (.mark (by simp)) fun _ => .pure _
  · next hk =>
    cases hq
    exact ⟨fun _ => by simp [hk], .bind .ident fun _ => .pure _⟩
  · cases hq

theorem unary : Unclosed True (Parser.unary self) := by
  refine .bind (.collect (fun _ => .branch (fun _ => rfl) (fun t q hq => ?_) (.pure _)) 0) fun _ =>
    .bind h.postfixed fun _ => .pure _
  obtain ⟨op, hop, rfl⟩ := Option.map_eq_some_iff.mp hq
  refine ⟨fun _ hk => ?_, .pure _⟩
  rw [hk] at hop
  cases hop

/-- An operator is followed by an operand, with which the chain ends. -/
theorem chain (level : Nat) : Unclosed True (Parser.chain level self) := by
  refine .bind h fun _ =>
    .bind (.collect (fun _ => .branch (fun _ => rfl) (fun t q hq => ?_) (.pure _)) 0) fun _ =>
    .pure _
  unfold Parser.chainForms at hq
  split at hq
  · next hop =>
    split at hq
    · cases hq
      refine ⟨fun _ hk => ?_, .bind h fun _ => .pure _⟩
      rw [hk] at hop
      cases hop
    · cases hq
  · cases hq

theorem infixed : Unclosed True (Parser.infixed self) := by
  unfold Parser.infixed
  induction List.range 6 with
  | nil => exact h.unary
  | cons level levels ih => exact ih.chain level

theorem assignment : Unclosed True (Parser.assignment self) := by
  refine .bind h.infixed fun left =>
    .onKind (by simp) (fun _ => by simp) (fun _ => .bind h fun value => ?_) (.pure _)
  unfold Parser.assignTo
  split
  · exact .pure _
  · exact .pure _
  · exact .bind .report fun _ => .pure _

end

/-- No expression ends with `;`. -/
theorem expression : Unclosed True Parser.expression :=
  fix (fun _ hself _ => (hself ()).assignment) ()

theorem returnValue : Unclosed True Parser.returnValue := by
  refine .bind (.look fun _ _ _ _ hp => by cases hp; rfl) fun t => ?_
  split
  · exact .bind .expression fun _ => .pure _
  · exact .pure _

end Unclosed

end TreeWalk.Parser
