import TreeWalk.Proofs.Parser.LastToken

/-!
# What stands behind a form

A parser that has read its form from an input reads the same form where the input goes on, as long
as it did not have to see the end of the input to stop. `Local T c p q` says so of two parsers,
where `T` is what the input goes on with and `c` is what has to hold of it if nothing of the input
is left. An expression stops in front of a word that starts a declaration; a form that ends with a
mark stops anywhere. The `;` behind a statement may be missing, so a statement stops in front of
such a word, or else it has to end with its `;`, which no expression does.
-/

namespace TreeWalk

namespace Parser

variable {α β : Type}

/-- What an input goes on with, and the settings in which it is read alone and together with
that. -/
structure Tail where
  left : Context
  right : Context
  after : List Token

/-- The first token behind the input. -/
def Tail.next (T : Tail) : Token :=
  T.right.next T.after

/-- A declaration starts behind the input. -/
def Tail.Declares (T : Tail) : Prop :=
  T.next.kind.beginsDecl = true

/-- What `p` reads from `ts` without errors, `q` reads where `ts` goes on. If nothing of `ts` is
left, `c` has to hold. -/
def LocalAt (T : Tail) (c : Prop) (p q : Parser α) (ts : List Token) : Prop :=
  ∀ a rest, p.quiet T.left ts = some (a, rest) → rest <:+ ts ∧
    ((rest = [] → c) → q.quiet T.right (ts ++ T.after) = some (a, rest ++ T.after))

def Local (T : Tail) (c : Prop) (p q : Parser α) : Prop :=
  ∀ ts, LocalAt T c p q ts

/-- The parser cannot do without a token. -/
def Needs (p : Parser α) : Prop :=
  ∀ cx, p.quiet cx [] = none

variable {T : Tail} {c c' : Prop} {p q : Parser α} {f g : α → Parser β}

/-- What comes first needs a token. -/
theorem Needs.bind (h : Needs p) : Needs (p >>= f) := by
  intro cx
  rw [quiet_bind, h cx]
  rfl

/-- At the end of the input no form is chosen, and the other parser needs a token. -/
theorem Needs.branch {forms : Token → Option (Parser α)} (heof : ∀ span, forms ⟨.eof, span⟩ = none)
    (h : Needs p) :
    Needs (Parser.branch forms p) := by
  intro cx
  rw [quiet_branch, show forms (cx.next []) = none from heof _]
  exact h cx

theorem Needs.fail : Needs (failHere e : Parser α) :=
  fun _ => rfl

theorem Needs.mark : Needs (Parser.mark m context) :=
  fun cx => by rw [quiet_mark]; rfl

theorem Needs.onKind {f : Token → Parser α} (h : Needs p) (hk : kind ≠ .eof) :
    Needs (Parser.onKind kind f p) :=
  .branch (fun _ => if_neg (by simpa using hk.symm)) h

theorem Needs.unlessAt (h : Needs p) (hk : kind ≠ .eof) : Needs (Parser.unlessAt kind p) := by
  intro cx
  have hnext : ((cx.next []).kind == kind) = false := beq_eq_false_iff_ne.mpr hk.symm
  rw [Parser.unlessAt, quiet_bind, quiet_check, hnext]
  exact h.bind cx

theorem Needs.below (h : Needs p) (n : Nat) : Needs (Parser.below n p) := by
  intro cx
  unfold quiet Parser.below
  split
  · exact h cx
  · rfl

/-- A parser that always reads a token needs one. -/
theorem Needs.of_alike {V : Context → α → α → Prop} (h : ∀ cx, Alike (.bare cx) 1 1 (V cx) p p) :
    Needs p := by
  intro cx
  have hquiet := (h cx).quiet (show ([] : List Token).length < 1 from Nat.zero_lt_one) .nil
  change Option.Rel _ (p.quiet cx []) _ at hquiet
  generalize p.quiet cx [] = r at hquiet ⊢
  cases r with
  | none => rfl
  | some r =>
    generalize p.quiet _ [] = r' at hquiet
    cases hquiet with
    | some hr => exact absurd hr.2.2 (by simp)

namespace LocalAt

/-- Under a stronger condition. -/
theorem mono (h : LocalAt T c p q ts) (hc : c' → c) : LocalAt T c' p q ts := by
  intro a rest hp
  obtain ⟨hsuffix, hq⟩ := h a rest hp
  exact ⟨hsuffix, fun hrest => hq fun hnil => hc (hrest hnil)⟩

/-- Where a second parser needs a token, something is left by the first one. -/
theorem before (hp : LocalAt T c' p q ts)
    (hf : ∀ a mid, mid <:+ ts → mid ≠ [] → LocalAt T c (f a) (g a) mid)
    (hneeds : ∀ a, Needs (f a)) :
    LocalAt T c (p >>= f) (q >>= g) ts := by
  intro b rest h
  rw [quiet_bind, Option.bind_eq_some_iff] at h
  obtain ⟨⟨a, mid⟩, ha, hb⟩ := h
  obtain ⟨hmid, hq⟩ := hp a mid ha
  have hne : mid ≠ [] := by
    rintro rfl
    cases (hneeds a T.left).symm.trans hb
  obtain ⟨hrest, hg⟩ := hf a mid hmid hne b rest hb
  refine ⟨hrest.trans hmid, fun hc => ?_⟩
  rw [quiet_bind, hq fun h => absurd h hne, Option.bind_some]
  exact hg hc

/-- What may stand behind a form can depend on the input it is read from. -/
theorem fix {ι : Type} {step : (ι → Parser α) → ι → Parser α} {C : List Token → Prop}
    (hneeds : ∀ j, Needs (Parser.fix step j))
    (h : ∀ self self', (∀ j, Needs (self j)) → (∀ j ts, LocalAt T (C ts) (self j) (self' j) ts) →
      ∀ i ts, LocalAt T (C ts) (step self i) (step self' i) ts) (i : ι) (ts : List Token) :
    LocalAt T (C ts) (Parser.fix step i) (Parser.fix step i) ts := by
  induction hm : ts.length using Nat.strongRecOn generalizing ts i with
  | ind m ih =>
    subst hm
    -- Inside, the parser is called on inputs shorter than this one.
    have hself : ∀ j us, LocalAt T (C us) (Parser.below ts.length (Parser.fix step j))
        (Parser.below (ts ++ T.after).length (Parser.fix step j)) us := by
      intro j us b left hb
      by_cases hlt : us.length < ts.length
      · rw [quiet_below hlt] at hb
        rw [quiet_below (by simpa using hlt)]
        exact ih us.length hlt j us rfl b left hb
      · rw [quiet, Parser.below, if_neg hlt] at hb
        cases hb
    intro a rest hp
    rw [quiet_fix] at hp ⊢
    exact h _ _ (fun j => (hneeds j).below _) hself i ts a rest hp

end LocalAt

namespace Local

theorem mono (h : Local T c p q) (hc : c' → c) : Local T c' p q :=
  fun ts => (h ts).mono hc

/-- Where something of the input is left, it does not matter what stands behind it. -/
theorem inside (h : Local T c p q) : Local T False p q :=
  h.mono False.elim

theorem pure (a : α) : Local T c (Pure.pure a) (Pure.pure a) := by
  intro ts a rest hp
  cases hp
  exact ⟨List.suffix_refl ts, fun _ => rfl⟩

/-- Nothing is asked of a parser that fails. -/
theorem fail {e : String → Span → ParseError} : Local T c (failHere e) q :=
  fun _ _ _ hp => nomatch hp

theorem report : Local T c (Parser.report e) (Parser.report e) :=
  fun _ _ _ hp => nomatch hp

/-- If the first parser leaves nothing, neither does the second, so that the condition holds for
both. -/
theorem bind (hp : Local T c p q) (hf : ∀ a, Local T c (f a) (g a)) :
    Local T c (p >>= f) (q >>= g) := by
  intro ts b rest h
  rw [quiet_bind, Option.bind_eq_some_iff] at h
  obtain ⟨⟨a, mid⟩, ha, hb⟩ := h
  obtain ⟨hmid, hq⟩ := hp ts a mid ha
  obtain ⟨hrest, hg⟩ := hf a mid b rest hb
  refine ⟨hrest.trans hmid, fun hc => ?_⟩
  have hnil : mid = [] → rest = [] := fun hnil => List.suffix_nil.mp (hnil ▸ hrest)
  rw [quiet_bind, hq fun h => hc (hnil h), Option.bind_some]
  exact hg hc

theorem before (hp : Local T c' p q) (hf : ∀ a, Local T c (f a) (g a)) (hneeds : ∀ a, Needs (f a)) :
    Local T c (p >>= f) (q >>= g) :=
  fun ts => (hp ts).before (fun a mid _ _ => hf a mid) hneeds

/-! ## Single tokens -/

/-- The next token is another one only at the end, where it may choose no form. -/
theorem branch {forms forms' : Token → Option (Parser α)} (heof : ∀ span, forms ⟨.eof, span⟩ = none)
    (hforms : ∀ t, Option.Rel (Local T c) (forms t) (forms' t)) (ho : Local T c p q)
    (hnext : Needs p ∨ (c → forms' T.next = none)) :
    Local T c (Parser.branch forms p) (Parser.branch forms' q) := by
  intro ts a rest h
  rw [quiet_branch] at h
  cases ts with
  | nil =>
    rw [show forms (T.left.next []) = none from heof _] at h
    obtain ⟨hrest, hq⟩ := ho [] a rest h
    refine ⟨hrest, fun hc => ?_⟩
    have hc' := hc (List.suffix_nil.mp hrest)
    rcases hnext with hneeds | hnext
    · cases (hneeds T.left).symm.trans h
    · rw [quiet_branch, show forms' (T.right.next ([] ++ T.after)) = none from hnext hc']
      exact hq hc
  | cons t ts =>
    have hform := hforms t
    rw [next_cons] at h
    rw [List.cons_append, quiet_branch, next_cons]
    generalize forms t = r at h hform
    generalize forms' t = r' at hform
    cases hform with
    | none => exact ho (t :: ts) a rest h
    | some hpq =>
      obtain ⟨hrest, hq⟩ := hpq ts a rest h
      exact ⟨hrest.trans (List.suffix_cons t ts), hq⟩

/-- Reading one token if it is there. -/
theorem onKind {f f' : Token → Parser α} (hk : kind ≠ .eof) (hf : ∀ t, Local T c (f t) (f' t))
    (ho : Local T c p q) (hnext : Needs p ∨ (c → T.next.kind ≠ kind)) :
    Local T c (Parser.onKind kind f p) (Parser.onKind kind f' q) := by
  refine branch (fun span => ?_) (fun t => ?_) ho (hnext.imp id fun hnext hc => ?_)
  · simp [Ne.symm hk]
  · split
    · exact .some (hf t)
    · exact .none
  · simp [hnext hc]

theorem expect (hk : kind ≠ .eof) :
    Local T c (Parser.expect kind context) (Parser.expect kind context) :=
  onKind hk (fun t => .pure t) .fail (.inl .fail)

theorem mark : Local T c (Parser.mark m context) (Parser.mark m context) :=
  expect (by simp)

theorem word : Local T c (Parser.word k context) (Parser.word k context) :=
  expect (by simp)

theorem ident : Local T c (Parser.ident context) (Parser.ident context) := by
  refine branch (fun _ => rfl) (fun t => ?_) .fail (.inl .fail)
  unfold identForms
  split
  · exact .some (.pure _)
  · exact .none

/-- A token that may be left out must not be what follows. -/
theorem eat (hk : kind ≠ .eof) (hnext : c → T.next.kind ≠ kind) :
    Local T c (Parser.eat kind) (Parser.eat kind) :=
  onKind hk (fun _ => .pure true) (.pure false) (.inr hnext)

theorem check (hk : kind ≠ .eof) (hnext : c → T.next.kind ≠ kind) :
    Local T c (Parser.check kind) (Parser.check kind) := by
  intro ts b rest h
  cases h
  refine ⟨List.suffix_refl ts, fun hc => ?_⟩
  rw [quiet_check]
  cases ts with
  | nil =>
    have hleft : ((T.left.next []).kind == kind) = false := beq_eq_false_iff_ne.mpr (Ne.symm hk)
    have hright : ((T.right.next ([] ++ T.after)).kind == kind) = false :=
      beq_eq_false_iff_ne.mpr (hnext (hc rfl))
    rw [hleft, hright]
  | cons t ts => rfl

/-- Whether the end of a form or of the input is reached is known where something is left. -/
theorem ends (close : Punct) : Local T False (Parser.ends close) (Parser.ends close) := by
  intro ts b rest h
  cases h
  refine ⟨List.suffix_refl ts, fun hc => ?_⟩
  cases ts with
  | nil => cases hc rfl
  | cons t ts => rfl

/-! ## Repetition -/

/-- By induction on the number of tokens ahead. -/
theorem collect {step step' : Nat → Parser (Item α)}
    (h : ∀ k, Local T c (step k) (step' k)) (k : Nat) :
    Local T c (Parser.collect step k) (Parser.collect step' k) := by
  intro ts as rest hp
  induction hm : ts.length using Nat.strongRecOn generalizing ts as k with
  | ind m ih =>
    rw [quiet_collect] at hp ⊢
    split at hp
    · cases hp
    · next hstep =>
      cases hp
      obtain ⟨hrest, hq⟩ := h k ts _ rest hstep
      exact ⟨hrest, fun hc => by rw [hq hc]⟩
    · next hstep =>
      cases hp
      obtain ⟨hrest, hq⟩ := h k ts _ rest hstep
      exact ⟨hrest, fun hc => by rw [hq hc]⟩
    · next a mid hstep =>
      split at hp
      · next hlt =>
        obtain ⟨⟨as', rest'⟩, hmore, heq⟩ := Option.map_eq_some_iff.mp hp
        cases heq
        obtain ⟨hmid, hq⟩ := h k ts _ mid hstep
        obtain ⟨hrest, hagain⟩ := ih mid.length (hm ▸ hlt) (k + 1) mid as' hmore rfl
        refine ⟨hrest.trans hmid, fun hc => ?_⟩
        rw [hq fun hnil => hc (List.suffix_nil.mp (hnil ▸ hrest))]
        dsimp only
        rw [if_pos (by simpa using hlt), hagain hc]
        rfl
      · cases hp

theorem fix {ι : Type} {step : (ι → Parser α) → ι → Parser α}
    (hneeds : ∀ j, Needs (Parser.fix step j)) (h : ∀ self self',
        (∀ j, Local T c (self j) (self' j)) → ∀ i, Local T c (step self i) (step self' i)) (i : ι) :
    Local T c (Parser.fix step i) (Parser.fix step i) :=
  LocalAt.fix hneeds (fun self self' _ hself => h self self' hself) i

/-! ## Lists -/

theorem limit : Local T c (Parser.limit kind k) (Parser.limit kind k) := by
  intro ts a rest hp
  rw [quiet_limit] at hp ⊢
  split at hp
  · cases hp
  · next hk =>
    cases hp
    exact ⟨List.suffix_refl ts, fun _ => if_neg hk⟩

section

variable (h : Local T c p q)
include h

theorem itemThen (hsep : c → T.next.kind ≠ .punct sep) :
    Local T c (Parser.itemThen sep p) (Parser.itemThen sep q) :=
  .bind h fun _ => .bind (.eat (by simp) hsep) fun _ => .pure _

theorem commaList (hsep : c → T.next.kind ≠ .punct .comma) :
    Local T c (Parser.commaList kind p k) (Parser.commaList kind q k) :=
  .collect (fun _ => .bind .limit fun _ => h.itemThen hsep) k

/-- Behind the mark that closes a list, nothing depends on what follows. -/
theorem closed :
    Local T c' (Parser.closed sep close context p) (Parser.closed sep close context q) := by
  have hitems : Local T False (Parser.items sep close p) (Parser.items sep close q) := by
    refine .collect (fun _ => .bind (.ends close) fun b => ?_) 0
    cases b with
    | true => exact .pure _
    | false => exact h.inside.itemThen False.elim
  exact hitems.before (fun _ => .bind .mark fun _ => .pure _) fun _ => Needs.mark.bind

theorem delimited : Local T c' (Parser.delimited opening sep close context p)
    (Parser.delimited opening sep close context q) :=
  .bind .mark fun _ => h.closed

/-- Items that go to the end of the input have nothing that closes them, and nothing is said of
them. -/
theorem itemsUntil : Local T False (Parser.itemsUntil close p) (Parser.itemsUntil close q) := by
  refine .collect (fun _ => .bind (.ends close) fun b => ?_) 0
  cases b with
  | true => exact .pure _
  | false => exact .bind h.inside fun _ => .pure _

theorem unlessAt (hk : kind ≠ .eof) (hnext : c → T.next.kind ≠ kind) :
    Local T c (Parser.unlessAt kind p) (Parser.unlessAt kind q) := by
  refine .bind (.check hk hnext) fun b => ?_
  cases b with
  | true => exact .pure _
  | false => exact .bind h fun _ => .pure _

theorem behind (hk : kind ≠ .eof) (hnext : c → T.next.kind ≠ kind) :
    Local T c (Parser.behind kind p) (Parser.behind kind q) :=
  .onKind hk (fun _ => .bind h fun _ => .pure _) (.pure _) (.inr hnext)

/-- A form that was read needs no recovery. -/
theorem recovering : Local T c (Parser.recovering p) (Parser.recovering q) := by
  intro ts a rest hp
  rw [quiet_recovering] at hp ⊢
  obtain ⟨⟨b, left⟩, hb, heq⟩ := Option.map_eq_some_iff.mp hp
  cases heq
  obtain ⟨hrest, hq⟩ := h ts b rest hb
  exact ⟨hrest, fun hc => by rw [hq hc]; rfl⟩

end

end Local

/-! ## In front of a declaration -/

namespace Tail.Declares

variable (h : T.Declares)
include h

theorem ne (hk : kind.beginsDecl = false) : T.next.kind ≠ kind := by
  rintro rfl
  cases h.symm.trans hk

theorem not_beginsExpr : T.next.kind.beginsExpr = false := by
  unfold Tail.Declares at h
  cases hk : T.next.kind with
  | keyword k => rw [hk] at h; cases k <;> first | rfl | cases h
  | _ => rw [hk] at h; cases h

theorem unaryOp : UnaryOp.ofToken? T.next.kind = none := by
  unfold Tail.Declares at h
  cases hk : T.next.kind with
  | keyword k => rfl
  | _ => rw [hk] at h; cases h

theorem binaryOp : BinaryOp.ofToken? T.next.kind = none := by
  unfold Tail.Declares at h
  cases hk : T.next.kind with
  | keyword k => rw [hk] at h; cases k <;> first | rfl | cases h
  | _ => rw [hk] at h; cases h

end Tail.Declares

namespace Local

/-! ## Patterns -/

section

variable {self self' : Parser Pattern} (h : Local T T.Declares self self')
include h

theorem namedPattern (name : Ident) :
    Local T T.Declares (Parser.namedPattern self name) (Parser.namedPattern self' name) := by
  refine .bind (h.behind (by simp) fun hc => hc.ne rfl) fun r => ?_
  cases r with
  | none => exact .pure _
  | some p => exact .pure _

theorem parenPattern (span : Span) :
    Local T T.Declares (Parser.parenPattern self span) (Parser.parenPattern self' span) := by
  refine .onKind (by simp) (fun _ => .pure _) (.bind h fun first => ?_) (.inr fun hc => hc.ne rfl)
  refine .bind (.eat (by simp) fun hc => hc.ne rfl) fun more => ?_
  cases more with
  | true =>
    refine .bind (.collect (fun _ => h.itemThen fun hc => hc.ne rfl) 1) fun _ => ?_
    exact .bind .mark fun _ => .pure _
  | false => exact .bind .mark fun _ => .pure _

theorem patternStep : Local T T.Declares (Parser.patternStep self) (Parser.patternStep self') := by
  refine .branch (fun _ => rfl) (fun t => ?_) .fail (.inl .fail)
  obtain ⟨kind, span⟩ := t
  cases kind with
  | punct m =>
    cases m with
    | underscore => exact .some (.pure _)
    | minus =>
      refine .some (.branch (fun _ => rfl) (fun t => ?_) .fail (.inl .fail))
      unfold negativeForms
      split
      · exact .some (.pure _)
      · exact .none
    | lparen => exact .some (h.parenPattern span)
    | lbracket => exact .some (.bind h.closed fun _ => .pure _)
    | _ => exact .none
  | keyword k =>
    cases k with
    | nil | true_ | false_ => exact .some (.pure _)
    | _ => exact .none
  | number x => exact .some (.pure _)
  | str contents => exact .some (.pure _)
  | ident name => exact .some (h.namedPattern ⟨name, span⟩)
  | eof => exact .none

end

/-- Patterns end in front of a declaration. -/
theorem pattern : Local T T.Declares Parser.pattern Parser.pattern :=
  fix (fun _ => .of_alike fun _ => .pattern) (fun _ _ hself _ => (hself ()).patternStep) ()

/-! ## Expressions -/

section

variable {self self' : Parser Expr} (h : Local T T.Declares self self')
include h

theorem letForm (span : Span) :
    Local T T.Declares (Parser.letForm self span) (Parser.letForm self' span) :=
  .bind .ident fun _ => .bind .mark fun _ => .bind h fun _ => .bind .word fun _ =>
    .bind h fun _ => .pure _

theorem ifForm (span : Span) :
    Local T T.Declares (Parser.ifForm self span) (Parser.ifForm self' span) :=
  .bind h fun _ => .bind .word fun _ => .bind h fun _ => .bind .word fun _ =>
    .bind h fun _ => .pure _

theorem caseArm : Local T T.Declares (Parser.caseArm self) (Parser.caseArm self') :=
  .bind .pattern fun _ => .bind (h.behind (by simp) fun hc => hc.ne rfl) fun _ =>
    .bind .word fun _ =>
    .bind h fun _ => .pure _

theorem caseForm (span : Span) :
    Local T T.Declares (Parser.caseForm self span) (Parser.caseForm self' span) :=
  .bind h fun _ => .bind .word fun _ => .bind h.caseArm.delimited fun _ => .pure _

theorem parenForm (span : Span) :
    Local T T.Declares (Parser.parenForm self span) (Parser.parenForm self' span) := by
  refine .onKind (by simp) (fun _ => .pure _) (.bind h fun first => ?_) (.inr fun hc => hc.ne rfl)
  refine .bind (.eat (by simp) fun hc => hc.ne rfl) fun more => ?_
  cases more with
  | true => exact .bind (h.commaList fun hc => hc.ne rfl) fun _ => .bind .mark fun _ => .pure _
  | false => exact .bind .mark fun _ => .pure _

/-- The forms with a keyword or a bracket in front. -/
theorem compoundForms (t : Token) :
    Option.Rel (Local T T.Declares) (Parser.compoundForms self t)
      (Parser.compoundForms self' t) := by
  obtain ⟨kind, span⟩ := t
  cases kind with
  | keyword k =>
    cases k with
    | let_ => exact .some (h.letForm span)
    | do_ => exact .some (.bind h.delimited fun _ => .pure _)
    | if_ => exact .some (h.ifForm span)
    | case => exact .some (h.caseForm span)
    | super => exact .some (.bind .mark fun _ => .bind .ident fun _ => .pure _)
    | this => exact .some (.pure _)
    | _ => exact .none
  | punct m =>
    cases m with
    | lbracket => exact .some (.bind h.closed fun _ => .pure _)
    | lparen => exact .some (h.parenForm span)
    | _ => exact .none
  | ident name => exact .some (.pure _)
  | _ => exact .none

theorem primary : Local T T.Declares (Parser.primary self) (Parser.primary self') := by
  refine .branch (fun _ => rfl) (fun t => ?_) .fail (.inl .fail)
  unfold primaryForms
  cases literalOf? t.kind with
  | some value => exact .some (.pure _)
  | none => exact h.compoundForms t

/-- No suffix starts a declaration. -/
theorem suffixForms (t : Token) :
    Option.Rel (Local T T.Declares) (Parser.suffixForms self t) (Parser.suffixForms self' t) := by
  obtain ⟨kind, span⟩ := t
  cases kind with
  | punct m =>
    cases m with
    | lparen =>
      refine .some (.bind (.bind ?_ fun _ => .bind .mark fun _ => .pure _) fun _ => .pure _)
      exact (h.commaList fun hc => hc.ne rfl).unlessAt (by simp) fun hc => hc.ne rfl
    | dot => exact .some (.bind .ident fun _ => .pure _)
    | _ => exact .none
  | _ => exact .none

theorem postfixed : Local T T.Declares (Parser.postfixed self) (Parser.postfixed self') := by
  refine .bind h.primary fun _ => .bind (.collect (fun _ => ?_) 0) fun _ => .pure _
  refine .branch (fun _ => rfl) h.suffixForms (.pure _) (.inr fun hc => ?_)
  unfold Parser.suffixForms
  split
  · next heq => exact absurd heq (hc.ne rfl)
  · next heq => exact absurd heq (hc.ne rfl)
  · rfl

theorem unary : Local T T.Declares (Parser.unary self) (Parser.unary self') := by
  refine .bind (.collect (fun _ => ?_) 0) fun _ => .bind h.postfixed fun _ => .pure _
  refine .branch (fun _ => rfl) (fun t => ?_) (.pure _) (.inr fun hc => ?_)
  · unfold unaryForms
    cases UnaryOp.ofToken? t.kind with
    | some op => exact .some (.pure _)
    | none => exact .none
  · rw [unaryForms, hc.unaryOp]
    rfl

/-- No operator starts a declaration. -/
theorem chain (level : Nat) :
    Local T T.Declares (Parser.chain level self) (Parser.chain level self') := by
  refine .bind h fun _ => .bind (.collect (fun _ => ?_) 0) fun _ => .pure _
  refine .branch (fun _ => rfl) (fun t => ?_) (.pure _) (.inr fun hc => ?_)
  · unfold chainForms
    cases BinaryOp.ofToken? t.kind with
    | none => exact .none
    | some op =>
      dsimp only
      split
      · exact .some (.bind h fun _ => .pure _)
      · exact .none
  · rw [chainForms, hc.binaryOp]

theorem infixed : Local T T.Declares (Parser.infixed self) (Parser.infixed self') := by
  have hlevels : ∀ levels : List Nat,
    Local T T.Declares (levels.foldr Parser.chain (Parser.unary self))
      (levels.foldr Parser.chain (Parser.unary self')) := by
    intro levels
    induction levels with
    | nil => exact h.unary
    | cons level levels ih => exact ih.chain level
  exact hlevels _

theorem assignment : Local T T.Declares (Parser.assignment self) (Parser.assignment self') := by
  refine .bind h.infixed fun left => .onKind (by simp) (fun _ => .bind h fun value => ?_) (.pure _)
    (.inr fun hc => hc.ne rfl)
  unfold assignTo
  split
  · exact .pure _
  · exact .pure _
  · exact .bind .report fun _ => .pure _

end

/-- Expressions end in front of a declaration. -/
theorem expression : Local T T.Declares Parser.expression Parser.expression :=
  fix (fun _ => .of_alike fun _ => .expression) (fun _ _ hself _ => (hself ()).assignment) ()

theorem returnValue : Local T T.Declares Parser.returnValue Parser.returnValue := by
  intro ts a rest h
  rw [Parser.returnValue, quiet_bind, quiet_peek, Option.bind_some] at h ⊢
  cases ts with
  | nil =>
    cases h
    refine ⟨List.suffix_refl _, fun hc => ?_⟩
    have hnext : (T.right.next ([] ++ T.after)).kind.beginsExpr = false := (hc rfl).not_beginsExpr
    dsimp only
    rw [hnext]
    rfl
  | cons t ts =>
    have hsame : Local T T.Declares
        (if t.kind.beginsExpr then do return some (← Parser.expression) else return none)
        (if t.kind.beginsExpr then do return some (← Parser.expression) else return none) := by
      split
      · exact .bind .expression fun _ => .pure _
      · exact .pure _
    exact hsame (t :: ts) a rest h

theorem varDecl : Local T c Parser.varDecl Parser.varDecl :=
  .bind .ident fun _ => (Local.expression.inside.behind (by simp) False.elim).before
    (fun _ => .bind .mark fun _ => .pure _) fun _ => Needs.mark.bind

theorem forInitializer : Local T c Parser.forInitializer Parser.forInitializer := by
  have hinitial : Local T c Parser.initialExpression Parser.initialExpression :=
    Local.expression.before (fun _ => .bind .mark fun _ => .pure _) fun _ => Needs.mark.bind
  have hneeds : Needs Parser.initialExpression := .of_alike fun _ => .initialExpression
  refine .onKind (by simp) (fun _ => .pure _) ?_ (.inl (Needs.bind (hneeds.onKind (by simp))))
  exact .bind (.onKind (by simp) (fun _ => .varDecl) hinitial (.inl hneeds)) fun _ => .pure _

end Local

/-! ## Statements -/

/-- What the input `ts` goes on with is set apart from it: a declaration starts there, or `ts` ends
with `;`. -/
def Tail.SetApart (T : Tail) (ts : List Token) : Prop :=
  T.Declares ∨ EndsClosed ts

theorem Tail.SetApart.suffix (h : T.SetApart ts) (hsuffix : rest <:+ ts) (hne : rest ≠ []) :
    T.SetApart rest := by
  obtain ⟨front, rfl⟩ := hsuffix
  exact h.imp id (endsClosed_append hne).mp

/-- Both parsers read the same statement, whatever it is that is set apart behind it. -/
def LocalStmt (T : Tail) (p q : Parser α) : Prop :=
  ∀ ts, LocalAt T (T.SetApart ts) p q ts

namespace LocalStmt

theorem of_local (h : Local T True p q) : LocalStmt T p q :=
  fun ts => (h ts).mono fun _ => trivial

theorem inside (h : LocalStmt T p q) : Local T False p q :=
  fun ts => (h ts).mono False.elim

theorem before (hp : Local T c p q) (hf : ∀ a, LocalStmt T (f a) (g a))
    (hneeds : ∀ a, Needs (f a)) :
    LocalStmt T (p >>= f) (q >>= g) :=
  fun ts => (hp ts).before (fun a mid hmid hne => (hf a mid).mono fun h => h.suffix hmid hne) hneeds

theorem map (h : LocalStmt T p q) (s : α → β) :
    LocalStmt T (p >>= fun a => pure (s a)) (q >>= fun a => pure (s a)) := by
  intro ts b rest hp
  rw [quiet_bind, Option.bind_eq_some_iff] at hp
  obtain ⟨⟨a, mid⟩, ha, hb⟩ := hp
  cases hb
  obtain ⟨hsuffix, hq⟩ := h ts a mid ha
  exact ⟨hsuffix, fun hc => by rw [quiet_bind, hq hc]; rfl⟩

theorem branch {forms forms' : Token → Option (Parser α)} (heof : ∀ span, forms ⟨.eof, span⟩ = none)
    (hsemicolon : ∀ span, forms ⟨.punct .semicolon, span⟩ = none)
    (hforms : ∀ t, Option.Rel (LocalStmt T) (forms t) (forms' t)) (ho : LocalStmt T p q)
    (hneeds : Needs p) :
    LocalStmt T (Parser.branch forms p) (Parser.branch forms' q) := by
  intro ts a rest h
  cases ts with
  | nil => cases (Needs.branch heof hneeds T.left).symm.trans h
  | cons t ts =>
    have hform := hforms t
    rw [quiet_branch, next_cons] at h
    rw [List.cons_append, quiet_branch, next_cons]
    generalize hform' : forms t = r at h hform
    generalize forms' t = r' at hform
    cases hform with
    | none => exact ho (t :: ts) a rest h
    | some hpq =>
      obtain ⟨hrest, hq⟩ := hpq ts a rest h
      refine ⟨hrest.trans (List.suffix_cons t ts), fun hc => hq fun hnil => ?_⟩
      by_cases hts : ts = []
      · -- Nothing but `t` was read, and `t` is no `;`.
        refine .inl ((hc hnil).resolve_right fun hlast => ?_)
        obtain ⟨kind, span⟩ := t
        subst hts
        cases hlast
        cases (hsemicolon span).symm.trans hform'
      · exact (hc hnil).suffix (List.suffix_cons t ts) hts

/-- A form with a `;` behind it that may be missing. -/
theorem terminated (h : Local T T.Declares p q) (hunclosed : Unclosed True p) (s : α → β) :
    LocalStmt T (p >>= fun a => eat (.punct .semicolon) >>= fun _ => pure (s a))
      (q >>= fun a => eat (.punct .semicolon) >>= fun _ => pure (s a)) := by
  intro ts b rest hp
  rw [quiet_bind, Option.bind_eq_some_iff] at hp
  obtain ⟨⟨a, mid⟩, ha, hb⟩ := hp
  obtain ⟨hmid, hq⟩ := h ts a mid ha
  cases mid with
  | nil =>
    cases hb
    refine ⟨List.nil_suffix, fun hc => ?_⟩
    have hdeclares : T.Declares := (hc rfl).resolve_right (hunclosed.not_endsClosed ha)
    have hnext : (T.right.next T.after).kind ≠ .punct .semicolon := hdeclares.ne rfl
    rw [quiet_bind, hq fun _ => hdeclares, Option.bind_some]
    dsimp only [List.nil_append]
    rw [quiet_bind, quiet_eat, if_neg hnext]
    rfl
  | cons t mid =>
    dsimp only at hb
    rw [quiet_bind, quiet_eat, next_cons] at hb
    have hright : (q >>= fun a => eat (.punct .semicolon) >>= fun _ => pure (s a)).quiet T.right
      (ts ++ T.after) =
        some (s a, (if t.kind = .punct .semicolon then mid else t :: mid) ++ T.after) := by
      rw [quiet_bind, hq nofun, Option.bind_some]
      dsimp only
      rw [quiet_bind, quiet_eat, List.cons_append, next_cons]
      split <;> rfl
    split at hb
    · next hk =>
      cases hb
      exact ⟨(List.suffix_cons t mid).trans hmid, fun _ => hright.trans (by rw [if_pos hk]; rfl)⟩
    · next hk =>
      cases hb
      exact ⟨hmid, fun _ => hright.trans (by rw [if_neg hk])⟩

theorem exprStatement : LocalStmt T Parser.exprStatement Parser.exprStatement :=
  terminated .expression .expression Stmt.expr

section

variable {self self' : Level → Parser Stmt} (hneeds : ∀ l, Needs (self l))
  (h : ∀ l, LocalStmt T (self l) (self' l))

include h in
theorem blockBody : Local T c (Parser.blockBody self) (Parser.blockBody self') :=
  (h .declaration).inside.recovering.itemsUntil.before (fun _ => .bind .mark fun _ => .pure _)
    fun _ => Needs.mark.bind

include h in
theorem function : Local T c (Parser.function self context) (Parser.function self' context) := by
  have hparams : Local T False
      (Parser.unlessAt (.punct .rparen)
        (Parser.commaList .parameters (Parser.ident "parameter name") 0))
      (Parser.unlessAt (.punct .rparen)
          (Parser.commaList .parameters (Parser.ident "parameter name") 0)) :=
    (Local.ident.commaList False.elim).unlessAt (by simp) False.elim
  refine .bind .ident fun _ => .bind .mark fun _ => hparams.before (fun _ => ?_) fun _ =>
    Needs.mark.bind
  exact .bind .mark fun _ => .bind .mark fun _ => .bind (blockBody h) fun _ => .pure _

include h in
theorem classDecl : Local T c (Parser.classDecl self) (Parser.classDecl self') := by
  refine .bind .ident fun _ =>
    (Local.ident.behind (by simp) False.elim).before (fun _ => ?_) fun _ => Needs.mark.bind
  exact .bind .mark fun _ =>
    (function (c := False) h).itemsUntil.before (fun _ => .bind .mark fun _ => .pure _) fun _ =>
      Needs.mark.bind

include hneeds h

/-- The body is the last part of a loop. -/
theorem forLoop (span : Span) :
    LocalStmt T (Parser.forLoop self span) (Parser.forLoop self' span) := by
  have hclause : ∀ m : Punct, Local T False (Parser.unlessAt (.punct m) Parser.expression)
      (Parser.unlessAt (.punct m) Parser.expression) :=
    fun _ => Local.expression.inside.unlessAt (by simp) False.elim
  have hneedsClause : ∀ m : Punct, Needs (Parser.unlessAt (.punct m) Parser.expression) :=
    fun _ => (Needs.of_alike fun _ => .expression).unlessAt (by simp)
  have hneedsFirst : Needs Parser.forInitializer :=
    (Needs.bind ((Needs.of_alike fun _ => .initialExpression).onKind (by simp))).onKind (by simp)
  refine before (c := False) .mark
    (fun _ => before (c := False) .forInitializer (fun _ => ?_) fun _ => ?_) fun _ =>
    hneedsFirst.bind
  · refine before (hclause _) (fun _ => before (c := False) .mark (fun _ => ?_) fun _ => ?_)
      fun _ => Needs.mark.bind
    · refine before (hclause _) (fun _ => before (c := False) .mark (fun _ => ?_) fun _ => ?_)
        fun _ => Needs.mark.bind
      · exact (h .statement).map _
      · exact (hneeds .statement).bind
    · exact (hneedsClause _).bind
  · exact (hneedsClause _).bind

/-- One case for each keyword that a statement starts with. -/
theorem statementForms (t : Token) :
    Option.Rel (LocalStmt T) (Parser.statementForms self t) (Parser.statementForms self' t) := by
  obtain ⟨kind, span⟩ := t
  cases kind with
  | keyword k =>
    cases k with
    | print => exact .some (terminated .expression .expression fun e => Stmt.print e span)
    | return_ => exact .some (terminated .returnValue .returnValue fun e => Stmt.ret e span)
    | while_ =>
      exact .some
        (before .expression (fun e => (h .statement).map fun body => Stmt.whileLoop e body span)
        fun _ => (hneeds .statement).bind)
    | loop => exact .some (of_local (.bind .mark fun _ => .bind (blockBody h) fun _ => .pure _))
    | for_ => exact .some (forLoop hneeds h span)
    | _ => exact .none
  | punct m =>
    cases m with
    | lbrace => exact .some (of_local (.bind (blockBody h) fun _ => .pure _))
    | _ => exact .none
  | _ => exact .none

theorem statement : LocalStmt T (Parser.statement self) (Parser.statement self') :=
  branch (fun _ => rfl) (fun _ => rfl) (statementForms hneeds h) exprStatement
    (.of_alike fun _ => .exprStatement)

theorem declaration : LocalStmt T (Parser.declaration self) (Parser.declaration self') := by
  refine branch (fun _ => rfl) (fun _ => rfl) (fun t => ?_) (statement hneeds h) ?_
  · obtain ⟨kind, span⟩ := t
    cases kind with
    | keyword k =>
      cases k with
      | class_ => exact .some (of_local (classDecl h))
      | fn => exact .some (of_local (.bind (function h) fun _ => .pure _))
      | var => exact .some (of_local .varDecl)
      | _ => exact .none
    | _ => exact .none
  · exact .branch (fun _ => rfl) (.of_alike fun _ => .exprStatement)

end

/-- By induction on the number of tokens ahead. -/
theorem stmt (l : Level) : LocalStmt T (Parser.stmt l) (Parser.stmt l) := by
  refine LocalAt.fix (fun l => .of_alike fun _ => .stmt l) (fun self self' hneeds h l => ?_) l
  cases l with
  | declaration => exact declaration hneeds h
  | statement => exact statement hneeds h

end LocalStmt

/-! ## Programs -/

/-- One step of reading a program. -/
def declarationStep : Parser (Item (Option Stmt)) := do
  if ← check .eof then
    return .none
  else
    return .more (← recovering (stmt .declaration))

theorem quiet_declarationStep :
    declarationStep.quiet cx ts =
      if (cx.next ts).kind = .eof then some (.none, ts)
      else ((stmt .declaration).quiet cx ts).map fun (s, rest) => (.more (some s), rest) := by
  rw [declarationStep, quiet_bind, quiet_check, Option.bind_some]
  by_cases heof : (cx.next ts).kind = .eof
  · simp [heof]
  · simp only [beq_eq_false_iff_ne.mpr heof, if_neg heof, quiet_bind, quiet_recovering,
      Bool.false_eq_true, if_false]
    cases (stmt .declaration).quiet cx ts <;> rfl

/-- A program is read declaration by declaration. -/
theorem programBody_eq (cx : Context) (ts : List Token) :
    programBody cx ts = (collect (fun _ => declarationStep) 0 cx ts).map fun found =>
      ⟨found.filterMap id⟩ := by
  change (collect (fun _ => declarationStep) 0 >>= fun found =>
      pure (⟨found.filterMap id⟩ : Program)) cx ts = _
  cases h : collect (fun _ => declarationStep) 0 cx ts with
  | ok found s =>
    rw [bind_of_ok h]
    simp [Reply.after, Reply.map, pure]
  | fail e s => rw [bind_of_fail h]; rfl

/-- Where the steps do not ask how many came before, it does not matter where counting starts. -/
theorem collect_const (p : Parser (Item α)) (n m : Nat) (cx : Context) (ts : List Token) :
    collect (fun _ => p) n cx ts = collect (fun _ => p) m cx ts := by
  induction hlen : ts.length using Nat.strongRecOn generalizing ts n m with
  | ind k ih =>
    rw [collect, collect]
    cases p cx ts with
    | fail => rfl
    | ok item s =>
      cases item with
      | none => rfl
      | last a => rfl
      | more a =>
        dsimp only
        split
        · next hlt => rw [ih s.ahead.length (hlen ▸ hlt) (n + 1) (m + 1) s.ahead rfl]
        · rfl

/-- What was read without errors from `ts` is read where `ts` goes on, and after it what is read
from there alone. -/
theorem declarations_append
    (hts : (collect (fun _ => declarationStep) n).quiet T.left ts = some (found, []))
    (hapart : ts ≠ [] → T.SetApart ts) :
    ∃ notes, notes.filterMap Note.error? = [] ∧
      collect (fun _ => declarationStep) n T.right (ts ++ T.after) =
      ((collect (fun _ => declarationStep) 0 T.right T.after).map (found ++ ·)).after notes := by
  induction hlen : ts.length using Nat.strongRecOn generalizing ts n found with
  | ind k ih =>
    cases ts with
    | nil =>
      rw [quiet_collect, quiet_declarationStep,
        if_pos (show (T.left.next []).kind = .eof from rfl)] at hts
      cases hts
      refine ⟨[], rfl, ?_⟩
      rw [List.nil_append, collect_const declarationStep n 0]
      cases collect (fun _ => declarationStep) 0 T.right T.after <;> rfl
    | cons t ts =>
      rw [quiet_collect, quiet_declarationStep, next_cons] at hts
      by_cases heof : t.kind = .eof
      · rw [if_pos heof] at hts
        cases hts
      rw [if_neg heof] at hts
      cases hs : (stmt .declaration).quiet T.left (t :: ts) with
      | none => rw [hs] at hts; cases hts
      | some r =>
        obtain ⟨s, mid⟩ := r
        rw [hs] at hts
        dsimp only [Option.map_some] at hts
        split at hts
        · next hlt =>
          obtain ⟨⟨found', rest'⟩, hmore, heq⟩ := Option.map_eq_some_iff.mp hts
          cases heq
          obtain ⟨hsuffix, hright⟩ := LocalStmt.stmt .declaration _ s mid hs
          have hstep : declarationStep.quiet T.right (t :: ts ++ T.after) =
              some (.more (some s), mid ++ T.after) := by
            rw [quiet_declarationStep, hright fun _ => hapart nofun]
            exact if_neg heof
          obtain ⟨st, hst, hahead, herrors⟩ := quiet_eq_some_iff.mp hstep
          obtain ⟨notes, hnotes, hrest⟩ :=
            ih mid.length (hlen ▸ hlt) hmore (fun hne => (hapart nofun).suffix hsuffix hne) rfl
          refine ⟨st.notes ++
            notes, by rw [List.filterMap_append, hnotes, List.append_nil]; exact herrors, ?_⟩
          have hless : st.ahead.length < (t :: ts ++ T.after).length := by
            simp only [hahead, List.length_append, List.length_cons] at hlt ⊢
            omega
          rw [collect, hst]
          dsimp only
          rw [if_pos hless, hahead, hrest]
          cases collect (fun _ => declarationStep) 0 T.right T.after <;>
            simp [Reply.map, Reply.after]
        · cases hts

/-- A program that was read without errors is read as before where another one follows that is set
apart from it; this one is read as it is alone, whatever is wrong with it. -/
theorem programBody_append {a : Program} (hts : programBody.quiet T.left ts = some (a, []))
    (hapart : T.SetApart ts) :
    ∃ notes, notes.filterMap Note.error? = [] ∧ programBody T.right (ts ++ T.after) =
      ((programBody T.right T.after).map fun b => ⟨a.statements ++ b.statements⟩).after notes := by
  rw [quiet, programBody_eq, Reply.quiet_map] at hts
  obtain ⟨⟨found, left⟩, hfound, heq⟩ := Option.map_eq_some_iff.mp hts
  cases heq
  obtain ⟨notes, hnotes, happend⟩ := declarations_append hfound fun _ => hapart
  refine ⟨notes, hnotes, ?_⟩
  rw [programBody_eq, programBody_eq, happend]
  cases collect (fun _ => declarationStep) 0 T.right T.after <;> simp [Reply.map, Reply.after]

/-- Programs that are set apart from each other are read one behind the other as they are read
alone. -/
theorem quiet_programBody_append {a b : Program} (hts : programBody.quiet T.left ts = some (a, []))
    (hafter : programBody.quiet T.right T.after = some (b, rest)) (hapart : T.SetApart ts) :
    programBody.quiet T.right (ts ++ T.after) = some (⟨a.statements ++ b.statements⟩, rest) := by
  obtain ⟨notes, hnotes, happend⟩ := programBody_append hts hapart
  have hquiet := Reply.quiet_after
    ((programBody T.right T.after).map fun b => (⟨a.statements ++ b.statements⟩ : Program))
    ⟨[], notes⟩
  rw [State.errors, hnotes, Reply.quiet_map] at hquiet
  rw [quiet] at hafter ⊢
  rw [happend, hquiet, hafter]
  rfl

end Parser

end TreeWalk
