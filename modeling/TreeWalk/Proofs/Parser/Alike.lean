import TreeWalk.Proofs.Link
import TreeWalk.Proofs.Parser.Quiet

/-!
# Parsing does not look at names and places

A parser looks at the kinds of tokens, and neither at the names in them nor at their places. `Alike
P n c V p q` says so of two parsers at once: on fewer than `n` tokens, `q` does on linked tokens
what `p` does, with linked values, errors and remaining tokens. Being about two parsers it also
holds of a recursive parser and its approximations, which answer alike on inputs that are short
enough (`Alike.fix_unrolled`). The number `c` counts tokens that are certainly read. What is left
over are always the last ones of the tokens ahead.
-/

namespace TreeWalk

/-- Marks and reserved words, which have no name in them. -/
def TokenKind.isFixed : TokenKind → Bool
  | .punct _ | .keyword _ => true
  | _ => false

namespace TokenKind.Linked

variable {L : Link}

/-- Whether a token is a certain mark or keyword does not depend on names. -/
theorem beq_eq (h : TokenKind.Linked L k k') (hm : m.isFixed = true) : (k == m) = (k' == m) := by
  cases h with
  | ident | str => cases m <;> first | rfl | cases hm
  | _ => rfl

theorem beq_eof (h : TokenKind.Linked L k k') : (k == .eof) = (k' == .eof) := by
  cases h <;> rfl

theorem isEof_eq (h : TokenKind.Linked L k k') : k.isEof = k'.isEof := by
  cases h <;> rfl

theorem beginsExpr_eq (h : TokenKind.Linked L k k') : k.beginsExpr = k'.beginsExpr := by
  cases h <;> rfl

theorem beginsDecl_eq (h : TokenKind.Linked L k k') : k.beginsDecl = k'.beginsDecl := by
  cases h <;> rfl

theorem unaryOp_eq (h : TokenKind.Linked L k k') : UnaryOp.ofToken? k = UnaryOp.ofToken? k' := by
  cases h <;> rfl

theorem binaryOp_eq (h : TokenKind.Linked L k k') : BinaryOp.ofToken? k = BinaryOp.ofToken? k' := by
  cases h <;> rfl

/-- A token that is a constant is one on both sides, with linked strings. -/
theorem literal_linked (h : TokenKind.Linked L k k') :
    Option.Rel (Literal.Linked L) (Parser.literalOf? k) (Parser.literalOf? k') := by
  cases h with
  | @keyword k =>
    cases k with
    | nil => exact .some .nil
    | true_ | false_ => exact .some .bool
    | _ => exact .none
  | number => exact .some .number
  | str hx => exact .some (.str hx)
  | _ => exact .none

end TokenKind.Linked

namespace Parser

variable {α β γ δ : Type}

/-! ## Two runs -/

/-- Two settings in which tokens are read, how the tokens in one stand for those in the other, and
how errors do. -/
structure Pairing extends Link where
  left : Context
  right : Context
  error : ParseError → ParseError → Prop
  finish : span left.finish right.finish
  merge {a b c d} : span a b → span c d → span (a.merge c) (b.merge d)
  errors {a b} (make : String → Span → ParseError) : span a b →
    error (make (a.slice left.source) a) (make (b.slice right.source) b)

/-- Notes of one kind, with errors that go together. -/
inductive Note.Linked (P : Pairing) : Note → Note → Prop where
  | error : P.error e e' → Linked P (.error e) (.error e')
  | resumed : P.span a b → Linked P (.resumed a) (.resumed b)

/-- Linked tokens ahead, and notes that go together. -/
structure State.Linked (P : Pairing) (s t : State) : Prop where
  ahead : List.Forall₂ (Token.Linked P.toLink) s.ahead t.ahead
  notes : List.Forall₂ (Note.Linked P) s.notes t.notes

/-- What is left of the tokens `ts` when at least `c` of them have been read. -/
structure Leaves (c : Nat) (ts ahead : List Token) : Prop where
  suffix : ahead <:+ ts
  length : ahead.length + c ≤ ts.length

/-- Linked answers to the tokens `ts`, at least `c` of which were read if the answer is a value. -/
inductive Reply.Linked (P : Pairing) (c : Nat) (ts : List Token) (V : α → β → Prop) :
    Reply α → Reply β → Prop where
  | ok : V a b → State.Linked P s t → Leaves c ts s.ahead → Linked P c ts V (.ok a s) (.ok b t)
  | fail : P.error e e' → State.Linked P s t → s.ahead <:+ ts →
      Linked P c ts V (.fail e s) (.fail e' t)

/-- On fewer than `n` tokens, `q` does on linked tokens what `p` does. At least `c` tokens are read.
-/
def Alike (P : Pairing) (n c : Nat) (V : α → β → Prop) (p : Parser α) (q : Parser β) : Prop :=
  ∀ ts us, ts.length < n → List.Forall₂ (Token.Linked P.toLink) ts us →
    Reply.Linked P c ts V (p P.left ts) (q P.right us)

/-- Linked items. -/
inductive Item.Rel (V : α → β → Prop) : Item α → Item β → Prop where
  | none : Rel V .none .none
  | last : V a b → Rel V (.last a) (.last b)
  | more : V a b → Rel V (.more a) (.more b)

/-- The approximations to a recursive parser: its steps on top of any parsers. -/
def unrolled {ι : Type} (step : (ι → Parser α) → ι → Parser α) (base : ι → Parser α) :
    Nat → ι → Parser α
  | 0, i => base i
  | n + 1, i => step (unrolled step base n) i

variable {P : Pairing} {n c : Nat} {V : α → β → Prop} {W : γ → δ → Prop} {p : Parser α}
  {q : Parser β}

theorem Leaves.all (ts : List Token) : Leaves 0 ts ts :=
  ⟨List.suffix_refl ts, Nat.le_refl _⟩

/-- Counted from an earlier token, more has been read. -/
theorem Leaves.mono (h : Leaves c ts ahead) (hsuffix : ts <:+ us)
    (hd : ts.length + d ≤ us.length + c) :
    Leaves d us ahead := by
  have hlength := h.length
  exact ⟨h.suffix.trans hsuffix, by omega⟩

theorem Reply.Linked.mono {r : Reply α} {r' : Reply β} (h : Reply.Linked P c ts V r r')
    (hsuffix : ts <:+ us) (hd : ts.length + d ≤ us.length + c) : Reply.Linked P d us V r r' := by
  cases h with
  | ok hv hs hleft => exact .ok hv hs (hleft.mono hsuffix hd)
  | fail he hs hleft => exact .fail he hs (hleft.trans hsuffix)

/-- Notes from before are put in front on both sides. -/
theorem Reply.Linked.after {r : Reply α} {r' : Reply β} (h : Reply.Linked P c ts V r r')
    (hn : List.Forall₂ (Note.Linked P) ns ns') :
    Reply.Linked P c ts V (r.after ns) (r'.after ns') := by
  cases h with
  | ok hv hs hleft => exact .ok hv ⟨hs.ahead, List.rel_append hn hs.notes⟩ hleft
  | fail he hs hleft => exact .fail he ⟨hs.ahead, List.rel_append hn hs.notes⟩ hleft

/-- At the end of the input both see the end. -/
theorem next_linked (h : List.Forall₂ (Token.Linked P.toLink) ts us) :
    (P.left.next ts).Linked P.toLink (P.right.next us) := by
  cases h with
  | nil => exact ⟨.eof, P.finish⟩
  | cons ht _ => exact ht

theorem Alike.state (h : List.Forall₂ (Token.Linked P.toLink) ts us) :
    State.Linked P ⟨ts, []⟩ ⟨us, []⟩ :=
  ⟨h, .nil⟩

namespace Alike

theorem mono (h : Alike P n c V p q) (hn : m ≤ n) (hd : d ≤ c) : Alike P m d V p q :=
  fun ts us hts h' => (h ts us (by omega) h').mono (List.suffix_refl _) (by omega)

/-- Tokens that are certainly read need not be counted. -/
theorem loose (h : Alike P n c V p q) : Alike P n 0 V p q :=
  h.mono (Nat.le_refl n) (Nat.zero_le c)

theorem shorter (h : Alike P n c V p q) : Alike P (n - 1) c V p q :=
  h.mono (Nat.sub_le n 1) (Nat.le_refl c)

theorem pure (h : V a b) : Alike P n 0 V (Pure.pure a : Parser α) (Pure.pure b) :=
  fun _ _ _ hus => .ok h (state hus) (.all _)

theorem fail {e : String → Span → ParseError} : Alike P n c V (failHere e) (failHere e) :=
  fun _ _ _ hus => .fail (P.errors e (next_linked hus).span) (state hus) (List.suffix_refl _)

/-- Tokens that are certainly read add up. -/
theorem seq {f : α → Parser γ} {g : β → Parser δ} (hp : Alike P n c V p q)
    (hf : ∀ a b, V a b → Alike P n d W (f a) (g b)) : Alike P n (c + d) W (p >>= f) (q >>= g) := by
  intro ts us hts hus
  have hr := hp ts us hts hus
  generalize hp' : p P.left ts = r at hr
  generalize hq' : q P.right us = r' at hr
  cases hr with
  | @ok a b s t hv hs hleft =>
    have hlength := hleft.length
    rw [bind_of_ok hp', bind_of_ok hq']
    have hnext := hf a b hv s.ahead t.ahead (by omega) hs.ahead
    exact (hnext.after hs.notes).mono hleft.suffix (by omega)
  | fail he hs hleft =>
    rw [bind_of_fail hp', bind_of_fail hq']
    exact .fail he hs hleft

theorem bind {f : α → Parser γ} {g : β → Parser δ} (hp : Alike P n c V p q)
    (hf : ∀ a b, V a b → Alike P n 0 W (f a) (g b)) : Alike P n c W (p >>= f) (q >>= g) :=
  hp.seq hf

/-- Where the second parser certainly reads a token, the first one need not. -/
theorem before {f : α → Parser γ} {g : β → Parser δ} (hp : Alike P n 0 V p q)
    (hf : ∀ a b, V a b → Alike P n c W (f a) (g b)) : Alike P n c W (p >>= f) (q >>= g) :=
  (hp.seq hf).mono (Nat.le_refl n) (by omega)

/-! ## Single tokens -/

theorem peek : Alike P n 0 (Token.Linked P.toLink) Parser.peek Parser.peek :=
  fun _ _ _ hus => .ok (next_linked hus) (state hus) (.all _)

theorem check (hk : k.isFixed = true) : Alike P n 0 Eq (Parser.check k) (Parser.check k) :=
  fun _ _ _ hus => .ok ((next_linked hus).kind.beq_eq hk) (state hus) (.all _)

theorem checkEnd : Alike P n 0 Eq (Parser.check .eof) (Parser.check .eof) :=
  fun _ _ _ hus => .ok (next_linked hus).kind.beq_eof (state hus) (.all _)

theorem ends (close : Punct) : Alike P n 0 Eq (Parser.ends close) (Parser.ends close) := by
  intro ts us _ hus
  have hempty : ts.isEmpty = us.isEmpty := by cases hus <;> rfl
  refine .ok ?_ (state hus) (.all _)
  rw [(next_linked hus).kind.beq_eq rfl, hempty]

theorem report {e : Span → ParseError} (h : P.span a b) :
    Alike P n 0 (fun _ _ => True) (Parser.report (e a)) (Parser.report (e b)) :=
  fun _ _ _ hus => .ok trivial ⟨hus, .cons (.error (P.errors (fun _ => e) h)) .nil⟩ (.all _)

/-- What comes behind the next token is read with one token fewer. -/
theorem branch {forms : Token → Option (Parser α)} {forms' : Token → Option (Parser β)}
    (hend : ∀ span, forms ⟨.eof, span⟩ = none)
    (hforms : ∀ t u, t.Linked P.toLink u → Option.Rel (Alike P (n - 1) 0 V) (forms t) (forms' u))
    (ho : Alike P n c V p q) (hc : c ≤ 1) :
    Alike P n c V (Parser.branch forms p) (Parser.branch forms' q) := by
  intro ts us hts hus
  have hform := hforms _ _ (next_linked hus)
  unfold Parser.branch
  cases hus with
  | nil =>
    generalize hf' : forms' (P.right.next []) = r' at hform
    rw [show forms (P.left.next []) = none from hend _] at hform ⊢
    cases hform
    exact ho [] [] hts .nil
  | @cons t u ts us ht hrest =>
    generalize hf : forms (P.left.next (t :: ts)) = r at hform
    generalize hf' : forms' (P.right.next (u :: us)) = r' at hform
    cases hform with
    | none => exact ho _ _ hts (.cons ht hrest)
    | some hpq =>
      rw [List.length_cons] at hts
      exact (hpq ts us (by omega) hrest).mono (List.suffix_cons t ts)
        (by rw [List.length_cons]; omega)

/-- The token is read by one of the two forms, so this counts only where the other reads one too. -/
theorem onKind {f : Token → Parser α} {g : Token → Parser β} (hk : kind.isFixed = true)
    (hf : ∀ t u, t.Linked P.toLink u → Alike P (n - 1) 0 V (f t) (g u)) (ho : Alike P n c V p q)
    (hc : c ≤ 1) :
    Alike P n c V (Parser.onKind kind f p) (Parser.onKind kind g q) := by
  refine branch (fun span => ?_) (fun t u h => ?_) ho hc
  · cases kind <;> first | rfl | cases hk
  · rw [← h.kind.beq_eq hk]
    split
    · exact .some (hf t u h)
    · exact .none

theorem expect (hk : kind.isFixed = true) :
    Alike P n 1 (Token.Linked P.toLink) (Parser.expect kind context) (Parser.expect kind context) :=
  onKind hk (fun _ _ h => .pure h) .fail (Nat.le_refl 1)

theorem mark :
    Alike P n 1 (Token.Linked P.toLink) (Parser.mark m context) (Parser.mark m context) :=
  expect rfl

theorem word :
    Alike P n 1 (Token.Linked P.toLink) (Parser.word k context) (Parser.word k context) :=
  expect rfl

theorem eat (hk : kind.isFixed = true) : Alike P n 0 Eq (Parser.eat kind) (Parser.eat kind) :=
  onKind hk (fun _ _ _ => .pure rfl) (.pure rfl) (Nat.zero_le 1)

theorem ident :
    Alike P n 1 (Ident.Linked P.toLink) (Parser.ident context) (Parser.ident context) := by
  refine branch (fun _ => rfl) ?_ .fail (Nat.le_refl 1)
  rintro ⟨k, a⟩ ⟨k', b⟩ ⟨hkind, hspan⟩
  cases hkind with
  | ident hx => exact .some (.pure ⟨hx, hspan⟩)
  | _ => exact .none

/-! ## Repetition -/

/-- By induction on the number of tokens ahead. -/
theorem collect {step : Nat → Parser (Item α)} {step' : Nat → Parser (Item β)}
    (h : ∀ k, Alike P n 0 (Item.Rel V) (step k) (step' k)) (k : Nat) :
    Alike P n 0 (List.Forall₂ V) (Parser.collect step k) (Parser.collect step' k) := by
  intro ts us hts hus
  -- One step reads no more than there is, so the induction is on the number of tokens.
  induction hm : ts.length using Nat.strongRecOn generalizing ts us k with
  | ind m ih =>
    subst hm
    have hr := h k ts us hts hus
    rw [Parser.collect, Parser.collect]
    generalize hp : step k P.left ts = r at hr
    generalize hq : step' k P.right us = r' at hr
    cases hr with
    | fail he hs hleft => exact .fail he hs hleft
    | @ok item item' s t hitem hs hleft =>
      cases hitem with
      | none => exact .ok .nil hs hleft
      | last hv => exact .ok (.cons hv .nil) hs hleft
      | @more a b hv =>
        have hlength := hleft.length
        dsimp only
        rw [← hus.length_eq, ← hs.ahead.length_eq]
        split
        · next hlt =>
          have hrest := ih _ hlt (k + 1) s.ahead t.ahead (by omega) hs.ahead rfl
          generalize Parser.collect step (k + 1) P.left s.ahead = r at hrest
          generalize Parser.collect step' (k + 1) P.right t.ahead = r' at hrest
          refine Reply.Linked.after ?_ hs.notes
          cases hrest with
          | ok hvs hs' hleft' => exact .ok (.cons hv hvs) hs' (hleft'.mono hleft.suffix (by omega))
          | fail he hs' hleft' => exact .fail he hs' (hleft'.trans hleft.suffix)
        · have hstuck : Alike P (ts.length + 1) 0 (List.Forall₂ V) stuck stuck := .fail
          exact ((hstuck s.ahead t.ahead (by omega) hs.ahead).mono hleft.suffix (by omega)).after
            hs.notes

/-- A limit on the tokens ahead is not felt by inputs that are shorter. -/
theorem below (h : Alike P n c V p q) : Alike P n c V (Parser.below n p) q := by
  intro ts us hts hus
  rw [Parser.below, if_pos hts]
  exact h ts us hts hus

theorem below_right (h : Alike P n c V p q) : Alike P n c V p (Parser.below n q) := by
  intro ts us hts hus
  rw [Parser.below, if_pos (by rwa [← hus.length_eq])]
  exact h ts us hts hus

omit P V W in
/-- A recursive parser calls itself on fewer tokens than it was given. -/
theorem fix_eq {ι : Type} (step : (ι → Parser α) → ι → Parser α) (i : ι) (cx : Context)
    (ts : List Token) :
    Parser.fix step i cx ts = step (fun j => Parser.below ts.length (Parser.fix step j))
      i cx ts := by
  rw [Parser.fix]
  rfl

section

variable {ι : Type} {step : (ι → Parser α) → ι → Parser α} {V : α → α → Prop}

variable (hstep : ∀ n self self', (∀ j, Alike P n c V (self j) (self' j)) →
  ∀ i, Alike P (n + 1) c V (step self i) (step self' i))
include hstep

/-- By induction on the number of tokens: the calls inside have fewer. -/
theorem fix_fix (n : Nat) (i : ι) : Alike P n c V (Parser.fix step i) (Parser.fix step i) := by
  induction n generalizing i with
  | zero => exact fun ts us hts => absurd hts (Nat.not_lt_zero _)
  | succ n ih =>
    intro ts us hts hus
    rw [fix_eq, fix_eq, ← hus.length_eq]
    have hself : ∀ j, Alike P ts.length c V (Parser.fix step j) (Parser.fix step j) :=
      fun j => (ih j).mono (Nat.le_of_lt_succ hts) (Nat.le_refl c)
    exact hstep ts.length _ _ (fun j => (hself j).below.below_right) i ts us
      (Nat.lt_succ_self _) hus

/-- Inside, the recursive parser is called on shorter inputs only. -/
theorem fix_with {self' : ι → Parser α} (h : ∀ j, Alike P n c V (Parser.fix step j) (self' j))
    (i : ι) :
    Alike P (n + 1) c V (Parser.fix step i) (step self' i) := by
  intro ts us hts hus
  rw [fix_eq]
  have hself : ∀ j, Alike P ts.length c V (Parser.fix step j) (self' j) :=
    fun j => (h j).mono (Nat.le_of_lt_succ hts) (Nat.le_refl c)
  exact hstep ts.length _ _ (fun j => (hself j).below) i ts us (Nat.lt_succ_self _) hus

theorem fix_step (n : Nat) (i : ι) :
    Alike P (n + 1) c V (Parser.fix step i) (step (Parser.fix step) i) :=
  fix_with hstep (fix_fix hstep n) i

/-- On fewer than `n` tokens, a recursive parser is what `n` unfoldings of it do, whatever stands at
their bottom. -/
theorem fix_unrolled (base : ι → Parser α) (n : Nat) (i : ι) :
    Alike P n c V (Parser.fix step i) (unrolled step base n i) := by
  induction n generalizing i with
  | zero => exact fun ts us hts => absurd hts (Nat.not_lt_zero _)
  | succ n ih => exact fix_with hstep ih i

end

/-! ## Lists -/

theorem limit : Alike P n 0 (fun _ _ => True) (Parser.limit kind k) (Parser.limit kind k) := by
  unfold Parser.limit
  split
  · exact .bind .peek fun _ _ h => .report (e := .tooManyItems kind) h.span
  · exact .pure trivial

/-- Both see the end of the list at the same token. -/
theorem unlessAtEnd {p : Parser (Item α)} {q : Parser (Item β)} {atEnd atEnd' : Parser Bool}
    (hend : Alike P n 0 Eq atEnd atEnd') (h : Alike P n 0 (Item.Rel V) p q) :
    Alike P n 0 (Item.Rel V) (do if ← atEnd then return .none else p)
      (do if ← atEnd' then return .none else q) := by
  refine .bind hend ?_
  rintro b _ rfl
  cases b with
  | true => exact .pure .none
  | false => exact h

section

variable (h : Alike P n c V p q)
include h

theorem itemThen : Alike P n c (Item.Rel V) (Parser.itemThen sep p) (Parser.itemThen sep q) := by
  refine .bind h fun a b hab => .bind (.eat rfl) ?_
  rintro more _ rfl
  cases more with
  | true => exact .pure (.more hab)
  | false => exact .pure (.last hab)

theorem commaList :
    Alike P n 0 (List.Forall₂ V) (Parser.commaList kind p k) (Parser.commaList kind q k) :=
  .collect (fun _ => .bind .limit fun _ _ _ => h.itemThen.loose) k

theorem items :
    Alike P n 0 (List.Forall₂ V) (Parser.items sep close p) (Parser.items sep close q) :=
  .collect (fun _ => .unlessAtEnd (.ends close) h.itemThen.loose) 0

theorem more : Alike P n 0 (Item.Rel V) (do return .more (← p)) (do return .more (← q)) :=
  .bind h.loose fun _ _ hab => .pure (.more hab)

theorem itemsUntil :
    Alike P n 0 (List.Forall₂ V) (Parser.itemsUntil close p) (Parser.itemsUntil close q) :=
  .collect (fun _ => .unlessAtEnd (.ends close) h.more) 0

/-- The items and the mark that closes them. -/
theorem closed :
    Alike P n 0 (List.Forall₂ V) (Parser.closed sep close context p)
      (Parser.closed sep close context q) :=
  .bind h.items fun _ _ has => .bind Alike.mark.loose fun _ _ _ => .pure has

theorem delimited :
    Alike P n 1 (List.Forall₂ V) (Parser.delimited opening sep close context p)
      (Parser.delimited opening sep close context q) :=
  .bind .mark fun _ _ _ => h.closed

theorem unlessAt (hk : kind.isFixed = true) :
    Alike P n 0 (Option.Rel V) (Parser.unlessAt kind p) (Parser.unlessAt kind q) := by
  refine .bind (.check hk) ?_
  rintro b _ rfl
  cases b with
  | true => exact .pure .none
  | false => exact .bind h.loose fun _ _ hab => .pure (.some hab)

theorem behind (hk : kind.isFixed = true) :
    Alike P n 0 (Option.Rel V) (Parser.behind kind p) (Parser.behind kind q) :=
  .onKind hk (fun _ _ _ => .bind h.loose.shorter fun _ _ hab => .pure (.some hab)) (.pure .none)
    (Nat.zero_le 1)

end

/-! ## Patterns -/

theorem negativeNumber (hs : P.span a b) :
    Alike P n 1 (Pattern.Linked P.toLink) (Parser.negativeNumber a) (Parser.negativeNumber b) := by
  refine .branch (fun _ => rfl) ?_ .fail (Nat.le_refl 1)
  rintro ⟨k, a⟩ ⟨k', b⟩ ⟨hkind, hspan⟩
  cases hkind with
  | number => exact .some (.pure (.literal .number (P.merge hs hspan)))
  | _ => exact .none

section

variable {self self' : Parser Pattern} (h : Alike P n 1 (Pattern.Linked P.toLink) self self')
include h

theorem namedPattern (hn : Ident.Linked P.toLink x y) :
    Alike P n 0 (Pattern.Linked P.toLink) (Parser.namedPattern self x)
      (Parser.namedPattern self' y) := by
  refine .bind (h.behind rfl) fun r r' hr => ?_
  cases hr with
  | none => exact .pure (.var hn)
  | some hp => exact .pure (.named hn hp)

/-- A comma behind the first pattern makes a tuple. -/
theorem parenPatternRest (hs : P.span a b) (hfirst : Pattern.Linked P.toLink first first') :
    Alike P n 0 (Pattern.Linked P.toLink) (Parser.parenPatternRest self a first)
      (Parser.parenPatternRest self' b first') := by
  refine .bind (.eat rfl) ?_
  rintro more _ rfl
  cases more with
  | true =>
    refine .bind (.collect (fun _ => h.itemThen.loose) 1) fun _ _ hrest =>
      .bind Alike.mark.loose fun _ _ _ => ?_
    exact .pure (.tuple (.cons hfirst hrest) hs)
  | false => exact .bind Alike.mark.loose fun _ _ _ => .pure hfirst

theorem parenPattern (hs : P.span a b) :
    Alike P n 0 (Pattern.Linked P.toLink) (Parser.parenPattern self a)
      (Parser.parenPattern self' b) :=
  .onKind rfl (fun _ _ ht => .pure (.unit (P.merge hs ht.span)))
    (.bind h.loose fun _ _ hfirst => h.parenPatternRest hs hfirst) (Nat.zero_le 1)

/-- The kind of the next token chooses the form, and marks are never linked to anything else. -/
theorem patternForms (ht : Token.Linked P.toLink t u) :
    Option.Rel (Alike P n 0 (Pattern.Linked P.toLink)) (Parser.patternForms self t)
      (Parser.patternForms self' u) := by
  obtain ⟨k, a⟩ := t
  obtain ⟨k', b⟩ := u
  obtain ⟨hkind, hs⟩ := ht
  cases hkind with
  | @punct m =>
    cases m with
    | underscore => exact .some (.pure (.wild hs))
    | minus => exact .some (Alike.negativeNumber hs).loose
    | lparen => exact .some (h.parenPattern hs)
    | lbracket => exact .some (.bind h.closed fun _ _ hps => .pure (.vector hps hs))
    | _ => exact .none
  | @keyword k =>
    cases k with
    | nil => exact .some (.pure (.unit hs))
    | true_ | false_ => exact .some (.pure (.literal .bool hs))
    | _ => exact .none
  | number => exact .some (.pure (.literal .number hs))
  | str hx => exact .some (.pure (.literal (.str hx) hs))
  | ident hx => exact .some (h.namedPattern ⟨hx, hs⟩)
  | eof => exact .none

theorem patternStep :
    Alike P (n + 1) 1 (Pattern.Linked P.toLink) (Parser.patternStep self)
      (Parser.patternStep self') :=
  .branch (fun _ => rfl) (fun _ _ => h.patternForms) .fail (Nat.le_refl 1)

end

/-- Patterns, as the fixed point of one step. -/
theorem pattern : Alike P n 1 (Pattern.Linked P.toLink) Parser.pattern Parser.pattern :=
  fix_fix (fun _ _ _ hself _ => (hself ()).patternStep) n ()

/-! ## Expressions -/

theorem superForm (hs : P.span a b) :
    Alike P n 0 (Expr.Linked P.toLink) (Parser.superForm a) (Parser.superForm b) :=
  .bind Alike.mark.loose fun _ _ _ => .bind Alike.ident.loose fun _ _ hn => .pure (.super hn hs)

section

variable {self self' : Parser Expr} (h : Alike P n 1 (Expr.Linked P.toLink) self self')
include h

theorem letForm (hs : P.span a b) :
    Alike P n 0 (Expr.Linked P.toLink) (Parser.letForm self a) (Parser.letForm self' b) :=
  .bind Alike.ident.loose fun _ _ hn => .bind Alike.mark.loose fun _ _ _ =>
    .bind h.loose fun _ _ hd =>
    .bind Alike.word.loose fun _ _ _ => .bind h.loose fun _ _ he => .pure (.letIn hn hd he hs)

theorem ifForm (hs : P.span a b) :
    Alike P n 0 (Expr.Linked P.toLink) (Parser.ifForm self a) (Parser.ifForm self' b) :=
  .bind h.loose fun _ _ hc => .bind Alike.word.loose fun _ _ _ => .bind h.loose fun _ _ hy =>
    .bind Alike.word.loose fun _ _ _ => .bind h.loose fun _ _ hn => .pure (.cond hc hy hn hs)

theorem caseArm :
    Alike P n 1 (CaseArm.Linked P.toLink) (Parser.caseArm self) (Parser.caseArm self') :=
  .bind .pattern fun _ _ hp => .bind (h.behind rfl) fun _ _ hg =>
    .bind Alike.word.loose fun _ _ _ => .bind h.loose fun _ _ he => .pure (.mk hp hg he)

theorem caseForm (hs : P.span a b) :
    Alike P n 0 (Expr.Linked P.toLink) (Parser.caseForm self a) (Parser.caseForm self' b) :=
  .bind h.loose fun _ _ he => .bind Alike.word.loose fun _ _ _ =>
    .bind h.caseArm.delimited.loose fun _ _ has =>
    .pure (.case he has hs)

theorem parenRest (hs : P.span a b) (hfirst : Expr.Linked P.toLink first first') :
    Alike P n 0 (Expr.Linked P.toLink) (Parser.parenRest self a first)
      (Parser.parenRest self' b first') := by
  refine .bind (.eat rfl) ?_
  rintro more _ rfl
  cases more with
  | true =>
    exact .bind h.commaList fun _ _ hrest => .bind Alike.mark.loose fun _ _ _ =>
      .pure (.tuple (.cons hfirst hrest) hs)
  | false => exact .bind Alike.mark.loose fun _ _ _ => .pure (.grouping hfirst hs)

theorem parenForm (hs : P.span a b) :
    Alike P n 0 (Expr.Linked P.toLink) (Parser.parenForm self a) (Parser.parenForm self' b) :=
  .onKind rfl (fun _ _ ht => .pure (.literal .nil (P.merge hs ht.span)))
    (.bind h.loose fun _ _ hfirst => h.parenRest hs hfirst) (Nat.zero_le 1)

/-- The forms with a keyword or a bracket in front. -/
theorem compoundForms (ht : Token.Linked P.toLink t u) :
    Option.Rel (Alike P n 0 (Expr.Linked P.toLink)) (Parser.compoundForms self t)
      (Parser.compoundForms self' u) := by
  obtain ⟨k, a⟩ := t
  obtain ⟨k', b⟩ := u
  obtain ⟨hkind, hs⟩ := ht
  cases hkind with
  | @keyword k =>
    cases k with
    | let_ => exact .some (h.letForm hs)
    | do_ => exact .some (.bind h.delimited.loose fun _ _ hes => .pure (.seq hes hs))
    | if_ => exact .some (h.ifForm hs)
    | case => exact .some (h.caseForm hs)
    | super => exact .some (.superForm hs)
    | this => exact .some (.pure (.this hs))
    | _ => exact .none
  | @punct m =>
    cases m with
    | lbracket => exact .some (.bind h.closed fun _ _ hes => .pure (.vector hes hs))
    | lparen => exact .some (h.parenForm hs)
    | _ => exact .none
  | ident hx => exact .some (.pure (.var ⟨hx, hs⟩))
  | _ => exact .none

theorem primary :
    Alike P (n + 1) 1 (Expr.Linked P.toLink) (Parser.primary self) (Parser.primary self') := by
  refine .branch (fun _ => rfl) (fun t u ht => ?_) .fail (Nat.le_refl 1)
  have hliteral := ht.kind.literal_linked
  unfold primaryForms
  generalize literalOf? t.kind = r at hliteral
  generalize literalOf? u.kind = r' at hliteral
  cases hliteral with
  | some hv => exact .some (.pure (.literal hv ht.span))
  | none => exact h.compoundForms ht

theorem arguments :
    Alike P n 0 (List.Forall₂ (Expr.Linked P.toLink)) (Parser.arguments self)
      (Parser.arguments self') := by
  refine .bind (h.commaList.unlessAt rfl) fun _ _ hargs => .bind Alike.mark.loose fun _ _ _ => ?_
  cases hargs with
  | none => exact .pure .nil
  | some hargs => exact .pure hargs

/-- Linked suffixes. -/
inductive SuffixLinked (L : Link) : Suffix → Suffix → Prop where
  | call : List.Forall₂ (Expr.Linked L) es es' → L.span a b →
      SuffixLinked L (.call es a) (.call es' b)
  | get : Ident.Linked L x y → SuffixLinked L (.get x) (.get y)

theorem suffixForms (ht : Token.Linked P.toLink t u) :
    Option.Rel (Alike P n 0 (Item.Rel (SuffixLinked P.toLink))) (Parser.suffixForms self t)
      (Parser.suffixForms self' u) := by
  obtain ⟨k, a⟩ := t
  obtain ⟨k', b⟩ := u
  obtain ⟨hkind, hs⟩ := ht
  cases hkind with
  | @punct m =>
    cases m with
    | lparen => exact .some (.bind h.arguments fun _ _ hes => .pure (.more (.call hes hs)))
    | dot => exact .some (.bind Alike.ident.loose fun _ _ hn => .pure (.more (.get hn)))
    | _ => exact .none
  | _ => exact .none

omit h in
/-- Calls and properties are put around the expression from the left. -/
theorem applySuffixes (he : Expr.Linked L e e') (hss : List.Forall₂ (SuffixLinked L) ss ss') :
    (ss.foldl Suffix.apply e).Linked L (ss'.foldl Suffix.apply e') := by
  induction hss generalizing e e' with
  | nil => exact he
  | cons hs _ ih =>
    cases hs with
    | call hes hs => exact ih (.call he hes hs)
    | get hn => exact ih (.get he hn)

theorem suffixStep :
    Alike P (n + 1) 0 (Item.Rel (SuffixLinked P.toLink)) (Parser.suffixStep self)
      (Parser.suffixStep self') :=
  .branch (fun _ => rfl) (fun _ _ => h.suffixForms) (.pure .none) (Nat.zero_le 1)

theorem postfixed :
    Alike P (n + 1) 1 (Expr.Linked P.toLink) (Parser.postfixed self) (Parser.postfixed self') :=
  .bind h.primary fun _ _ he => .bind (.collect (fun _ => h.suffixStep) 0) fun _ _ hss =>
    .pure (applySuffixes he hss)

end

theorem unaryForms (ht : Token.Linked P.toLink t u) :
    Option.Rel (Alike P n 0 (Item.Rel fun x y => x.1 = y.1 ∧ P.span x.2 y.2)) (Parser.unaryForms t)
      (Parser.unaryForms u) := by
  unfold Parser.unaryForms
  rw [ht.kind.unaryOp_eq]
  cases UnaryOp.ofToken? u.kind with
  | some op => exact .some (.pure (.more ⟨rfl, ht.span⟩))
  | none => exact .none

theorem unaryOps :
    Alike P n 0 (List.Forall₂ fun x y => x.1 = y.1 ∧ P.span x.2 y.2) Parser.unaryOps
      Parser.unaryOps :=
  .collect (fun _ => .branch (fun _ => rfl) (fun _ _ => unaryForms) (.pure .none) (Nat.zero_le 1)) 0

theorem applyUnary {L : Link} {ops ops' : List (UnaryOp × Span)} (he : Expr.Linked L e e')
    (hops : List.Forall₂ (fun x y => x.1 = y.1 ∧ L.span x.2 y.2) ops ops') :
    (ops.foldr (fun (op, span) e => .unary op e span) e).Linked L
      (ops'.foldr (fun (op, span) e => .unary op e span) e') := by
  induction hops with
  | nil => exact he
  | @cons x y _ _ hop _ ih =>
    obtain ⟨op, a⟩ := x
    obtain ⟨op', b⟩ := y
    obtain ⟨rfl, hs⟩ := hop
    exact .unary ih hs

theorem applyChain {L : Link} {rest rest' : List (BinaryOp × Span × Expr)} (he : Expr.Linked L e e')
    (hrest : List.Forall₂ (fun x y => x.1 = y.1 ∧ L.span x.2.1 y.2.1 ∧ x.2.2.Linked L y.2.2)
      rest rest') :
    (rest.foldl (fun left (op, span, right) => .binary left op right span) e).Linked L
      (rest'.foldl (fun left (op, span, right) => .binary left op right span) e') := by
  induction hrest generalizing e e' with
  | nil => exact he
  | @cons x y _ _ hop _ ih =>
    obtain ⟨op, a, right⟩ := x
    obtain ⟨op', b, right'⟩ := y
    obtain ⟨rfl, hs, hright⟩ := hop
    exact ih (.binary he hright hs)

theorem chainForms {operand operand' : Parser Expr}
    (h : Alike P n 1 (Expr.Linked P.toLink) operand operand') (ht : Token.Linked P.toLink t u) :
    Option.Rel (Alike P (n - 1) 0
      (Item.Rel fun x y => x.1 = y.1 ∧ P.span x.2.1 y.2.1 ∧ x.2.2.Linked P.toLink y.2.2))
      (Parser.chainForms level operand t) (Parser.chainForms level operand' u) := by
  unfold Parser.chainForms
  rw [ht.kind.binaryOp_eq]
  cases BinaryOp.ofToken? u.kind with
  | none => exact .none
  | some op =>
    dsimp only
    split
    · exact .some (.bind h.loose.shorter fun _ _ hright => .pure (.more ⟨rfl, ht.span, hright⟩))
    · exact .none

theorem chain {operand operand' : Parser Expr}
    (h : Alike P n 1 (Expr.Linked P.toLink) operand operand') :
    Alike P n 1 (Expr.Linked P.toLink) (Parser.chain level operand) (Parser.chain level operand') :=
  .bind h fun _ _ he => .bind
    (.collect (fun _ =>
        .branch (fun _ => rfl) (fun _ _ => h.chainForms) (.pure .none) (Nat.zero_le 1)) 0)
    fun _ _ hrest => .pure (applyChain he hrest)

section

variable {self self' : Parser Expr} (h : Alike P n 1 (Expr.Linked P.toLink) self self')
include h

theorem unary : Alike P (n + 1) 1 (Expr.Linked P.toLink) (Parser.unary self) (Parser.unary self') :=
  .before .unaryOps fun _ _ hops => .bind h.postfixed fun _ _ he => .pure (applyUnary he hops)

/-- One level of operators on top of the other, by induction on the levels. -/
theorem chains (levels : List Nat) : Alike P (n + 1) 1 (Expr.Linked P.toLink)
    (levels.foldr Parser.chain (Parser.unary self))
    (levels.foldr Parser.chain (Parser.unary self')) := by
  induction levels with
  | nil => exact h.unary
  | cons level levels ih => exact ih.chain

theorem infixed :
    Alike P (n + 1) 1 (Expr.Linked P.toLink) (Parser.infixed self) (Parser.infixed self') :=
  h.chains _

omit h in
theorem assignTo (htarget : Expr.Linked P.toLink target target') (hs : P.span a b)
    (hvalue : Expr.Linked P.toLink value value') :
    Alike P n 0 (Expr.Linked P.toLink) (Parser.assignTo target a value)
      (Parser.assignTo target' b value') := by
  have hkeep := htarget
  cases htarget with
  | var hn => exact .pure (.assign hn hvalue)
  | get he hn => exact .pure (.set he hn hvalue)
  | _ => exact .bind (.report (e := .invalidAssignmentTarget) hs) fun _ _ _ => .pure hkeep

theorem assignment : Alike P (n + 1) 1 (Expr.Linked P.toLink) (Parser.assignment self)
    (Parser.assignment self') := by
  refine .bind h.infixed fun _ _ hleft =>
    .onKind rfl (fun t u ht => ?_) (.pure hleft) (Nat.zero_le 1)
  exact .bind h.loose fun _ _ hvalue => .assignTo hleft ht.span hvalue

end

/-- Expressions, as the fixed point of one step. At least one token is read. -/
theorem expression : Alike P n 1 (Expr.Linked P.toLink) Parser.expression Parser.expression :=
  fix_fix (fun _ _ _ hself _ => (hself ()).assignment) n ()

theorem completeExpression :
    Alike P n 1 (Expr.Linked P.toLink) Parser.completeExpression Parser.completeExpression := by
  refine .bind .expression fun e e' he => .bind .checkEnd ?_
  rintro b _ rfl
  cases b with
  | true => exact .pure he
  | false => exact .fail

/-! ## Statements -/

/-- Tokens are skipped by their kinds alone. -/
theorem toBoundary (hlast : Token.Linked L last last') (h : List.Forall₂ (Token.Linked L) ts us) :
    List.Forall₂ (Token.Linked L) (Parser.toBoundary last ts) (Parser.toBoundary last' us) := by
  induction h generalizing last last' with
  | nil => exact .nil
  | cons ht hts ih =>
    rw [Parser.toBoundary, Parser.toBoundary, ← hlast.kind.beq_eq rfl, ← ht.kind.beginsDecl_eq]
    split
    · exact .cons ht hts
    · exact ih ht

theorem toBoundary_suffix (last : Token) (ts : List Token) : Parser.toBoundary last ts <:+ ts := by
  induction ts generalizing last with
  | nil => exact List.suffix_refl []
  | cons t ts ih =>
    rw [Parser.toBoundary]
    split
    · exact List.suffix_refl _
    · exact (ih t).trans (List.suffix_cons t ts)

theorem skipToBoundary_suffix (ts : List Token) : Parser.skipToBoundary ts <:+ ts.tail := by
  cases ts with
  | nil => exact List.suffix_refl []
  | cons t ts => exact toBoundary_suffix t ts

theorem skipToBoundary (h : List.Forall₂ (Token.Linked L) ts us) :
    List.Forall₂ (Token.Linked L) (Parser.skipToBoundary ts) (Parser.skipToBoundary us) := by
  cases h with
  | nil => exact .nil
  | cons ht hts => exact toBoundary ht hts

/-- Where a parser gives up, as many tokens are skipped in both runs. -/
theorem recovering (h : Alike P n c V p q) :
    Alike P n 0 (Option.Rel V) (Parser.recovering p) (Parser.recovering q) := by
  intro ts us hts hus
  have hr := h ts us hts hus
  unfold Parser.recovering
  generalize p P.left ts = r at hr
  generalize q P.right us = r' at hr
  cases hr with
  | ok hv hs hleft => exact .ok (.some hv) hs (hleft.mono (List.suffix_refl ts) (by omega))
  | @fail e e' s t he hs hleft =>
    have hahead := skipToBoundary hs.ahead
    have hskip := ((skipToBoundary_suffix s.ahead).trans (List.tail_suffix s.ahead)).trans hleft
    refine .ok .none ⟨hahead, List.rel_append hs.notes ?_⟩ ⟨hskip, hskip.length_le⟩
    exact .cons (.error he) (.cons (.resumed (next_linked hahead).span) .nil)

/-- Statements that were given up were given up on both sides. -/
theorem filterMap_found {found found' : List (Option _)}
    (h : List.Forall₂ (Option.Rel V) found found') :
    List.Forall₂ V (found.filterMap id) (found'.filterMap id) := by
  induction h with
  | nil => exact .nil
  | cons hs _ ih =>
    cases hs with
    | none => exact ih
    | some hs => exact .cons hs ih

theorem varDecl : Alike P n 0 (Stmt.Linked P.toLink) Parser.varDecl Parser.varDecl :=
  .bind Alike.ident.loose fun _ _ hn => .bind (Alike.expression.behind rfl) fun _ _ he =>
    .bind Alike.mark.loose fun _ _ _ => .pure (.varDecl hn he)

theorem initialExpression :
    Alike P n 1 (Stmt.Linked P.toLink) Parser.initialExpression Parser.initialExpression :=
  .bind .expression fun _ _ he => .bind Alike.mark.loose fun _ _ _ => .pure (.expr he)

theorem forInitializer :
    Alike P n 0 (Option.Rel (Stmt.Linked P.toLink)) Parser.forInitializer
      Parser.forInitializer := by
  refine .onKind rfl (fun _ _ _ => .pure .none) ?_ (Nat.zero_le 1)
  exact .bind (.onKind rfl (fun _ _ _ => .varDecl) Alike.initialExpression.loose (Nat.zero_le 1))
    fun _ _ hs => .pure (.some hs)

theorem returnValue :
    Alike P n 0 (Option.Rel (Expr.Linked P.toLink)) Parser.returnValue Parser.returnValue := by
  refine .bind .peek fun t u ht => ?_
  rw [ht.kind.beginsExpr_eq]
  split
  · exact .bind Alike.expression.loose fun _ _ he => .pure (.some he)
  · exact .pure .none

theorem exprStatement :
    Alike P n 1 (Stmt.Linked P.toLink) Parser.exprStatement Parser.exprStatement :=
  .bind .expression fun _ _ he => .bind (.eat rfl) fun _ _ _ => .pure (.expr he)

section

variable {self self' : Level → Parser Stmt}
  (h : ∀ l, Alike P n 1 (Stmt.Linked P.toLink) (self l) (self' l))
include h

theorem blockBody :
    Alike P n 0 (List.Forall₂ (Stmt.Linked P.toLink)) (Parser.blockBody self)
      (Parser.blockBody self') :=
  .bind (h .declaration).recovering.itemsUntil fun _ _ hfound => .bind Alike.mark.loose fun _ _ _ =>
    .pure (filterMap_found hfound)

theorem function :
    Alike P n 1 (FunctionDecl.Linked P.toLink) (Parser.function self context)
      (Parser.function self' context) := by
  refine .bind .ident fun _ _ hn => .bind Alike.mark.loose fun _ _ _ => ?_
  refine .bind (Alike.ident.commaList.unlessAt rfl) fun _ _ hparams =>
    .bind Alike.mark.loose fun _ _ _ => ?_
  refine .bind Alike.mark.loose fun _ _ _ => .bind (blockBody h) fun _ _ hbody => .pure ?_
  cases hparams with
  | none => exact .mk hn .nil hbody
  | some hparams => exact .mk hn hparams hbody

theorem classDecl :
    Alike P n 0 (Stmt.Linked P.toLink) (Parser.classDecl self) (Parser.classDecl self') := by
  refine .bind Alike.ident.loose fun _ _ hn => .bind (Alike.ident.behind rfl) fun _ _ hp => ?_
  refine .bind Alike.mark.loose fun _ _ _ => .bind (function h).itemsUntil fun _ _ hfs => ?_
  exact .bind Alike.mark.loose fun _ _ _ => .pure (.classDecl hn hp hfs)

theorem forLoop (hs : P.span a b) :
    Alike P n 0 (Stmt.Linked P.toLink) (Parser.forLoop self a) (Parser.forLoop self' b) := by
  refine .bind Alike.mark.loose fun _ _ _ => .bind .forInitializer fun _ _ hi => ?_
  refine .bind (Alike.expression.unlessAt rfl) fun _ _ hc => .bind Alike.mark.loose fun _ _ _ => ?_
  refine .bind (Alike.expression.unlessAt rfl) fun _ _ he => .bind Alike.mark.loose fun _ _ _ => ?_
  exact .bind (h .statement).loose fun _ _ hb => .pure (.forLoop hi hc he hb hs)

/-- The keyword in front chooses the statement. -/
theorem statementForms (ht : Token.Linked P.toLink t u) :
    Option.Rel (Alike P n 0 (Stmt.Linked P.toLink)) (Parser.statementForms self t)
      (Parser.statementForms self' u) := by
  obtain ⟨k, a⟩ := t
  obtain ⟨k', b⟩ := u
  obtain ⟨hkind, hs⟩ := ht
  cases hkind with
  | @keyword k =>
    cases k with
    | print =>
      exact .some (.bind Alike.expression.loose fun _ _ he => .bind (.eat rfl) fun _ _ _ =>
        .pure (.print he hs))
    | return_ =>
      exact .some (.bind .returnValue fun _ _ he => .bind (.eat rfl) fun _ _ _ =>
        .pure (.ret he hs))
    | while_ =>
      exact .some (.bind Alike.expression.loose fun _ _ he =>
        .bind (h .statement).loose fun _ _ hb =>
        .pure (.whileLoop he hb hs))
    | loop =>
      exact .some (.bind Alike.mark.loose fun _ _ _ => .bind (blockBody h) fun _ _ hb =>
        .pure (.forever hb hs))
    | for_ => exact .some (forLoop h hs)
    | _ => exact .none
  | @punct m =>
    cases m with
    | lbrace => exact .some (.bind (blockBody h) fun _ _ hb => .pure (.block hb hs))
    | _ => exact .none
  | _ => exact .none

theorem statement :
    Alike P (n + 1) 1 (Stmt.Linked P.toLink) (Parser.statement self) (Parser.statement self') :=
  .branch (fun _ => rfl) (fun _ _ => statementForms h) .exprStatement (Nat.le_refl 1)

theorem declarationForms (ht : Token.Linked P.toLink t u) :
    Option.Rel (Alike P n 0 (Stmt.Linked P.toLink)) (Parser.declarationForms self t)
      (Parser.declarationForms self' u) := by
  obtain ⟨k, a⟩ := t
  obtain ⟨k', b⟩ := u
  obtain ⟨hkind, hs⟩ := ht
  cases hkind with
  | @keyword k =>
    cases k with
    | class_ => exact .some (classDecl h)
    | fn => exact .some (.bind (function h).loose fun _ _ hf => .pure (.fnDecl hf))
    | var => exact .some .varDecl
    | _ => exact .none
  | _ => exact .none

theorem declaration :
    Alike P (n + 1) 1 (Stmt.Linked P.toLink) (Parser.declaration self) (Parser.declaration self') :=
  .branch (fun _ => rfl) (fun _ _ => declarationForms h) (statement h) (Nat.le_refl 1)

theorem stmtStep (l : Level) :
    Alike P (n + 1) 1 (Stmt.Linked P.toLink) (Parser.stmtStep self l)
      (Parser.stmtStep self' l) := by
  cases l with
  | declaration => exact declaration h
  | statement => exact statement h

end

/-- Statements and declarations, as the fixed point of one step. -/
theorem stmt (l : Level) : Alike P n 1 (Stmt.Linked P.toLink) (Parser.stmt l) (Parser.stmt l) :=
  fix_fix (fun _ _ _ h l => stmtStep h l) n l

theorem programBody : Alike P n 0 (Program.Linked P.toLink) Parser.programBody Parser.programBody :=
  .bind (.collect (fun _ => .unlessAtEnd .checkEnd (stmt .declaration).recovering.more) 0)
    fun _ _ hfound =>
    .pure (filterMap_found hfound)

/-! ## Runs without errors -/

theorem errors_linked (h : List.Forall₂ (Note.Linked P) ns ns') :
    List.Forall₂ P.error (ns.filterMap Note.error?) (ns'.filterMap Note.error?) := by
  induction h with
  | nil => exact .nil
  | cons hn _ ih =>
    cases hn with
    | error he => exact .cons he ih
    | resumed => exact ih

/-- Without errors on one side there are none on the other. -/
theorem quiet (h : Alike P n c V p q) (hts : ts.length < n)
    (hus : List.Forall₂ (Token.Linked P.toLink) ts us) :
    Option.Rel (fun r r' => V r.1 r'.1 ∧ List.Forall₂ (Token.Linked P.toLink) r.2 r'.2 ∧
      r.2.length + c ≤ ts.length)
      (p.quiet P.left ts) (q.quiet P.right us) := by
  have hr := h ts us hts hus
  unfold Parser.quiet
  generalize p P.left ts = r at hr
  generalize q P.right us = r' at hr
  cases hr with
  | @ok a b s t hv hs hleft =>
    have herrors := errors_linked hs.notes
    rw [Reply.quiet_ok, Reply.quiet_ok, State.errors, State.errors]
    generalize s.notes.filterMap Note.error? = es at herrors
    generalize t.notes.filterMap Note.error? = es' at herrors
    cases herrors with
    | nil => exact .some ⟨hv, hs.ahead, hleft.length⟩
    | cons => exact .none
  | fail => exact .none

/-- Both inputs end at the same token. -/
theorem takeWhile_linked {L : Link} {ts us : List Token} (h : List.Forall₂ (Token.Linked L) ts us) :
    List.Forall₂ (Token.Linked L) (ts.takeWhile (!·.isEof)) (us.takeWhile (!·.isEof)) := by
  induction h with
  | nil => exact .nil
  | @cons t u ts us ht _ ih =>
    have heof : t.isEof = u.isEof := ht.kind.isEof_eq
    rw [List.takeWhile_cons, List.takeWhile_cons, heof]
    split
    · exact .cons ht ih
    · exact .nil

/-- Linked lists of tokens are read as linked programs, with related errors. -/
theorem parse (source source' : String) {ts us : List Token} (hleft : P.left = .ofTokens source ts)
    (hright : P.right = .ofTokens source' us) (h : List.Forall₂ (Token.Linked P.toLink) ts us) :
    Program.Linked P.toLink (TreeWalk.parse source ts).program (TreeWalk.parse source' us).program ∧
      List.Forall₂ P.error (TreeWalk.parse source ts).errors
        (TreeWalk.parse source' us).errors := by
  have hr := Alike.programBody (P := P) _ _ (Nat.lt_succ_self _) (takeWhile_linked h)
  unfold TreeWalk.parse Parser.run
  rw [← hleft, ← hright]
  generalize Parser.programBody P.left _ = r at hr
  generalize Parser.programBody P.right _ = r' at hr
  cases hr with
  | ok hp hs _ => exact ⟨hp, errors_linked hs.notes⟩
  | fail he hs _ => exact ⟨.nil, errors_linked (List.rel_append hs.notes (.cons (.error he) .nil))⟩

end Alike

/-! ## Kinds of tokens alone -/

/-- Reading tokens and reading their kinds alone. -/
def Pairing.bare (cx : Context) : Pairing where
  toLink := .bare
  left := cx
  right := default
  error _ _ := True
  finish := rfl
  merge hb hd := by rw [hb, hd]; rfl
  errors _ _ := trivial

/-- Tokens of the given kinds, without places. -/
def words (ks : List TokenKind) : List Token :=
  ks.map fun k => ⟨k, default⟩

theorem map_bare (ts : List Token) : ts.map Token.bare = words (ts.map Token.kind) := by
  simp [words, Token.bare, Function.comp_def]

@[simp]
theorem words_cons (k : TokenKind) (ks : List TokenKind) :
    words (k :: ks) = ⟨k, default⟩ :: words ks := rfl

@[simp]
theorem bare_words (ks : List TokenKind) : (words ks).map Token.bare = words ks := by
  simp [words, Token.bare, Function.comp_def]

/-- Forgetting all places links each token to what is left of it. -/
theorem linked_map_bare (ts : List Token) :
    List.Forall₂ (Token.Linked .bare) ts (ts.map Token.bare) := by
  induction ts with
  | nil => exact .nil
  | cons t ts ih => exact .cons t.linked_bare ih

section

variable {ι : Type} {step : (ι → Parser α) → ι → Parser α} {V : α → α → Prop} {v : α → α}
  (hv : ∀ a b, V a b → b = v a)
  (hstep : ∀ n self self', (∀ j, Alike (.bare default) n c V (self j) (self' j)) →
    ∀ i, Alike (.bare default) (n + 1) c V (step self i) (step self' i))
include hv hstep

/-- What answers like a recursive parser does, without places, is the same on tokens without
places. -/
theorem quiet_fix_eq {i : ι} {q : Parser α} {ks : List TokenKind}
    (hq : Alike (.bare default) n c V (fix step i) q) (hks : ks.length < n) :
    (fix step i).quiet default (words ks) = q.quiet default (words ks) := by
  have hlen : (words ks).length < n := by simpa [words] using hks
  have hwords : List.Forall₂ (Token.Linked .bare) (words ks) (words ks) := by
    simpa using linked_map_bare (words ks)
  have hself := (Alike.fix_fix hstep n i).quiet hlen hwords
  have hother := hq.quiet hlen hwords
  change Option.Rel _ ((fix step i).quiet default (words ks))
    ((fix step i).quiet default (words ks)) at hself
  change Option.Rel _ ((fix step i).quiet default (words ks)) (q.quiet default (words ks)) at hother
  generalize (fix step i).quiet default (words ks) = r at hself hother ⊢
  generalize q.quiet default (words ks) = r' at hother ⊢
  cases hother with
  | none => rfl
  | @some r r' hother =>
    -- The recursive parser tells what its own answer is without places.
    cases hself with
    | some hself =>
      have hvalue : r.1 = r'.1 := (hv _ _ hself.1).trans (hv _ _ hother.1).symm
      have hrest : r.2 = r'.2 :=
        (forall₂_eq_map Token.Linked.eq_bare hself.2.1).trans
          (forall₂_eq_map Token.Linked.eq_bare hother.2.1).symm
      exact congrArg some (Prod.ext hvalue hrest)

/-- A recursive parser is its approximations, on inputs that are short enough. -/
theorem quiet_fix_eq_unrolled {base : ι → Parser α} {ks : List TokenKind}
    (hks : ks.length < n) (i : ι) :
    (fix step i).quiet default (words ks) = (unrolled step base n i).quiet default (words ks) :=
  quiet_fix_eq hv hstep (Alike.fix_unrolled hstep base n i) hks

theorem quiet_fix_unfold (ks : List TokenKind) (i : ι) :
    (fix step i).quiet default (words ks) = (step (fix step) i).quiet default (words ks) :=
  quiet_fix_eq hv hstep (Alike.fix_step hstep ks.length i) (Nat.lt_succ_self _)

end

end Parser

end TreeWalk
