import TreeWalk.Proofs.Parser.Alike
import TreeWalk.Proofs.Parser.Shape

/-!
# The tokens that nodes and errors come from

Every node of a parsed tree is sited: the place it is reported at is that of a token of the list,
and the kind of the token is told by the node. Two kinds of nodes are reported from one token to
another, which stand next to each other. Errors are sited too, at the token that was next or at the
end mark. The judgement `Parser.Sites` carries both through the grammar, together with the fact that
it is always the last of the tokens that have not been read.
-/

namespace TreeWalk

/-! ## Sited nodes -/

/-- The name is one of the tokens. -/
def Ident.Sited (tokens : List Token) (x : Ident) : Prop :=
  ⟨.ident x.name, x.span⟩ ∈ tokens

/-- Unit is the word `nil`, or reaches from a `(` to the `)` behind it. -/
inductive UnitSited (tokens : List Token) : Span → Prop where
  | word : ⟨.keyword .nil, span⟩ ∈ tokens → UnitSited tokens span
  | parens : [⟨.punct .lparen, opening⟩, ⟨.punct .rparen, close⟩] <:+: tokens →
      UnitSited tokens (.merge opening close)

/-- The constant is one of the tokens, unless it is unit. -/
def Literal.Sited (tokens : List Token) (span : Span) : Literal → Prop
  | .number v => ⟨.number v, span⟩ ∈ tokens
  | .str x => ⟨.str x, span⟩ ∈ tokens
  | .bool b => ⟨.keyword (if b then .true_ else .false_), span⟩ ∈ tokens
  | .nil => UnitSited tokens span

/-- A number in a pattern is one of the tokens, or reaches from a `-` to the number behind it. -/
inductive NumberSited (tokens : List Token) : Number → Span → Prop where
  | plain : ⟨.number v, span⟩ ∈ tokens → NumberSited tokens v span
  | negative : [⟨.punct .minus, sign⟩, ⟨.number v, digits⟩] <:+: tokens →
      NumberSited tokens v.neg (.merge sign digits)

namespace Pattern

def Sited (tokens : List Token) : Pattern → Prop
  | .unit span => UnitSited tokens span
  | .var x | .named x _ => x.Sited tokens
  | .literal (.number v) span => NumberSited tokens v span
  | .literal value span => value.Sited tokens span
  | .wild span => ⟨.punct .underscore, span⟩ ∈ tokens
  | .tuple _ span => ⟨.punct .lparen, span⟩ ∈ tokens
  | .vector _ span => ⟨.punct .lbracket, span⟩ ∈ tokens

theorem everywhere_of_leaf {p : Pattern} (hs : p.Sited tokens) (hp : p.parts = []) :
    p.Everywhere (Sited tokens) :=
  everywhere_iff.mpr ⟨hs, by simp [hp]⟩

end Pattern

namespace Expr

def Sited (tokens : List Token) : Expr → Prop
  | .literal value span => value.Sited tokens span
  | .grouping _ span | .call _ _ span | .tuple _ span => ⟨.punct .lparen, span⟩ ∈ tokens
  | .vector _ span => ⟨.punct .lbracket, span⟩ ∈ tokens
  | .unary op _ span => ⟨.punct op.mark, span⟩ ∈ tokens
  | .binary _ op _ span => ⟨op.token, span⟩ ∈ tokens
  | .var x | .assign x _ | .get _ x | .set _ x _ => x.Sited tokens
  | .this span => ⟨.keyword .this, span⟩ ∈ tokens
  | .super x span => ⟨.keyword .super, span⟩ ∈ tokens ∧ x.Sited tokens
  | .letIn x _ _ span => ⟨.keyword .let_, span⟩ ∈ tokens ∧ x.Sited tokens
  | .seq _ span => ⟨.keyword .do_, span⟩ ∈ tokens
  | .cond _ _ _ span => ⟨.keyword .if_, span⟩ ∈ tokens
  | .case _ _ span => ⟨.keyword .case, span⟩ ∈ tokens

/-- The node is sited, and so are the patterns of its arms. -/
def Placed (tokens : List Token) (e : Expr) : Prop :=
  e.Sited tokens ∧ ∀ p ∈ e.patterns, p.Everywhere (Pattern.Sited tokens)

/-- An expression that is no `case`, from its parts. -/
theorem everywhere_of_sited {e : Expr} (hs : e.Sited tokens) (hp : e.patterns = [])
    (hparts : ∀ d ∈ e.parts, d.Everywhere (Placed tokens)) : e.Everywhere (Placed tokens) :=
  everywhere_iff.mpr ⟨⟨hs, by simp [hp]⟩, hparts⟩

end Expr

/-- The name and the parameters are tokens. -/
def FunctionDecl.Sited (tokens : List Token) (decl : FunctionDecl) : Prop :=
  decl.name.Sited tokens ∧ ∀ x ∈ decl.params, x.Sited tokens

namespace Stmt

def Sited (tokens : List Token) : Stmt → Prop
  | .expr _ => True
  | .print _ span => ⟨.keyword .print, span⟩ ∈ tokens
  | .varDecl x _ => x.Sited tokens
  | .block _ span => ⟨.punct .lbrace, span⟩ ∈ tokens
  | .fnDecl decl => decl.Sited tokens
  | .classDecl x sup methods =>
    x.Sited tokens ∧ (∀ y ∈ sup, y.Sited tokens) ∧ ∀ decl ∈ methods, decl.Sited tokens
  | .ret _ span => ⟨.keyword .return_, span⟩ ∈ tokens
  | .whileLoop _ _ span => ⟨.keyword .while_, span⟩ ∈ tokens
  | .forever _ span => ⟨.keyword .loop, span⟩ ∈ tokens
  | .forLoop _ _ _ _ span => ⟨.keyword .for_, span⟩ ∈ tokens

/-- The node is sited, and so are the expressions in it. -/
def Placed (tokens : List Token) (s : Stmt) : Prop :=
  s.Sited tokens ∧ ∀ e ∈ s.exprs, e.Everywhere (Expr.Placed tokens)

theorem everywhere_of_sited {s : Stmt} (hs : s.Sited tokens)
    (hexprs : ∀ e ∈ s.exprs, e.Everywhere (Expr.Placed tokens))
    (hparts : ∀ t ∈ s.parts, t.Everywhere (Placed tokens)) : s.Everywhere (Placed tokens) :=
  everywhere_iff.mpr ⟨⟨hs, hexprs⟩, hparts⟩

end Stmt

namespace Parser

/-! ## Sited errors -/

/-- What can be next at some point: one of the tokens, or the end mark behind them. -/
def Context.marked (cx : Context) (tokens : List Token) : List Token :=
  tokens ++ [⟨.eof, cx.finish⟩]

end Parser

namespace ParseError

/-- The source text of the token that did not fit, where the error shows it. -/
def found? : ParseError → Option String
  | unexpectedToken _ found _ | expectedExpression found _ | expectedIdentifier _ found _ =>
    some found
  | _ => none

/-- The error stands at a token, and what it shows is the text of that token. -/
def Sited (source : String) (tokens : List Token) (e : ParseError) : Prop :=
  ∃ t ∈ tokens, e.span = t.span ∧ ∀ found ∈ e.found?, found = t.lexeme source

/-- An error at a token that shows it, or shows none. -/
theorem Sited.of_mem {e : ParseError} (ht : t ∈ tokens) (hspan : e.span = t.span)
    (hfound : e.found? = some (t.lexeme source) ∨ e.found? = none) : e.Sited source tokens := by
  refine ⟨t, ht, hspan, fun found h => ?_⟩
  rcases hfound with hsome | hnone
  · exact Option.some.inj (h.symm.trans hsome)
  · exact absurd (hnone.symm.trans h) (Option.some_ne_none found).symm

end ParseError

namespace Parser

variable {α β : Type}

/-- The next token is one of the input, or the mark at its end. -/
theorem Context.next_mem (cx : Context) (h : ts <:+ tokens) : cx.next ts ∈ cx.marked tokens := by
  cases ts with
  | nil => exact List.mem_append_right _ (List.mem_singleton_self _)
  | cons t ts => exact List.mem_append_left _ (h.subset List.mem_cons_self)

variable (cx : Context) (tokens : List Token)

/-- The last of the tokens are ahead, and the errors noted are sited. -/
structure State.Sited (s : State) : Prop where
  ahead : s.ahead <:+ tokens
  notes : ∀ e, .error e ∈ s.notes → e.Sited cx.source (cx.marked tokens)

/-- The value has the property or the error is sited, and so is the state in both cases. -/
inductive Reply.Sited (P : α → Prop) : Reply α → Prop where
  | ok : P a → s.Sited cx tokens → Sited P (.ok a s)
  | fail : e.Sited cx.source (cx.marked tokens) → s.Sited cx tokens → Sited P (.fail e s)

/-- Started among the tokens, the parser stops among them, with a value that has the property or
with a sited error. -/
def Sites (p : Parser α) (P : α → Prop) : Prop :=
  ∀ ts, ts <:+ tokens → (p cx ts).Sited cx tokens P

/-- The same, started right behind the token `t`. -/
def SitesBehind (t : Token) (p : Parser α) (P : α → Prop) : Prop :=
  ∀ ts, t :: ts <:+ tokens → (p cx ts).Sited cx tokens P

variable {cx tokens}

theorem State.Sited.quiet (h : ts <:+ tokens) : State.Sited cx tokens { ahead := ts } :=
  ⟨h, fun _ he => absurd he List.not_mem_nil⟩

namespace Reply.Sited

variable {P : α → Prop} {r : Reply α}

theorem after (h : r.Sited cx tokens P)
    (hnotes : ∀ e, .error e ∈ notes → e.Sited cx.source (cx.marked tokens)) :
    (r.after notes).Sited cx tokens P := by
  have hstate : ∀ {s : State}, s.Sited cx tokens →
      State.Sited cx tokens { s with notes := notes ++ s.notes } :=
    fun hs => ⟨hs.ahead, fun e he => (List.mem_append.mp he).elim (hnotes e) (hs.notes e)⟩
  cases h with
  | ok ha hs => exact .ok ha (hstate hs)
  | fail he hs => exact .fail he (hstate hs)

theorem map {Q : β → Prop} {f : α → β} (h : r.Sited cx tokens P) (hf : ∀ a, P a → Q (f a)) :
    (r.map f).Sited cx tokens Q := by
  cases h with
  | ok ha hs => exact .ok (hf _ ha) hs
  | fail he hs => exact .fail he hs

theorem state (h : r.Sited cx tokens P) : r.state.Sited cx tokens := by
  cases h with
  | ok _ hs => exact hs
  | fail _ hs => exact hs

theorem error (h : Reply.Sited cx tokens P (.fail e s)) : e.Sited cx.source (cx.marked tokens) := by
  cases h with
  | fail he _ => exact he

theorem value (h : Reply.Sited cx tokens P (.ok a s)) : P a := by
  cases h with
  | ok ha _ => exact ha

end Reply.Sited

/-! ## Combinators -/

namespace Sites

variable {P : α → Prop} {Q : β → Prop} {p : Parser α}

theorem mono {P' : α → Prop} (h : Sites cx tokens p P) (hP : ∀ a, P a → P' a) :
    Sites cx tokens p P' := by
  intro ts hts
  have hr := h ts hts
  cases hp : p cx ts with
  | ok a s => rw [hp] at hr; exact .ok (hP a hr.value) hr.state
  | fail e s => rw [hp] at hr; exact .fail hr.error hr.state

theorem pure (h : P a) : Sites cx tokens (Pure.pure a) P :=
  fun _ hts => .ok h (.quiet hts)

/-- Errors and nodes of both parts have their places among the tokens. -/
theorem bind {f : α → Parser β} (hp : Sites cx tokens p P)
    (hf : ∀ a, P a → Sites cx tokens (f a) Q) :
    Sites cx tokens (p >>= f) Q := by
  intro ts hts
  have hr := hp ts hts
  cases ha : p cx ts with
  | ok a s =>
    rw [ha] at hr
    rw [bind_of_ok ha]
    exact (hf a hr.value s.ahead hr.state.ahead).after hr.state.notes
  | fail e s =>
    rw [ha] at hr
    rw [bind_of_fail ha]
    exact .fail hr.error hr.state

/-- What the first parser answers with does not matter. -/
theorem skip {f : α → Parser β} (hp : Sites cx tokens p P) (hf : ∀ a, Sites cx tokens (f a) Q) :
    Sites cx tokens (p >>= f) Q :=
  hp.bind fun a _ => hf a

/-- An error at the next token shows that token. -/
theorem fail {error : String → Span → ParseError}
    (hspan : ∀ text span, (error text span).span = span) (hfound : ∀ text span,
        (error text span).found? = Option.some text ∨ (error text span).found? = Option.none) :
    Sites cx tokens (failHere error : Parser α) P :=
  fun _ hts => .fail (.of_mem (cx.next_mem hts) (hspan _ _) (hfound _ _)) (.quiet hts)

theorem report (he : e.Sited cx.source (cx.marked tokens)) :
    Sites cx tokens (Parser.report e) fun _ => True := by
  intro ts hts
  refine .ok trivial ⟨hts, fun e' he' => ?_⟩
  cases List.mem_singleton.mp he'
  exact he

theorem check : Sites cx tokens (Parser.check kind) fun _ => True :=
  fun _ hts => .ok trivial (.quiet hts)

theorem ends : Sites cx tokens (Parser.ends close) fun _ => True :=
  fun _ hts => .ok trivial (.quiet hts)

theorem peek : Sites cx tokens Parser.peek (· ∈ cx.marked tokens) :=
  fun _ hts => .ok (cx.next_mem hts) (.quiet hts)

/-- Where a parser may be started anywhere, it may be started behind a token. -/
theorem behind_token (h : Sites cx tokens p P) : SitesBehind cx tokens t p P :=
  fun ts hts => h ts ((List.suffix_cons t ts).trans hts)

/-- Where the forms say nothing of the end mark, the parser that goes on is started behind the next
token. -/
theorem branch_sited {forms : Token → Option (Parser α)} (heof : ∀ span, forms ⟨.eof, span⟩ = .none)
    (hts : ts <:+ tokens) (ho : Sites cx tokens p P)
    (h : ∀ token us q, ts = token :: us → forms token = .some q → (q cx us).Sited cx tokens P) :
    (Parser.branch forms p cx ts).Sited cx tokens P := by
  unfold Parser.branch
  cases ts with
  | nil =>
    have hnone : forms (cx.next []) = .none := heof cx.finish
    rw [hnone]
    exact ho [] hts
  | cons token us =>
    split
    · next q hq => exact h token us q rfl hq
    · exact ho _ hts

/-- The form may ask for the token in front of what it reads. -/
theorem branch_behind {forms : Token → Option (Parser α)}
    (heof : ∀ span, forms ⟨.eof, span⟩ = .none)
    (h : ∀ token q, forms token = .some q → token ∈ tokens → SitesBehind cx tokens token q P)
    (ho : Sites cx tokens p P) : Sites cx tokens (Parser.branch forms p) P := by
  intro ts hts
  refine branch_sited heof hts ho fun token us q hus hq => ?_
  subst hus
  exact h token q hq (hts.subset List.mem_cons_self) us hts

theorem branch {forms : Token → Option (Parser α)} (heof : ∀ span, forms ⟨.eof, span⟩ = .none)
    (h : ∀ token q, forms token = .some q → token ∈ tokens → Sites cx tokens q P)
    (ho : Sites cx tokens p P) :
    Sites cx tokens (Parser.branch forms p) P :=
  branch_behind heof (fun token q hq hmem => (h token q hq hmem).behind_token) ho

theorem not_beq_eof (h : kind.isEof = false) : ¬(TokenKind.eof == kind) = true := by
  intro heq
  cases eq_of_beq heq
  cases h

/-- A mark that is read is one of the tokens. -/
theorem onKind {q : Token → Parser α} (heof : kind.isEof = false)
    (h : ∀ span, ⟨kind, span⟩ ∈ tokens → Sites cx tokens (q ⟨kind, span⟩) P)
    (ho : Sites cx tokens p P) :
    Sites cx tokens (Parser.onKind kind q p) P := by
  refine .branch (fun span => if_neg (not_beq_eof heof)) (fun token r hr hmem => ?_) ho
  split at hr
  · next hkind =>
    cases hr
    obtain ⟨k, span⟩ := token
    obtain rfl : k = kind := eq_of_beq hkind
    exact h span hmem
  · cases hr

theorem eat (heof : kind.isEof = false) : Sites cx tokens (Parser.eat kind) fun _ => True :=
  .onKind heof (fun _ _ => .pure trivial) (.pure trivial)

theorem mark : Sites cx tokens (Parser.mark m context) fun _ => True :=
  .onKind rfl (fun _ _ => .pure trivial)
    (.fail (fun _ _ => rfl) fun _ _ => .inl rfl)

theorem word : Sites cx tokens (Parser.word w context) fun _ => True :=
  .onKind rfl (fun _ _ => .pure trivial)
    (.fail (fun _ _ => rfl) fun _ _ => .inl rfl)

/-- A name stands where its token does. -/
theorem ident : Sites cx tokens (Parser.ident context) (Ident.Sited tokens) := by
  refine .branch (fun _ => rfl) (fun token q hq hmem => ?_)
    (.fail (fun _ _ => rfl) fun _ _ => .inl rfl)
  obtain ⟨kind, span⟩ := token
  unfold identForms at hq
  split at hq
  · next name hkind =>
    cases hq
    obtain rfl : kind = .ident name := hkind
    exact .pure hmem
  · cases hq

theorem stuck : Sites cx tokens (Parser.stuck : Parser α) P :=
  .fail (fun _ _ => rfl) fun _ _ => .inl rfl

/-- By induction on the number of tokens ahead. -/
theorem collect {step : Nat → Parser (Item α)}
    (h : ∀ n, Sites cx tokens (step n) (Yields.Items P)) (n : Nat) :
    Sites cx tokens (Parser.collect step n) fun as => ∀ a ∈ as, P a := by
  intro ts hts
  induction hn : ts.length using Nat.strongRecOn generalizing ts n with
  | ind k ih =>
    have hr := h n ts hts
    rw [Parser.collect]
    cases hs : step n cx ts with
    | fail e s => rw [hs] at hr; exact .fail hr.error hr.state
    | ok item s =>
      rw [hs] at hr
      cases item with
      | none => exact .ok (fun _ ha => absurd ha List.not_mem_nil) hr.state
      | last a => exact .ok (List.forall_mem_singleton.mpr hr.value) hr.state
      | more a =>
        dsimp only
        split
        · next hlt =>
          have hrest := ih _ (hn ▸ hlt) (n + 1) s.ahead hr.state.ahead rfl
          have ha : P a := hr.value
          exact (hrest.map fun _ has => List.forall_mem_cons.mpr ⟨ha, has⟩).after hr.state.notes
        · exact (Sites.stuck _ hr.state.ahead).after hr.state.notes

/-- What a recursive family of parsers answers with follows from one step of the recursion. -/
theorem fix {ι : Type} {step : (ι → Parser α) → ι → Parser α} {P : ι → α → Prop}
    (h : ∀ self, (∀ j, Sites cx tokens (self j) (P j)) → ∀ i, Sites cx tokens (step self i) (P i))
    (i : ι) :
    Sites cx tokens (Parser.fix step i) (P i) := by
  intro ts hts
  induction hn : ts.length using Nat.strongRecOn generalizing ts i with
  | ind k ih =>
    rw [Parser.fix]
    -- Inside, the recursion answers only where it goes on with fewer tokens. So what it answers
    -- with is an instance of the induction hypothesis, for tokens that need not be those of the
    -- step itself.
    let self : ι → Parser α := fun j cx rest =>
      if rest.length < ts.length then Parser.fix step j cx rest else Parser.stuck cx rest
    refine h self (fun j us hus => ?_) i ts hts
    dsimp only [self]
    split
    · next hlt => exact ih _ (hn ▸ hlt) j us hus rfl
    · exact Sites.stuck us hus

/-- The error of a list that is too long stands at the next token. -/
theorem limit : Sites cx tokens (Parser.limit kind n) fun _ => True := by
  unfold Parser.limit
  split
  · exact .bind .peek fun token ht => .report (.of_mem ht rfl (.inr rfl))
  · exact .pure trivial

theorem itemThen (h : Sites cx tokens p P) :
    Sites cx tokens (Parser.itemThen sep p) (Yields.Items P) := by
  refine h.bind fun a ha => .skip (.eat rfl) fun more => .pure ?_
  cases more <;> exact ha

theorem commaList (h : Sites cx tokens p P) (n : Nat) :
    Sites cx tokens (Parser.commaList kind p n) fun as => ∀ a ∈ as, P a :=
  .collect (fun _ => .skip .limit fun _ => h.itemThen) n

theorem closed (h : Sites cx tokens p P) :
    Sites cx tokens (Parser.closed sep close context p) fun as => ∀ a ∈ as, P a := by
  refine .bind (.collect (fun n => .skip .ends fun b => ?_) 0) fun as has =>
    .skip .mark fun _ => .pure has
  cases b with
  | true => exact .pure trivial
  | false => exact h.itemThen

theorem delimited (h : Sites cx tokens p P) :
    Sites cx tokens (Parser.delimited opening sep close context p) fun as => ∀ a ∈ as, P a :=
  .skip .mark fun _ => h.closed

theorem itemsUntil (h : Sites cx tokens p P) :
    Sites cx tokens (Parser.itemsUntil close p) fun as => ∀ a ∈ as, P a := by
  refine .collect (fun n => .skip .ends fun b => ?_) 0
  cases b with
  | true => exact .pure trivial
  | false => exact h.bind fun a ha => .pure ha

theorem some (h : Sites cx tokens p P) :
    Sites cx tokens (do return Option.some (← p)) fun r => ∀ a ∈ r, P a := by
  refine h.bind fun a ha => .pure fun b hb => ?_
  cases hb
  exact ha

theorem none : Sites cx tokens (return (Option.none : Option α)) fun r => ∀ a ∈ r, P a :=
  .pure fun a h => absurd h (Option.not_mem_none a)

theorem unlessAt (h : Sites cx tokens p P) :
    Sites cx tokens (Parser.unlessAt kind p) fun r => ∀ a ∈ r, P a := by
  refine .skip .check fun b => ?_
  cases b with
  | true => exact .none
  | false => exact h.some

theorem behind (heof : kind.isEof = false) (h : Sites cx tokens p P) :
    Sites cx tokens (Parser.behind kind p) fun r => ∀ a ∈ r, P a :=
  .onKind heof (fun _ _ => h.some) .none

/-- The error of a form that is given up is kept. -/
theorem recovering (h : Sites cx tokens p P) :
    Sites cx tokens (Parser.recovering p) fun r => ∀ a ∈ r, P a := by
  intro ts hts
  have hr := h ts hts
  unfold Parser.recovering
  cases hp : p cx ts with
  | ok a s =>
    rw [hp] at hr
    refine .ok (fun b hb => ?_) hr.state
    cases hb
    exact hr.value
  | fail e s =>
    rw [hp] at hr
    have hskip := (Alike.skipToBoundary_suffix s.ahead).trans (List.tail_suffix s.ahead)
    refine .ok (fun a h => absurd h (Option.not_mem_none a)) ⟨hskip.trans hr.state.ahead,
      fun e' he => ?_⟩
    rcases List.mem_append.mp he with he | he
    · exact hr.state.notes e' he
    · rcases List.mem_cons.mp he with he | he
      · cases he
        exact hr.error
      · cases List.mem_singleton.mp he

end Sites

/-! ## Patterns -/

/-- A token that is read behind `t` stands next to it. -/
theorem SitesBehind.branch {p : Parser α} {P : α → Prop} {forms : Token → Option (Parser α)}
    (heof : ∀ span, forms ⟨.eof, span⟩ = none)
    (h : ∀ u q, forms u = some q → [t, u] <:+: tokens → Sites cx tokens q P)
    (ho : Sites cx tokens p P) :
    SitesBehind cx tokens t (Parser.branch forms p) P := by
  intro ts hts
  have hsuffix := (List.suffix_cons t ts).trans hts
  refine Sites.branch_sited heof hsuffix ho fun u us q hus hq => ?_
  subst hus
  have hnext : [t, u] <:+: tokens := List.IsInfix.trans ⟨[], us, rfl⟩ hts.isInfix
  exact h u q hq hnext us ((List.suffix_cons u us).trans hsuffix)

/-- Behind `(`, the mark `)` makes a unit. -/
theorem SitesBehind.unit_or {p : Parser α} {P : α → Prop} {make : Span → α}
    (hmake : ∀ place, UnitSited tokens place → P (make place)) (ho : Sites cx tokens p P) :
    SitesBehind cx tokens ⟨.punct .lparen, span⟩
      (Parser.onKind (.punct .rparen) (fun close => return make (.merge span close.span)) p) P := by
  refine .branch (fun _ => rfl) (fun u q hq hnext => ?_) ho
  obtain ⟨kind, close⟩ := u
  dsimp only at hq
  split at hq
  · next hkind =>
    cases hq
    obtain rfl : kind = .punct .rparen := eq_of_beq hkind
    exact .pure (hmake _ (.parens hnext))
  · cases hq

section

variable {self : Parser Pattern}
  (hself : Sites cx tokens self (·.Everywhere (Pattern.Sited tokens)))
include hself

theorem Sites.namedPattern (hx : x.Sited tokens) :
    Sites cx tokens (Parser.namedPattern self x) (·.Everywhere (Pattern.Sited tokens)) := by
  refine .bind (.behind rfl hself) fun r hr => ?_
  cases r with
  | none => exact .pure (Pattern.everywhere_of_leaf hx rfl)
  | some p =>
    exact .pure (Pattern.everywhere_iff.mpr ⟨hx, List.forall_mem_singleton.mpr (hr p rfl)⟩)

theorem SitesBehind.parenPattern (hmem : ⟨.punct .lparen, span⟩ ∈ tokens) :
    SitesBehind cx tokens ⟨.punct .lparen, span⟩ (Parser.parenPattern self span)
      (·.Everywhere (Pattern.Sited tokens)) := by
  refine .unit_or (fun place h => Pattern.everywhere_of_leaf h rfl) ?_
  refine .bind hself fun first hfirst => .skip (.eat rfl) fun more => ?_
  cases more with
  | false => exact .skip .mark fun _ => .pure hfirst
  | true =>
    refine .bind (.collect (fun _ => hself.itemThen) 1) fun rest hrest =>
      .skip .mark fun _ => .pure ?_
    exact Pattern.everywhere_iff.mpr ⟨hmem, List.forall_mem_cons.mpr ⟨hfirst, hrest⟩⟩

omit hself in
theorem SitesBehind.negativeNumber :
    SitesBehind cx tokens ⟨.punct .minus, span⟩ (Parser.negativeNumber span)
      (·.Everywhere (Pattern.Sited tokens)) := by
  refine .branch (fun _ => rfl) (fun u q hq hnext => ?_)
    (.fail (fun _ _ => rfl) fun _ _ => .inr rfl)
  obtain ⟨kind, digits⟩ := u
  unfold negativeForms at hq
  split at hq
  · next v hkind =>
    cases hq
    obtain rfl : kind = .number v := hkind
    exact .pure (Pattern.everywhere_of_leaf (.negative hnext) rfl)
  · cases hq

/-- One case for each form of a pattern. -/
theorem Sites.patternStep :
    Sites cx tokens (Parser.patternStep self) (·.Everywhere (Pattern.Sited tokens)) := by
  refine .branch_behind (fun _ => rfl) (fun token q hq hmem => ?_)
    (.fail (fun _ _ => rfl) fun _ _ => .inr rfl)
  obtain ⟨kind, span⟩ := token
  -- A pattern that is the token itself.
  have leaf : ∀ {p : Pattern}, p.Sited tokens → p.parts = [] →
      SitesBehind cx tokens ⟨kind, span⟩ (return p) (·.Everywhere (Pattern.Sited tokens)) :=
    fun hs hp => (Sites.pure (Pattern.everywhere_of_leaf hs hp)).behind_token
  unfold patternForms at hq
  dsimp only at hq
  split at hq <;> cases hq
  case h_1 | h_4 | h_5 | h_6 => exact leaf hmem rfl
  case h_2 => exact leaf (.word hmem) rfl
  case h_3 => exact leaf (.plain hmem) rfl
  case h_7 => exact .negativeNumber
  case h_8 => exact (Sites.namedPattern (x := ⟨_, _⟩) hself hmem).behind_token
  case h_9 => exact .parenPattern hself hmem
  case h_10 =>
    refine Sites.behind_token (.bind hself.closed fun ps hps => .pure ?_)
    exact Pattern.everywhere_iff.mpr ⟨hmem, hps⟩

end

/-- Every node of a pattern has its place. -/
theorem Sites.pattern : Sites cx tokens Parser.pattern (·.Everywhere (Pattern.Sited tokens)) :=
  .fix (P := fun _ => Pattern.Everywhere (Pattern.Sited tokens))
    (fun _ hself _ => .patternStep (hself ())) ()

/-! ## Expressions -/

section

variable {self : Parser Expr} (hself : Sites cx tokens self (·.Everywhere (Expr.Placed tokens)))
include hself

theorem Sites.letForm (hword : ⟨.keyword .let_, span⟩ ∈ tokens) :
    Sites cx tokens (Parser.letForm self span) (·.Everywhere (Expr.Placed tokens)) := by
  refine .bind .ident fun x hx => .skip .mark fun _ => .bind hself fun d hd =>
    .skip .word fun _ => ?_
  refine .bind hself fun body hbody => .pure (Expr.everywhere_of_sited ⟨hword, hx⟩ rfl ?_)
  simpa [Expr.parts] using ⟨hd, hbody⟩

theorem Sites.ifForm (hword : ⟨.keyword .if_, span⟩ ∈ tokens) :
    Sites cx tokens (Parser.ifForm self span) (·.Everywhere (Expr.Placed tokens)) := by
  refine .bind hself fun c hc => .skip .word fun _ => .bind hself fun yes hyes =>
    .skip .word fun _ => ?_
  refine .bind hself fun no hno => .pure (Expr.everywhere_of_sited hword rfl ?_)
  simpa [Expr.parts] using ⟨hc, hyes, hno⟩

theorem Sites.caseArm : Sites cx tokens (Parser.caseArm self) fun a =>
    a.pattern.Everywhere (Pattern.Sited tokens) ∧
      ∀ e ∈ a.exprs, e.Everywhere (Expr.Placed tokens) := by
  refine .bind .pattern fun p hp => .bind (.behind rfl hself) fun g hg => .skip .word fun _ => ?_
  refine .bind hself fun body hbody => .pure ⟨hp, ?_⟩
  refine List.forall_mem_append.mpr ⟨fun e he => hg e (Option.mem_toList.mp he), ?_⟩
  exact List.forall_mem_singleton.mpr hbody

theorem Sites.caseForm (hword : ⟨.keyword .case, span⟩ ∈ tokens) :
    Sites cx tokens (Parser.caseForm self span) (·.Everywhere (Expr.Placed tokens)) := by
  refine .bind hself fun e he => .skip .word fun _ => ?_
  refine .bind (.delimited (.caseArm hself)) fun arms harms =>
    .pure (Expr.everywhere_iff.mpr ⟨⟨hword, ?_⟩, ?_⟩)
  · intro p hp
    obtain ⟨a, ha, rfl⟩ := List.mem_map.mp hp
    exact (harms a ha).1
  · refine List.forall_mem_cons.mpr ⟨he, fun d hd => ?_⟩
    obtain ⟨a, ha, hd⟩ := List.mem_flatMap.mp hd
    exact (harms a ha).2 d hd

omit hself in
theorem Sites.superForm (hword : ⟨.keyword .super, span⟩ ∈ tokens) :
    Sites cx tokens (Parser.superForm span) (·.Everywhere (Expr.Placed tokens)) :=
  .skip .mark fun _ => .bind .ident fun _ hx =>
    .pure (Expr.everywhere_of_sited ⟨hword, hx⟩ rfl fun _ h => absurd h List.not_mem_nil)

theorem SitesBehind.parenForm (hmem : ⟨.punct .lparen, span⟩ ∈ tokens) :
    SitesBehind cx tokens ⟨.punct .lparen, span⟩ (Parser.parenForm self span)
      (·.Everywhere (Expr.Placed tokens)) := by
  refine .unit_or
    (fun place h => Expr.everywhere_of_sited h rfl fun _ h => absurd h List.not_mem_nil) ?_
  refine .bind hself fun first hfirst => .skip (.eat rfl) fun more => ?_
  cases more with
  | false =>
    exact .skip .mark fun _ =>
      .pure (Expr.everywhere_of_sited hmem rfl (List.forall_mem_singleton.mpr hfirst))
  | true =>
    refine .bind (.commaList hself 1) fun rest hrest => .skip .mark fun _ => .pure ?_
    exact Expr.everywhere_of_sited hmem rfl (List.forall_mem_cons.mpr ⟨hfirst, hrest⟩)

omit hself in
/-- The constant that a token stands for is sited at the token. -/
theorem literal_sited (h : literalOf? kind = .some value) (hmem : ⟨kind, span⟩ ∈ tokens) :
    value.Sited tokens span := by
  unfold literalOf? at h
  split at h <;> cases h
  · exact hmem
  · exact hmem
  · exact .word hmem
  · exact hmem
  · exact hmem

theorem Sites.primary :
    Sites cx tokens (Parser.primary self) (·.Everywhere (Expr.Placed tokens)) := by
  refine .branch_behind (fun _ => rfl) (fun token q hq hmem => ?_)
    (.fail (fun _ _ => rfl) fun _ _ => .inl rfl)
  obtain ⟨kind, span⟩ := token
  -- An expression without others inside.
  have leaf : ∀ {e : Expr}, e.Sited tokens → e.patterns = [] → e.parts = [] →
      SitesBehind cx tokens ⟨kind, span⟩ (return e) (·.Everywhere (Expr.Placed tokens)) :=
    fun hs hps hp => (Sites.pure (Expr.everywhere_of_sited hs hps (by simp [hp]))).behind_token
  unfold primaryForms at hq
  split at hq
  · next value hvalue =>
    cases hq
    exact leaf (literal_sited hvalue hmem) rfl rfl
  unfold compoundForms at hq
  dsimp only at hq
  split at hq <;> cases hq
  case h_1 => exact (Sites.letForm hself hmem).behind_token
  case h_2 =>
    exact Sites.behind_token
      (.bind hself.delimited fun es hes => .pure (Expr.everywhere_of_sited hmem rfl hes))
  case h_3 => exact (Sites.ifForm hself hmem).behind_token
  case h_4 => exact (Sites.caseForm hself hmem).behind_token
  case h_5 => exact (Sites.superForm hmem).behind_token
  case h_6 | h_7 => exact leaf hmem rfl rfl
  case h_8 =>
    exact Sites.behind_token
      (.bind hself.closed fun es hes => .pure (Expr.everywhere_of_sited hmem rfl hes))
  case h_9 => exact .parenForm hself hmem

theorem Sites.arguments :
    Sites cx tokens (Parser.arguments self) fun es =>
      ∀ e ∈ es, e.Everywhere (Expr.Placed tokens) := by
  refine .bind (.unlessAt (.commaList hself 0)) fun r hr => .skip .mark fun _ => .pure ?_
  cases r with
  | none => exact fun e he => absurd he List.not_mem_nil
  | some es => exact hr es rfl

/-- What makes a sited expression longer makes it a sited one. -/
theorem Sites.suffixStep : Sites cx tokens (Parser.suffixStep self) (Yields.Items fun suffix =>
    ∀ e : Expr, e.Everywhere (Expr.Placed tokens) →
      (suffix.apply e).Everywhere (Expr.Placed tokens)) := by
  refine .branch (fun _ => rfl) (fun token q hq hmem => ?_) (.pure trivial)
  obtain ⟨kind, span⟩ := token
  unfold suffixForms at hq
  dsimp only at hq
  split at hq <;> cases hq
  · refine .bind (.arguments hself) fun args hargs => .pure fun e he => ?_
    exact Expr.everywhere_of_sited hmem rfl (List.forall_mem_cons.mpr ⟨he, hargs⟩)
  · refine .bind .ident fun x hx => .pure fun e he => ?_
    exact Expr.everywhere_of_sited hx rfl (List.forall_mem_singleton.mpr he)

omit hself in
/-- What each item keeps is kept by all of them, from the left. -/
theorem foldl_keeps {σ : Type} {I : σ → Prop} {f : σ → α → σ} {s : σ} {as : List α}
    (h : ∀ a ∈ as, ∀ s, I s → I (f s a)) (hs : I s) : I (as.foldl f s) := by
  induction as generalizing s with
  | nil => exact hs
  | cons a as ih =>
    rw [List.forall_mem_cons] at h
    exact ih h.2 (h.1 s hs)

theorem Sites.postfixed :
    Sites cx tokens (Parser.postfixed self) (·.Everywhere (Expr.Placed tokens)) := by
  refine .bind (.primary hself) fun e he =>
    .bind (.collect (fun _ => .suffixStep hself) 0) fun suffixes h => .pure ?_
  exact foldl_keeps (I := Expr.Everywhere (Expr.Placed tokens)) h he

omit hself in
/-- An operator in front stands where its token does. -/
theorem Sites.unaryOps :
    Sites cx tokens Parser.unaryOps fun ops => ∀ op ∈ ops, ⟨.punct op.1.mark, op.2⟩ ∈ tokens := by
  refine .collect (fun _ => ?_) 0
  refine .branch (fun _ => rfl) (fun token q hq hmem => ?_) (.pure trivial)
  obtain ⟨op, hop, rfl⟩ := Option.map_eq_some_iff.mp hq
  obtain ⟨kind, span⟩ := token
  obtain rfl := UnaryOp.ofToken?_eq_some_iff.mp hop
  exact .pure hmem

theorem Sites.unary : Sites cx tokens (Parser.unary self) (·.Everywhere (Expr.Placed tokens)) := by
  refine .bind .unaryOps fun ops hops => .bind (.postfixed hself) fun e he => .pure ?_
  induction ops with
  | nil => exact he
  | cons op ops ih =>
    rw [List.forall_mem_cons] at hops
    exact Expr.everywhere_of_sited hops.1 rfl (List.forall_mem_singleton.mpr (ih hops.2))

end

theorem Sites.chainStep {operand : Parser Expr}
    (h : Sites cx tokens operand (·.Everywhere (Expr.Placed tokens))) :
    Sites cx tokens (Parser.chainStep n operand) (Yields.Items fun item =>
      ⟨item.1.token, item.2.1⟩ ∈ tokens ∧ item.2.2.Everywhere (Expr.Placed tokens)) := by
  refine .branch (fun _ => rfl) (fun token q hq hmem => ?_) (.pure trivial)
  obtain ⟨kind, span⟩ := token
  unfold chainForms at hq
  split at hq
  · next op hop =>
    obtain rfl : kind = op.token := BinaryOp.ofToken?_eq_some_iff.mp hop
    split at hq
    · cases hq
      exact h.bind fun right hright => .pure ⟨hmem, hright⟩
    · cases hq
  · cases hq

theorem Sites.chain {operand : Parser Expr}
    (h : Sites cx tokens operand (·.Everywhere (Expr.Placed tokens))) :
    Sites cx tokens (Parser.chain n operand) (·.Everywhere (Expr.Placed tokens)) := by
  refine .bind h fun first hfirst => .bind (.collect (fun _ => .chainStep h) 0) fun rest hrest =>
    .pure ?_
  refine foldl_keeps (I := Expr.Everywhere (Expr.Placed tokens))
    (fun item hitem left hleft => ?_) hfirst
  obtain ⟨hop, hright⟩ := hrest item hitem
  refine Expr.everywhere_of_sited hop rfl ?_
  simpa [Expr.parts] using ⟨hleft, hright⟩

/-- An assignment that is not allowed is an error at the equals sign. -/
theorem Sites.assignTo (hleft : left.Everywhere (Expr.Placed tokens))
    (hvalue : value.Everywhere (Expr.Placed tokens)) (heq : ⟨.punct .eq, span⟩ ∈ tokens) :
    Sites cx tokens (Parser.assignTo left span value) (·.Everywhere (Expr.Placed tokens)) := by
  obtain ⟨⟨hsited, -⟩, hparts⟩ := Expr.everywhere_iff.mp hleft
  unfold Parser.assignTo
  split
  · exact .pure (Expr.everywhere_of_sited hsited rfl (List.forall_mem_singleton.mpr hvalue))
  · next object name =>
    refine .pure (Expr.everywhere_of_sited hsited rfl ?_)
    simpa [Expr.parts] using ⟨hparts object (List.mem_singleton_self object), hvalue⟩
  · refine .skip (.report ?_) fun _ => .pure hleft
    exact .of_mem (List.mem_append_left _ heq) rfl (.inr rfl)

theorem Sites.assignment {self : Parser Expr}
    (hself : Sites cx tokens self (·.Everywhere (Expr.Placed tokens))) :
    Sites cx tokens (Parser.assignment self) (·.Everywhere (Expr.Placed tokens)) := by
  have hinfixed : Sites cx tokens (Parser.infixed self) (·.Everywhere (Expr.Placed tokens)) :=
    (Sites.unary hself).chain.chain.chain.chain.chain.chain
  refine hinfixed.bind fun left hleft => .onKind rfl (fun span heq => ?_) (.pure hleft)
  exact .bind hself fun value hvalue => .assignTo hleft hvalue heq

/-- Every node of an expression has its place. -/
theorem Sites.expression : Sites cx tokens Parser.expression (·.Everywhere (Expr.Placed tokens)) :=
  .fix (P := fun _ => Expr.Everywhere (Expr.Placed tokens))
    (fun _ hself _ => .assignment (hself ())) ()

theorem Sites.completeExpression :
    Sites cx tokens Parser.completeExpression (·.Everywhere (Expr.Placed tokens)) := by
  refine .bind .expression fun e he => .skip .check fun b => ?_
  cases b with
  | true => exact .pure he
  | false => exact .fail (fun _ _ => rfl) fun _ _ => .inl rfl

/-! ## Statements -/

/-- The statement may be read without others inside. -/
theorem Stmt.everywhere_of_exprs {s : Stmt} (hs : s.Sited tokens) (hp : s.parts = [])
    (hexprs : ∀ e ∈ s.exprs, e.Everywhere (Expr.Placed tokens)) :
    s.Everywhere (Stmt.Placed tokens) :=
  Stmt.everywhere_of_sited hs hexprs (by simp [hp])

theorem Sites.varDecl : Sites cx tokens Parser.varDecl (·.Everywhere (Stmt.Placed tokens)) :=
  .bind .ident fun _ hx => .bind (.behind rfl .expression) fun _ he => .skip .mark fun _ =>
    .pure (Stmt.everywhere_of_exprs hx rfl (forall_mem_toList he))

theorem Sites.exprThen {f : Expr → Parser Stmt}
    (hf : ∀ e, Sites cx tokens (f e) fun s => s = .expr e) :
    Sites cx tokens (Parser.expression >>= f) (·.Everywhere (Stmt.Placed tokens)) := by
  refine .bind .expression fun e he => (hf e).mono fun s hs => ?_
  subst hs
  exact Stmt.everywhere_of_exprs trivial rfl (List.forall_mem_singleton.mpr he)

theorem Sites.forInitializer :
    Sites cx tokens Parser.forInitializer fun r => ∀ s ∈ r, s.Everywhere (Stmt.Placed tokens) := by
  refine .onKind rfl (fun _ _ => .none) (Sites.some ?_)
  exact .onKind rfl (fun _ _ => .varDecl) (.exprThen fun _ => .skip .mark fun _ => .pure rfl)

theorem Sites.returnValue :
    Sites cx tokens Parser.returnValue fun r => ∀ e ∈ r, e.Everywhere (Expr.Placed tokens) := by
  refine .skip .peek fun token => ?_
  cases token.kind.beginsExpr with
  | true => exact Sites.expression.some
  | false => exact .none

section

variable {self : Level → Parser Stmt}
  (hself : ∀ l, Sites cx tokens (self l) (·.Everywhere (Stmt.Placed tokens)))
include hself

theorem Sites.blockBody :
    Sites cx tokens (Parser.blockBody self) fun ss =>
      ∀ s ∈ ss, s.Everywhere (Stmt.Placed tokens) := by
  refine .bind (.itemsUntil (.recovering (hself .declaration))) fun found hfound =>
    .skip .mark fun _ => .pure ?_
  intro s hs
  obtain ⟨r, hr, rfl⟩ := List.mem_filterMap.mp hs
  exact hfound _ hr s rfl

/-- Name, parameters and body of a function. -/
theorem Sites.function : Sites cx tokens (Parser.function self context) fun decl =>
    decl.Sited tokens ∧ ∀ s ∈ decl.body, s.Everywhere (Stmt.Placed tokens) := by
  refine .bind .ident fun x hx => .skip .mark fun _ =>
    .bind (.unlessAt (.commaList .ident 0)) fun params hparams => ?_
  refine .skip .mark fun _ => .skip .mark fun _ => .bind (.blockBody hself) fun body hbody =>
    .pure ⟨⟨hx, ?_⟩, hbody⟩
  cases params with
  | none => exact fun _ h => absurd h List.not_mem_nil
  | some xs => exact hparams xs rfl

theorem Sites.classDecl :
    Sites cx tokens (Parser.classDecl self) (·.Everywhere (Stmt.Placed tokens)) := by
  refine .bind .ident fun x hx => .bind (.behind rfl .ident) fun sup hsup => .skip .mark fun _ => ?_
  refine .bind (.itemsUntil (.function hself)) fun methods hmethods => .skip .mark fun _ => .pure ?_
  refine Stmt.everywhere_of_sited ⟨hx, hsup, fun d hd => (hmethods d hd).1⟩
    (fun _ h => absurd h List.not_mem_nil) ?_
  intro t ht
  obtain ⟨d, hd, ht⟩ := List.mem_flatMap.mp ht
  exact (hmethods d hd).2 t ht

theorem Sites.forLoop (hword : ⟨.keyword .for_, span⟩ ∈ tokens) :
    Sites cx tokens (Parser.forLoop self span) (·.Everywhere (Stmt.Placed tokens)) := by
  refine .skip .mark fun _ => .bind .forInitializer fun init hinit => ?_
  refine .bind (.unlessAt .expression) fun c hc => .skip .mark fun _ => ?_
  refine .bind (.unlessAt .expression) fun inc hinc => .skip .mark fun _ => ?_
  refine .bind (hself .statement) fun body hbody => .pure (Stmt.everywhere_of_sited hword ?_ ?_)
  · exact List.forall_mem_append.mpr ⟨forall_mem_toList hc, forall_mem_toList hinc⟩
  · exact List.forall_mem_append.mpr ⟨forall_mem_toList hinit, List.forall_mem_singleton.mpr hbody⟩

/-- One case for each keyword that a statement starts with. -/
theorem Sites.statement :
    Sites cx tokens (Parser.statement self) (·.Everywhere (Stmt.Placed tokens)) := by
  refine .branch (fun _ => rfl) (fun token q hq hmem => ?_)
    (.exprThen fun _ => .skip (.eat rfl) fun _ => .pure rfl)
  obtain ⟨kind, span⟩ := token
  unfold statementForms at hq
  dsimp only at hq
  split at hq <;> cases hq
  · refine .bind .expression fun e he => .skip (.eat rfl) fun _ => .pure ?_
    exact Stmt.everywhere_of_exprs hmem rfl (List.forall_mem_singleton.mpr he)
  · refine .bind .returnValue fun e he => .skip (.eat rfl) fun _ => .pure ?_
    exact Stmt.everywhere_of_exprs hmem rfl (forall_mem_toList he)
  · refine .bind .expression fun c hc => .bind (hself .statement) fun body hbody => .pure ?_
    exact Stmt.everywhere_of_sited hmem (List.forall_mem_singleton.mpr hc)
      (List.forall_mem_singleton.mpr hbody)
  · refine .skip .mark fun _ => .bind (.blockBody hself) fun ss hss => .pure ?_
    exact Stmt.everywhere_of_sited hmem (fun _ h => absurd h List.not_mem_nil) hss
  · exact .forLoop hself hmem
  · refine .bind (.blockBody hself) fun ss hss => .pure ?_
    exact Stmt.everywhere_of_sited hmem (fun _ h => absurd h List.not_mem_nil) hss

theorem Sites.declaration :
    Sites cx tokens (Parser.declaration self) (·.Everywhere (Stmt.Placed tokens)) := by
  refine .branch (fun _ => rfl) (fun token q hq _ => ?_) (.statement hself)
  unfold declarationForms at hq
  split at hq <;> cases hq
  · exact .classDecl hself
  · refine .bind (.function hself) fun decl hdecl => .pure ?_
    exact Stmt.everywhere_of_sited hdecl.1 (fun _ h => absurd h List.not_mem_nil) hdecl.2
  · exact .varDecl

end

/-- Every node of a statement has its place, by induction on the tokens ahead. -/
theorem Sites.stmt (l : Level) :
    Sites cx tokens (Parser.stmt l) (·.Everywhere (Stmt.Placed tokens)) := by
  refine .fix (P := fun _ => Stmt.Everywhere (Stmt.Placed tokens)) (fun self hself l => ?_) l
  cases l with
  | declaration => exact .declaration hself
  | statement => exact .statement hself

/-- Every node of a program has its place. -/
theorem Sites.programBody :
    Sites cx tokens Parser.programBody fun p =>
      ∀ s ∈ p.statements, s.Everywhere (Stmt.Placed tokens) := by
  refine .bind (P := fun found => ∀ r ∈ found, ∀ s ∈ r, s.Everywhere (Stmt.Placed tokens))
    (.collect (fun n => .skip .check fun b => ?_) 0) fun found hfound => .pure fun s hs => ?_
  · cases b with
    | true => exact .pure trivial
    | false => exact .bind (.recovering (.stmt .declaration)) fun r hr => .pure hr
  · obtain ⟨r, hr, rfl⟩ := List.mem_filterMap.mp hs
    exact hfound _ hr s rfl

end Parser

end TreeWalk
