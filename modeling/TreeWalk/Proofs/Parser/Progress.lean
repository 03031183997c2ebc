import TreeWalk.Proofs.Link.Identity
import TreeWalk.Proofs.Parser.Alike
import TreeWalk.Proofs.Parser.Yields

/-!
# Parsing ends and goes forward

The combinators of repetition go on only where fewer tokens are ahead, and are stuck otherwise. In
the grammar they are never stuck. A recursion may be unrolled as many times as there are tokens,
with anything at all at the bottom (`RecursionEnds`), and a loop that does not watch the tokens
ahead ends in as many rounds (`LoopEnds`). On the way the position among the tokens goes forward
only, up to the first end mark (`Progresses`).
-/

namespace TreeWalk.Parser

variable {α β : Type}

/-! ## One parser compared with itself -/

/-- Reading the same tokens in the same setting. -/
def Pairing.same (cx : Context) : Pairing where
  toLink := .same
  left := cx
  right := cx
  error := Eq
  finish := rfl
  merge hb hd := by cases hb; cases hd; rfl
  errors make h := by cases h; rfl

theorem linked_self (ts : List Token) : List.Forall₂ (Token.Linked .same) ts ts :=
  List.forall₂_same.mpr fun t _ => t.linked_self Link.reflexive_same

theorem Note.Linked.eq (a b : Note) (h : Note.Linked (.same cx) a b) : b = a := by
  cases h with
  | error he => exact congrArg _ he.symm
  | resumed hspan => exact congrArg _ hspan.symm

theorem State.Linked.eq {s t : State} (h : State.Linked (.same cx) s t) : t = s := by
  obtain ⟨ahead, notes⟩ := s
  obtain ⟨ahead', notes'⟩ := t
  obtain rfl : ahead' = ahead := forall₂_eq Token.Linked.eq h.ahead
  obtain rfl : notes' = notes := forall₂_eq Note.Linked.eq h.notes
  rfl

theorem Alike.eq_of_same {V : α → α → Prop} {p q : Parser α} (hV : ∀ a b, V a b → b = a)
    (h : Alike (.same cx) n c V p q) (hts : ts.length < n) : q cx ts = p cx ts := by
  have hr := h ts ts hts (linked_self ts)
  change Reply.Linked _ _ _ _ (p cx ts) (q cx ts) at hr
  generalize p cx ts = r at hr
  generalize q cx ts = r' at hr
  cases hr with
  | ok hv hs => rw [hV _ _ hv, hs.eq]
  | fail he hs => rw [hs.eq, show _ = _ from he]

/-- At least `c` tokens are read if the answer is a value, and in any case what is left are the last
of the tokens. -/
structure Takes (c : Nat) (p : Parser α) : Prop where
  ok {cx ts a s} : p cx ts = .ok a s → Leaves c ts s.ahead
  fail {cx ts e s} : p cx ts = .fail e s → s.ahead <:+ ts

namespace Takes

variable {p : Parser α}

theorem of_alike {V : Context → α → α → Prop} (h : ∀ cx n, Alike (.same cx) n c (V cx) p p) :
    Takes c p := by
  have hreply : ∀ cx ts, Reply.Linked (.same cx) c ts (V cx) (p cx ts) (p cx ts) :=
    fun cx ts => h cx _ ts ts (Nat.lt_succ_self _) (linked_self ts)
  constructor
  · intro cx ts a s hp
    have hr := hreply cx ts
    rw [hp] at hr
    cases hr with
    | ok _ _ hleft => exact hleft
  · intro cx ts e s hp
    have hr := hreply cx ts
    rw [hp] at hr
    cases hr with
    | fail _ _ hleft => exact hleft

theorem forward (h : Takes c p) (cx : Context) (ts : List Token) :
    (p cx ts).state.ahead <:+ ts := by
  cases hp : p cx ts with
  | ok a s => exact (h.ok hp).suffix
  | fail e s => exact h.fail hp

end Takes

/-! ## Recursion -/

/-- A recursion that needs no guard: it may be unrolled once more than there are tokens, on top of
anything. -/
structure RecursionEnds {ι : Type} (step : (ι → Parser α) → ι → Parser α) : Prop where
  unfolds : ∀ i, fix step i = step (fix step) i
  bottoms : ∀ (base : ι → Parser α) n i cx ts, ts.length < n →
    unrolled step base n i cx ts = fix step i cx ts

theorem RecursionEnds.of_alike {ι : Type} {step : (ι → Parser α) → ι → Parser α} {V : α → α → Prop}
    (hV : ∀ a b, V a b → b = a)
    (hstep : ∀ cx n self self', (∀ j, Alike (.same cx) n c V (self j) (self' j)) →
      ∀ i, Alike (.same cx) (n + 1) c V (step self i) (step self' i)) : RecursionEnds step where
  unfolds i := by
    funext cx ts
    exact (Alike.eq_of_same hV (.fix_step (hstep cx) ts.length i) (Nat.lt_succ_self _)).symm
  bottoms base n i cx ts hts := Alike.eq_of_same hV (.fix_unrolled (hstep cx) base n i) hts

/-! ## Loops -/

/-- A loop that does not watch the tokens ahead, after `n` rounds of which `base` takes over. -/
def rounds (step : Nat → Parser (Item α)) (base : Nat → Parser (List α)) :
    Nat → Nat → Parser (List α)
  | 0, count => base count
  | n + 1, count => fun cx ts =>
    match step count cx ts with
    | .fail e s => .fail e s
    | .ok .none s => .ok [] s
    | .ok (.last a) s => .ok [a] s
    | .ok (.more a) s => ((rounds step base n (count + 1) cx s.ahead).map (a :: ·)).after s.notes

/-- A loop that needs no guard: it ends in no more rounds than there are tokens and one more. -/
def LoopEnds (step : Nat → Parser (Item α)) : Prop :=
  ∀ base n count cx ts, ts.length < n → rounds step base n count cx ts = collect step count cx ts

/-- A step after which there are more to come has read something. -/
def Advances (step : Nat → Parser (Item α)) : Prop :=
  ∀ ⦃count cx ts a s⦄, step count cx ts = .ok (.more a) s → s.ahead.length < ts.length

theorem ends_eq_false (h : ends close cx ts = .ok false s) : s.ahead = ts ∧ ts ≠ [] := by
  injection h with hfound hs
  refine ⟨(congrArg State.ahead hs).symm, ?_⟩
  rintro rfl
  simp at hfound

theorem check_eof_eq_false (h : check .eof cx ts = .ok false s) : s.ahead = ts ∧ ts ≠ [] := by
  injection h with hfound hs
  refine ⟨(congrArg State.ahead hs).symm, ?_⟩
  rintro rfl
  simp [Context.next] at hfound

namespace Advances

theorem loopEnds {step : Nat → Parser (Item α)} (h : Advances step) : LoopEnds step := by
  intro base n
  induction n with
  | zero => exact fun _ _ ts hts => absurd hts (Nat.not_lt_zero _)
  | succ n ih =>
    intro count cx ts hts
    rw [rounds, collect]
    dsimp only
    cases hr : step count cx ts with
    | fail e s => rfl
    | ok item s =>
      cases item with
      | none | last a => rfl
      | more a =>
        have hlt := h hr
        dsimp only
        rw [if_pos hlt, ih (count + 1) cx s.ahead (by omega)]

theorem of_takes {step : Nat → Parser (Item α)} (h : ∀ count, Takes 1 (step count)) :
    Advances step := by
  intro count cx ts a s hr
  have hlength := ((h count).ok hr).length
  omega

/-- Where nothing is told of the next token, there is no further item. -/
theorem branch {forms : Token → Option (Parser (Item α))}
    (h : Takes 1 (Parser.branch forms stuck)) :
    Advances fun _ => Parser.branch forms (return .none) := by
  intro count cx ts a s hr
  change Parser.branch forms (return .none) cx ts = _ at hr
  have hstuck : Parser.branch forms stuck cx ts = .ok (.more a) s := by
    unfold Parser.branch at hr ⊢
    cases hform : forms (cx.next ts) with
    | none =>
      rw [hform] at hr
      cases hr
    | some p =>
      rw [hform] at hr
      exact hr
  have hlength := (h.ok hstuck).length
  omega

/-- A further item is read only where there are tokens ahead. -/
theorem guarded {atEnd : Parser Bool} {item : Parser (Item α)}
    (hend : ∀ cx ts s, atEnd cx ts = .ok false s → s.ahead = ts ∧ ts ≠ [])
    (hitem : ∀ cx ts a s, ts ≠ [] → item cx ts = .ok (.more a) s → s.ahead.length < ts.length) :
    Advances fun _ => (do if ← atEnd then return .none else item) := by
  intro count cx ts a s hr
  obtain ⟨b, s₁, s₂, hb, hrest, hahead⟩ := bind_eq_ok hr
  cases b with
  | true => cases hrest
  | false =>
    obtain ⟨hs₁, hne⟩ := hend cx ts s₁ hb
    rw [hs₁] at hrest
    rw [← hahead]
    exact hitem cx ts a s₂ hne hrest

/-- Items with separators. -/
theorem items {item : Parser α} (h : Takes 1 (itemThen sep item)) :
    Advances fun _ => (do if ← ends close then return .none else itemThen sep item) :=
  guarded (fun _ _ _ => ends_eq_false) fun _ _ _ _ _ hr => (h.ok hr).length

/-- Items without separators. -/
theorem each {atEnd : Parser Bool} {item : Parser α}
    (hend : ∀ cx ts s, atEnd cx ts = .ok false s → s.ahead = ts ∧ ts ≠ [])
    (hitem : ∀ cx ts a s, ts ≠ [] → item cx ts = .ok a s → s.ahead.length < ts.length) :
    Advances fun _ => (do if ← atEnd then return .none else return .more (← item)) := by
  refine guarded hend fun cx ts a s hne hr => ?_
  obtain ⟨b, s₁, s₂, hb, hrest, hahead⟩ := bind_eq_ok hr
  cases hrest
  rw [← hahead]
  exact hitem cx ts a s₁ hne hb

end Advances

/-- A declaration given up is passed over, so something is read in any case where there are tokens
ahead. -/
theorem recovering_advances {p : Parser α} (h : Takes 1 p) (cx : Context) (hts : ts ≠ []) :
    ∃ found s, recovering p cx ts = .ok found s ∧ s.ahead <:+ ts ∧ s.ahead.length < ts.length := by
  have hpos := List.length_pos_iff.mpr hts
  unfold recovering
  cases hp : p cx ts with
  | ok a s =>
    have hleft := h.ok hp
    have hlength := hleft.length
    exact ⟨_, _, rfl, hleft.suffix, by omega⟩
  | fail e s =>
    have hleft := h.fail hp
    have hskip := Alike.skipToBoundary_suffix s.ahead
    have hlength := hskip.length_le
    have hshorter := hleft.length_le
    rw [List.length_tail] at hlength
    exact ⟨_, _, rfl, (hskip.trans (List.tail_suffix _)).trans hleft, by dsimp only; omega⟩

/-! ## The grammar -/

/-- One round of reading a program. -/
def programStep (_ : Nat) : Parser (Item (Option Stmt)) := do
  if ← check .eof then
    return .none
  else
    return .more (← recovering (stmt .declaration))

/-- The loops of the grammar: what is read, by which step, behind how many items. -/
inductive Loop : {α : Type} → Parser (List α) → (Nat → Parser (Item α)) → Nat → Prop where
  | tuplePattern :
      Loop (collect (fun _ => itemThen .comma pattern) 1) (fun _ => itemThen .comma pattern) 1
  | vectorPattern : Loop (items .comma .rbracket pattern)
      (fun _ => do if ← ends .rbracket then return .none else itemThen .comma pattern) 0
  | caseArms : Loop (items .comma .rbrace (caseArm expression))
      (fun _ => do if ← ends .rbrace then return .none else itemThen .comma (caseArm expression)) 0
  | doBody : Loop (items .semicolon .rbrace expression)
      (fun _ => do if ← ends .rbrace then return .none else itemThen .semicolon expression) 0
  | vector : Loop (items .comma .rbracket expression)
      (fun _ => do if ← ends .rbracket then return .none else itemThen .comma expression) 0
  | tuple : Loop (commaList .tupleElements expression 1)
      (fun n => do limit .tupleElements n; itemThen .comma expression) 1
  | arguments : Loop (commaList .arguments expression 0)
      (fun n => do limit .arguments n; itemThen .comma expression) 0
  | parameters : Loop (commaList .parameters (ident "parameter name") 0)
      (fun n => do limit .parameters n; itemThen .comma (ident "parameter name")) 0
  | suffixes : Loop (collect (fun _ => suffixStep expression) 0) (fun _ => suffixStep expression) 0
  | unaryOps : Loop unaryOps (fun _ => branch unaryForms (return .none)) 0
  /-- The operands of one level are made of the levels above it. -/
  | operators (level : Nat) (levels : List Nat) :
      Loop (collect (fun _ => chainStep level (levels.foldr chain (unary expression))) 0)
        (fun _ => chainStep level (levels.foldr chain (unary expression))) 0
  | block : Loop (itemsUntil .rbrace (recovering (stmt .declaration)))
      (fun _ => do
        if ← ends .rbrace then return .none else return .more (← recovering (stmt .declaration))) 0
  | methods : Loop (itemsUntil .rbrace (function stmt "method name"))
      (fun _ => do
        if ← ends .rbrace then return .none else return .more (← function stmt "method name")) 0
  | program : Loop (collect programStep 0) programStep 0

theorem takes_stmt (l : Level) : Takes 1 (stmt l) :=
  .of_alike fun _ _ => .stmt l

namespace Loop

theorem eq_collect {p : Parser (List α)} (h : Loop p step k) : p = collect step k := by
  cases h <;> rfl

theorem advances {p : Parser (List α)} (h : Loop p step k) : Advances step := by
  have hdeclaration : ∀ cx ts a s, ts ≠ [] → recovering (stmt .declaration) cx ts = .ok a s →
      s.ahead.length < ts.length := by
    intro cx ts a s hne hr
    obtain ⟨_, _, hfound, -, hlt⟩ := recovering_advances (takes_stmt .declaration) cx hne
    rw [hr] at hfound
    cases hfound
    exact hlt
  have hmethod : Takes 1 (function stmt "method name") := .of_alike fun _ _ =>
    .function fun l => .stmt l
  cases h with
  | tuplePattern => exact .of_takes fun _ => .of_alike fun _ _ => Alike.pattern.itemThen
  | vectorPattern => exact .items (.of_alike fun _ _ => Alike.pattern.itemThen)
  | caseArms => exact .items (.of_alike fun _ _ => Alike.expression.caseArm.itemThen)
  | doBody | vector => exact .items (.of_alike fun _ _ => Alike.expression.itemThen)
  | tuple | arguments =>
    exact .of_takes fun _ => .of_alike fun _ _ => .before .limit fun _ _ _ =>
      Alike.expression.itemThen
  | parameters =>
    exact .of_takes fun _ => .of_alike fun _ _ => .before .limit fun _ _ _ => Alike.ident.itemThen
  | suffixes =>
    exact .branch (.of_alike fun _ _ =>
      .branch (fun _ => rfl) (fun _ _ => Alike.expression.suffixForms) .fail (Nat.le_refl 1))
  | unaryOps =>
    exact .branch (.of_alike fun _ _ =>
      .branch (fun _ => rfl) (fun _ _ => Alike.unaryForms) .fail (Nat.le_refl 1))
  | operators level levels =>
    exact .branch (.of_alike fun _ _ =>
      .branch (fun _ => rfl) (fun _ _ => (Alike.expression.chains levels).chainForms) .fail
        (Nat.le_refl 1))
  | block => exact .each (fun _ _ _ => ends_eq_false) hdeclaration
  | methods => exact .each (fun _ _ _ => ends_eq_false) fun _ _ _ _ _ hr => (hmethod.ok hr).length
  | program => exact .each (fun _ _ _ => check_eof_eq_false) hdeclaration

theorem alike {p : Parser (List α)} (h : Loop p step k) : ∃ V : Context → α → α → Prop, ∀ cx n m,
    Alike (.same cx) n 0 (Item.Rel (V cx)) (step m) (step m) := by
  cases h with
  | tuplePattern => exact ⟨_, fun _ _ _ => Alike.pattern.itemThen.loose⟩
  | vectorPattern => exact ⟨_, fun _ _ _ => .unlessAtEnd (.ends _) Alike.pattern.itemThen.loose⟩
  | caseArms =>
    exact ⟨_, fun _ _ _ => .unlessAtEnd (.ends _) Alike.expression.caseArm.itemThen.loose⟩
  | doBody | vector =>
    exact ⟨_, fun _ _ _ => .unlessAtEnd (.ends _) Alike.expression.itemThen.loose⟩
  | tuple | arguments =>
    exact ⟨_, fun _ _ _ => .bind .limit fun _ _ _ => Alike.expression.itemThen.loose⟩
  | parameters => exact ⟨_, fun _ _ _ => .bind .limit fun _ _ _ => Alike.ident.itemThen.loose⟩
  | suffixes =>
    exact ⟨_, fun _ _ _ =>
      .branch (fun _ => rfl) (fun _ _ => Alike.expression.suffixForms) (.pure .none)
        (Nat.zero_le 1)⟩
  | unaryOps =>
    exact ⟨_, fun _ _ _ =>
      .branch (fun _ => rfl) (fun _ _ => Alike.unaryForms) (.pure .none) (Nat.zero_le 1)⟩
  | operators level levels =>
    exact ⟨_, fun _ _ _ =>
      .branch (fun _ => rfl) (fun _ _ => (Alike.expression.chains levels).chainForms) (.pure .none)
        (Nat.zero_le 1)⟩
  | block =>
    exact ⟨_, fun _ _ _ => .unlessAtEnd (.ends _) (Alike.stmt .declaration).recovering.more⟩
  | methods => exact ⟨_, fun _ _ _ => .unlessAtEnd (.ends _) (Alike.function fun l => .stmt l).more⟩
  | program =>
    exact ⟨_, fun _ _ _ => .unlessAtEnd .checkEnd (Alike.stmt .declaration).recovering.more⟩

end Loop

/-- The parsers of the grammar that call each other, the loops among them and the rounds of
these. -/
inductive Production : {α : Type} → Parser α → Prop where
  | pattern : Production pattern
  | expression : Production expression
  | completeExpression : Production completeExpression
  | stmt (l : Level) : Production (stmt l)
  | declaration : Production (recovering (stmt .declaration))
  | program : Production programBody
  | loop : Loop p step k → Production p
  | round : Loop p step k → Production (step n)

theorem Production.forward {p : Parser α} (h : Production p) (cx : Context) (ts : List Token) :
    (p cx ts).state.ahead <:+ ts := by
  cases h with
  | pattern => exact Takes.forward (.of_alike fun _ _ => .pattern) cx ts
  | expression => exact Takes.forward (.of_alike fun _ _ => .expression) cx ts
  | completeExpression => exact Takes.forward (.of_alike fun _ _ => .completeExpression) cx ts
  | stmt l => exact (takes_stmt l).forward cx ts
  | declaration => exact Takes.forward (.of_alike fun _ _ => (Alike.stmt _).recovering) cx ts
  | program => exact Takes.forward (.of_alike fun _ _ => .programBody) cx ts
  | @loop _ _ step k hloop =>
    obtain ⟨V, hstep⟩ := hloop.alike
    rw [hloop.eq_collect]
    exact Takes.forward (.of_alike fun cx n => .collect (hstep cx n) k) cx ts
  | round hloop =>
    obtain ⟨V, hstep⟩ := hloop.alike
    exact Takes.forward (.of_alike fun cx n => hstep cx n _) cx ts

/-- A loop that never fails goes on to where it finds no further item. -/
theorem exists_collect (cx : Context) {step : Nat → Parser (Item α)} (Q : List Token → Prop)
    (h : ∀ k ts, (∃ s, step k cx ts = .ok .none s ∧ Q s.ahead) ∨
      ∃ a s, step k cx ts = .ok (.more a) s ∧ s.ahead.length < ts.length)
    (k : Nat) (ts : List Token) :
    ∃ as s, collect step k cx ts = .ok as s ∧ Q s.ahead := by
  induction hn : ts.length using Nat.strongRecOn generalizing k ts with
  | ind n ih =>
    subst hn
    rw [collect]
    rcases h k ts with ⟨s, hs, hend⟩ | ⟨a, s, hs, hlt⟩
    · rw [hs]
      exact ⟨[], s, rfl, hend⟩
    · obtain ⟨as, t, ht, hend⟩ := ih _ hlt (k + 1) s.ahead rfl
      rw [hs]
      dsimp only
      rw [if_pos hlt, ht]
      exact ⟨a :: as, _, rfl, hend⟩

/-- A program is read up to an end mark, whatever is wrong with it. -/
theorem exists_programBody (cx : Context) (ts : List Token) :
    ∃ p s, programBody cx ts = .ok p s ∧ (cx.next s.ahead).isEof = true := by
  have hstep : ∀ k ts, (∃ s, programStep k cx ts = .ok .none s ∧ (cx.next s.ahead).isEof = true) ∨
      ∃ a s, programStep k cx ts = .ok (.more a) s ∧ s.ahead.length < ts.length := by
    intro k ts
    have hcheck : check .eof cx ts = .ok ((cx.next ts).kind == .eof) ⟨ts, []⟩ := rfl
    cases hb : (cx.next ts).kind == .eof with
    | true =>
      rw [hb] at hcheck
      refine .inl ⟨⟨ts, []⟩, bind_of_ok hcheck, ?_⟩
      rw [Token.isEof, eq_of_beq hb]
      rfl
    | false =>
      rw [hb] at hcheck
      obtain ⟨found, s, hs, -, hlt⟩ :=
        recovering_advances (takes_stmt .declaration) cx (check_eof_eq_false hcheck).2
      exact .inr ⟨found, _,
        (bind_of_ok hcheck).trans (congrArg (Reply.after []) (bind_of_ok hs)), hlt⟩
  obtain ⟨found, s, hs, hend⟩ :=
    exists_collect cx (fun ahead => (cx.next ahead).isEof = true) hstep 0 ts
  exact ⟨_, _, bind_of_ok hs, hend⟩

/-! ## Positions -/

/-- The tokens with an end mark put behind them, unless the last of them is one. -/
def sealed (tokens : List Token) : List Token :=
  match tokens.getLast? with
  | some last =>
    if last.isEof then tokens
    else tokens ++ [⟨.eof, .point ⟨last.span.stop, last.span.line, last.span.column⟩⟩]
  | none => [⟨.eof, .point .origin⟩]

/-- The tokens in front of the first end mark. -/
def body (tokens : List Token) : List Token :=
  tokens.takeWhile (!·.isEof)

/-- The number of tokens that have been read where the tokens `ahead` have not. -/
def position (tokens ahead : List Token) : Nat :=
  (body tokens).length - ahead.length

theorem mem_body (h : t ∈ body tokens) : t.isEof = false := by
  simpa using List.all_eq_true.mp List.all_takeWhile t h

theorem sealed_eq_append (tokens : List Token) : ∃ more, sealed tokens = tokens ++ more := by
  unfold sealed
  split
  · split
    · exact ⟨[], (List.append_nil tokens).symm⟩
    · exact ⟨_, rfl⟩
  · next hlast =>
    rw [List.getLast?_eq_none_iff.mp hlast]
    exact ⟨_, rfl⟩

/-- In front of the first end mark stands all that is read, and its place is where the input
ends. -/
theorem sealed_eq (tokens : List Token) :
    ∃ rest, sealed tokens = body tokens ++ ⟨.eof, finishOf tokens⟩ :: rest := by
  cases hfind : tokens.find? Token.isEof with
  | some mark =>
    obtain ⟨heof, as, bs, rfl, has⟩ := List.find?_eq_some_iff_append.mp hfind
    obtain ⟨more, hmore⟩ := sealed_eq_append (as ++ mark :: bs)
    have hmark : mark = ⟨.eof, finishOf (as ++ mark :: bs)⟩ := by
      unfold finishOf
      rw [hfind]
      obtain ⟨kind, span⟩ := mark
      cases kind <;> first | rfl | cases heof
    have hbody : body (as ++ mark :: bs) = as := by
      rw [body, List.takeWhile_append_of_pos has]
      simp [heof]
    refine ⟨bs ++ more, ?_⟩
    rw [hmore, hbody, ← hmark]
    simp
  | none =>
    have hnone : ∀ t ∈ tokens, t.isEof = false := by simpa using List.find?_eq_none.mp hfind
    have hbody : body (tokens ++ []) = tokens ++ [] := List.takeWhile_append_of_pos fun t ht => by
      simp [hnone t ht]
    refine ⟨[], ?_⟩
    rw [List.append_nil] at hbody
    rw [hbody]
    unfold sealed finishOf
    rw [hfind]
    cases hlast : tokens.getLast? with
    | none => rw [List.getLast?_eq_none_iff.mp hlast]; rfl
    | some last =>
      have hlast := hnone last (List.mem_of_getLast? hlast)
      dsimp only
      rw [if_neg (by simp [hlast])]

/-- The first end mark stands behind all that is read. -/
theorem findIdx_sealed (tokens : List Token) :
    (sealed tokens).findIdx Token.isEof = (body tokens).length := by
  obtain ⟨rest, hsealed⟩ := sealed_eq tokens
  have hnone : (body tokens).findIdx Token.isEof = (body tokens).length :=
    List.findIdx_eq_length.mpr fun _ => mem_body
  rw [hsealed, List.findIdx_append, hnone, if_neg (Nat.lt_irrefl _)]
  simp [List.findIdx_cons, Token.isEof, TokenKind.isEof]

theorem position_mono {tokens : List Token} (hafter : after <:+ ahead) :
    position tokens ahead ≤ position tokens after := by
  have hlength := hafter.length_le
  unfold position
  omega

section

variable {tokens ahead : List Token} (h : ahead <:+ body tokens)
include h

/-- The token at a position is what is looked at there. -/
theorem getElem?_position (source : String) :
    (sealed tokens)[position tokens ahead]? =
      some ((Context.ofTokens source tokens).next ahead) := by
  obtain ⟨rest, hsealed⟩ := sealed_eq tokens
  obtain ⟨front, hfront⟩ := h
  have hposition : position tokens ahead = front.length := by
    rw [position, ← hfront, List.length_append, Nat.add_sub_cancel]
  rw [hposition, hsealed, ← hfront, List.append_assoc, List.getElem?_append_right (Nat.le_refl _),
    Nat.sub_self]
  cases ahead with
  | nil => rfl
  | cons t ahead => rfl

theorem position_lt (hafter : after.length < ahead.length) :
    position tokens ahead < position tokens after := by
  have hlength := h.length_le
  unfold position
  omega

end

/-- The token in front of a position. -/
theorem getElem?_position_pred (h : t :: ahead <:+ body tokens) :
    0 < position tokens ahead ∧ (sealed tokens)[position tokens ahead - 1]? = some t := by
  have hprevious := getElem?_position h ""
  have hposition : position tokens ahead = position tokens (t :: ahead) + 1 := by
    have hlength := h.length_le
    rw [List.length_cons] at hlength
    simp only [position, List.length_cons]
    omega
  rw [hposition]
  exact ⟨Nat.succ_pos _, hprevious⟩

theorem not_eof_iff {cx : Context} (h : ahead <:+ body tokens) :
    (cx.next ahead).isEof = false ↔ ahead ≠ [] := by
  cases ahead with
  | nil => simp [Context.next, Token.isEof, TokenKind.isEof]
  | cons t ahead =>
    have hmem : t ∈ body tokens := h.subset List.mem_cons_self
    simp [Context.next, mem_body hmem]

/-! ## Runs -/

/-- All recursions and loops of the grammar end without their guards. -/
structure GrammarEnds : Prop where
  patterns : RecursionEnds fun self (_ : Unit) => patternStep (self ())
  expressions : RecursionEnds fun self (_ : Unit) => assignment (self ())
  statements : RecursionEnds stmtStep
  loops : ∀ {α : Type} {p : Parser (List α)} {step k}, Loop p step k →
    p = collect step k ∧ LoopEnds step

/-- How the position goes through the tokens. -/
structure Progresses (source : String) (tokens : List Token) : Prop where
  /-- There is a first end mark. -/
  marked : (sealed tokens).findIdx Token.isEof < (sealed tokens).length
  /-- The next token is the one at the position. -/
  next : ∀ ahead, ahead <:+ body tokens →
    (sealed tokens)[position tokens ahead]? = some ((Context.ofTokens source tokens).next ahead)
  /-- The token that was read last is the one in front of the position. -/
  previous : ∀ t ahead, t :: ahead <:+ body tokens →
    0 < position tokens ahead ∧ (sealed tokens)[position tokens ahead - 1]? = some t
  /-- A position is kept or left behind, and the first end mark is not. -/
  forward : ∀ {α : Type} {p : Parser α}, Production p → ∀ ahead, ahead <:+ body tokens →
    let after := (p (.ofTokens source tokens) ahead).state.ahead
    after <:+ body tokens ∧ position tokens ahead ≤ position tokens after ∧
      position tokens after ≤ (sealed tokens).findIdx Token.isEof
  /-- A declaration reads something or passes something over. -/
  declaration : ∀ ahead, ahead <:+ body tokens →
    ((Context.ofTokens source tokens).next ahead).isEof = false →
    ∃ found s, recovering (stmt .declaration) (.ofTokens source tokens) ahead = .ok found s ∧
      position tokens ahead < position tokens s.ahead
  /-- A program is read up to the first end mark. -/
  program : ∃ p s, programBody.run source tokens = .ok p s ∧
    position tokens s.ahead = (sealed tokens).findIdx Token.isEof

theorem grammar_ends : GrammarEnds where
  patterns := .of_alike (fun _ _ => Pattern.Linked.eq) fun _ _ _ _ h _ => (h ()).patternStep
  expressions := .of_alike (fun _ _ => Expr.Linked.eq) fun _ _ _ _ h _ => (h ()).assignment
  statements := .of_alike (fun _ _ => Stmt.Linked.eq) fun _ _ _ _ h l => .stmtStep h l
  loops hloop := ⟨hloop.eq_collect, hloop.advances.loopEnds⟩

theorem run_programBody (source : String) (tokens : List Token) :
    ∃ p s, programBody.run source tokens = .ok p s ∧ s.ahead = [] := by
  obtain ⟨p, s, hs, hnext⟩ := exists_programBody (.ofTokens source tokens) (body tokens)
  have hforward := Production.program.forward (.ofTokens source tokens) (body tokens)
  rw [hs] at hforward
  have hsuffix : s.ahead <:+ body tokens := hforward
  refine ⟨p, s, hs, ?_⟩
  by_contra hne
  rw [(not_eof_iff hsuffix).mpr hne] at hnext
  cases hnext

/-- Parsing ends and goes forward, whatever the tokens are and wherever there are end marks among
them. -/
theorem parsing_ends_and_goes_forward :
    GrammarEnds ∧ ∀ source tokens, Progresses source tokens := by
  refine ⟨grammar_ends, fun source tokens => ?_⟩
  have hend := findIdx_sealed tokens
  refine ⟨?_, fun _ h => getElem?_position h source, fun _ _ => getElem?_position_pred, ?_, ?_, ?_⟩
  · obtain ⟨rest, hsealed⟩ := sealed_eq tokens
    rw [hend, hsealed]
    simp
  · intro α p hp ahead h after
    have hafter := hp.forward (.ofTokens source tokens) ahead
    exact ⟨hafter.trans h, position_mono hafter, hend ▸ Nat.sub_le _ _⟩
  · intro ahead h hnext
    obtain ⟨found, s, hs, -, hlt⟩ :=
      recovering_advances (takes_stmt .declaration) (.ofTokens source tokens)
        ((not_eof_iff h).mp hnext)
    exact ⟨found, s, hs, position_lt h hlt⟩
  · obtain ⟨p, s, hs, hnil⟩ := run_programBody source tokens
    refine ⟨p, s, hs, ?_⟩
    rw [hend, position, hnil]
    rfl

end TreeWalk.Parser
