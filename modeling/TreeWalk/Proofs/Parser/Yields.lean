import TreeWalk.Parser.Stmt

/-!
# What parsers answer with

`Parser.Yields p P` says that every value `p` answers with has the property `P`, whatever the tokens
and whatever errors were noted on the way. `Parser.Lands k p P` also looks at the next token, at the
start and at the end. Both pass through sequences and through the two combinators of repetition, so
that a property of everything a grammar reads takes one step for each of its productions.
-/

namespace TreeWalk

namespace Parser

variable {α β : Type}

/-! ## Answers taken apart -/

theorem Reply.of_after_eq_ok {r : Reply α} (h : r.after notes = .ok a t) :
    ∃ s, r = .ok a s ∧ s.ahead = t.ahead := by
  cases r with
  | ok b s => cases h; exact ⟨s, rfl, rfl⟩
  | fail e s => cases h

theorem bind_eq_ok {p : Parser α} {f : α → Parser β} (h : (p >>= f) cx ts = .ok b t) :
    ∃ a s u, p cx ts = .ok a s ∧ f a cx s.ahead = .ok b u ∧ u.ahead = t.ahead := by
  cases hp : p cx ts with
  | ok a s =>
    rw [bind_of_ok hp] at h
    obtain ⟨u, hu, hahead⟩ := Reply.of_after_eq_ok h
    exact ⟨a, s, u, rfl, hu, hahead⟩
  | fail e s =>
    rw [bind_of_fail hp] at h
    cases h

theorem collect_eq_ok {step : Nat → Parser (Item α)} (h : collect step n cx ts = .ok as t) :
    (step n cx ts = .ok .none t ∧ as = []) ∨
      (∃ a, step n cx ts = .ok (.last a) t ∧ as = [a]) ∨
      ∃ a s as' u, step n cx ts = .ok (.more a) s ∧ s.ahead.length < ts.length ∧
        collect step (n + 1) cx s.ahead = .ok as' u ∧ as = a :: as' ∧ u.ahead = t.ahead := by
  rw [collect] at h
  split at h
  · cases h
  · next s hs => cases h; exact .inl ⟨hs, rfl⟩
  · next a s hs => cases h; exact .inr (.inl ⟨a, hs, rfl⟩)
  · next a s hs =>
    split at h
    · next hlt =>
      obtain ⟨v, hv, hahead⟩ := Reply.of_after_eq_ok h
      cases hc : collect step (n + 1) cx s.ahead with
      | ok as' u =>
        rw [hc] at hv
        cases hv
        exact .inr (.inr ⟨a, s, as', v, hs, hlt, hc, rfl, hahead⟩)
      | fail e u => rw [hc] at hv; cases hv
    · cases h

/-! ## Values -/

/-- Every value that the parser answers with has the property. -/
def Yields (p : Parser α) (P : α → Prop) : Prop :=
  ∀ cx s a t, p cx s = .ok a t → P a

namespace Yields

variable {P : α → Prop} {Q : β → Prop} {p : Parser α}

theorem any : p.Yields fun _ => True :=
  fun _ _ _ _ _ => trivial

theorem mono {P' : α → Prop} (h : p.Yields P) (hP : ∀ a, P a → P' a) : p.Yields P' :=
  fun cx s a t hr => hP a (h cx s a t hr)

theorem pure (h : P a) : (Pure.pure a : Parser α).Yields P := by
  intro cx s b t hr
  cases hr
  exact h

theorem bind {f : α → Parser β} (hp : p.Yields P) (hf : ∀ a, P a → (f a).Yields Q) :
    (p >>= f).Yields Q := by
  intro cx ts b t hr
  obtain ⟨a, s, u, ha, hb, -⟩ := bind_eq_ok hr
  exact hf a (hp cx ts a s ha) cx s.ahead b u hb

/-- The value of the first parser does not matter. -/
theorem skip {f : α → Parser β} (hf : ∀ a, (f a).Yields Q) : (p >>= f).Yields Q :=
  any.bind fun a _ => hf a

theorem branch (h : ∀ token q, forms token = some q → q.Yields P) (ho : p.Yields P) :
    (Parser.branch forms p).Yields P := by
  intro cx ts a t hr
  unfold Parser.branch at hr
  split at hr
  · next q hq => exact h _ q hq cx _ a t hr
  · exact ho cx ts a t hr

theorem onKind {q : Token → Parser α} (h : ∀ token, (q token).Yields P) (ho : p.Yields P) :
    (Parser.onKind kind q p).Yields P := by
  refine branch (fun token r hr => ?_) ho
  split at hr
  · cases hr
    exact h token
  · cases hr

theorem fail : (failHere e : Parser α).Yields P :=
  fun _ _ _ _ hr => nomatch hr

/-- The items that a step of `collect` answers with. -/
def Items (P : α → Prop) : Item α → Prop
  | .none => True
  | .last a | .more a => P a

theorem collect {step : Nat → Parser (Item α)} (h : ∀ n, (step n).Yields (Items P)) (n : Nat) :
    (Parser.collect step n).Yields fun as => ∀ a ∈ as, P a := by
  intro cx ts as t hr
  induction hn : ts.length using Nat.strongRecOn generalizing ts n as t with
  | ind k ih =>
    rcases collect_eq_ok hr with ⟨-, rfl⟩ | ⟨a, hs, rfl⟩ | ⟨a, s, as', u, hs, hlt, hc, rfl, -⟩
    · exact fun a ha => absurd ha List.not_mem_nil
    · have ha : P a := h n cx ts _ t hs
      simpa using ha
    · have ha : P a := h n cx ts _ s hs
      have hrest := ih _ (hn ▸ hlt) (n + 1) s.ahead as' u hc rfl
      simpa using ⟨ha, hrest⟩

/-- A property of the answers of a recursive family of parsers follows from one step of the
recursion. -/
theorem fix {ι : Type} {step : (ι → Parser α) → ι → Parser α} {P : ι → α → Prop}
    (h : ∀ self, (∀ j, (self j).Yields (P j)) → ∀ i, (step self i).Yields (P i)) (i : ι) :
    (Parser.fix step i).Yields (P i) := by
  intro cx ts a t hr
  induction hn : ts.length using Nat.strongRecOn generalizing i cx ts a t with
  | ind k ih =>
    rw [Parser.fix] at hr
    refine h _ (fun j cx u b v hv => ?_) i cx ts a t hr
    split at hv
    · next hlt => exact ih _ (hn ▸ hlt) j cx u b v hv rfl
    · cases hv

/-- The items of a step that always reads one. -/
def Given (P : α → Prop) : Item α → Prop
  | .none => False
  | .last a | .more a => P a

/-- If each step reads an item, there is at least one. -/
theorem collect_given {step : Nat → Parser (Item α)}
    (h : ∀ n, (step n).Yields (Given P)) (n : Nat) :
    (Parser.collect step n).Yields fun as => as ≠ [] ∧ ∀ a ∈ as, P a := by
  have hitems : ∀ i, Given P i → Items P i := by
    intro i hi
    cases i with
    | none => trivial
    | last a | more a => exact hi
  intro cx ts as t hr
  refine ⟨?_, collect (fun n => (h n).mono hitems) n cx ts as t hr⟩
  rcases collect_eq_ok hr with ⟨hs, -⟩ | ⟨a, -, rfl⟩ | ⟨a, s, as', u, -, -, -, rfl, -⟩
  · exact (h n cx ts _ t hs).elim
  · simp
  · simp

theorem itemThen (h : p.Yields P) : (Parser.itemThen sep p).Yields (Given P) := by
  refine h.bind fun a ha => skip fun more => pure ?_
  cases more <;> exact ha

theorem commaList (h : p.Yields P) (n : Nat) :
    (Parser.commaList kind p n).Yields fun as => as ≠ [] ∧ ∀ a ∈ as, P a :=
  collect_given (fun _ => skip fun _ => h.itemThen) n

theorem closed (h : p.Yields P) :
    (Parser.closed sep close context p).Yields fun as => ∀ a ∈ as, P a := by
  refine bind (collect (P := P) (fun n => skip fun b => ?_) 0) fun as has => skip fun _ => pure has
  cases b with
  | true => exact pure trivial
  | false =>
    refine h.itemThen.mono fun i hi => ?_
    cases i with
    | none => trivial
    | last a | more a => exact hi

theorem delimited (h : p.Yields P) :
    (Parser.delimited opening sep close context p).Yields fun as => ∀ a ∈ as, P a :=
  skip fun _ => h.closed

theorem itemsUntil (h : p.Yields P) :
    (Parser.itemsUntil close p).Yields fun as => ∀ a ∈ as, P a := by
  refine collect (fun n => skip fun b => ?_) 0
  cases b with
  | true => exact pure trivial
  | false => exact h.bind fun a ha => pure ha

theorem unlessAt (h : p.Yields P) : (Parser.unlessAt kind p).Yields fun r => ∀ a ∈ r, P a := by
  refine skip fun b => ?_
  cases b with
  | true => exact pure fun _ ha => nomatch ha
  | false =>
    refine h.bind fun a ha => pure ?_
    rintro _ ⟨⟩
    exact ha

theorem behind (h : p.Yields P) : (Parser.behind kind p).Yields fun r => ∀ a ∈ r, P a := by
  refine onKind (fun _ => h.bind fun a ha => pure ?_) (pure fun _ ha => nomatch ha)
  rintro _ ⟨⟩
  exact ha

theorem recovering (h : p.Yields P) :
    (Parser.recovering p).Yields fun r => ∀ a, r = some a → P a := by
  intro cx s r t hr
  unfold Parser.recovering at hr
  split at hr
  · next a u hu =>
    cases hr
    rintro _ ⟨⟩
    exact h cx s a t hu
  · cases hr
    exact fun _ h => nomatch h

end Yields

/-! ## Values and next tokens -/

/-- Started in front of a token of kind `k`, the parser stops only where `P` holds of its value and
the kind of the token that is next then. -/
def Lands (k : TokenKind) (p : Parser α) (P : α → TokenKind → Prop) : Prop :=
  ∀ cx ts a s, (cx.next ts).kind = k → p cx ts = .ok a s → P a (cx.next s.ahead).kind

namespace Lands

variable {P : α → TokenKind → Prop} {Q : β → TokenKind → Prop} {p : Parser α}

theorem mono {P' : α → TokenKind → Prop} (h : Lands k p P) (hP : ∀ a k, P a k → P' a k) :
    Lands k p P' :=
  fun cx ts a s hk hr => hP _ _ (h cx ts a s hk hr)

theorem of_yields {Q : α → Prop} (h : p.Yields Q) : Lands k p fun a _ => Q a :=
  fun cx ts a s _ hr => h cx ts a s hr

theorem yields {Q : α → Prop} (h : ∀ k, Lands k p fun a _ => Q a) : p.Yields Q :=
  fun cx ts a s hr => h _ cx ts a s rfl hr

theorem pure (h : P a k) : Lands k (Pure.pure a) P := by
  intro cx ts b s hk hr
  cases hr
  exact hk ▸ h

theorem bind {f : α → Parser β} (hp : Lands k p P) (hf : ∀ a k', P a k' → Lands k' (f a) Q) :
    Lands k (p >>= f) Q := by
  intro cx ts b t hk hr
  obtain ⟨a, s, u, ha, hb, hahead⟩ := bind_eq_ok hr
  rw [← hahead]
  exact hf a _ (hp cx ts a s hk ha) cx s.ahead b u rfl hb

/-- Neither the value nor the place of the first parser matters. -/
theorem skip {f : α → Parser β} (hf : ∀ a k', Lands k' (f a) Q) : Lands k (p >>= f) Q :=
  bind (P := fun _ _ => True) (fun _ _ _ _ _ _ => trivial) fun a k' _ => hf a k'

theorem fail : Lands k (failHere e : Parser α) P :=
  fun _ _ _ _ _ hr => nomatch hr

theorem branch {forms : Token → Option (Parser α)}
    (hforms : ∀ span q, forms ⟨k, span⟩ = some q → ∀ k', Lands k' q P)
    (ho : ∀ span, forms ⟨k, span⟩ = none → Lands k p P) : Lands k (Parser.branch forms p) P := by
  intro cx ts a s hk hr
  unfold Parser.branch at hr
  subst hk
  split at hr
  · next q hq => exact hforms _ q hq _ cx ts.tail a s rfl hr
  · next hnone => exact ho _ hnone cx ts a s rfl hr

theorem onKind {q : Token → Parser α} (hq : k = kind → ∀ t k', Lands k' (q t) P)
    (ho : k ≠ kind → Lands k p P) : Lands k (Parser.onKind kind q p) P := by
  refine branch (fun span r hr => ?_) fun span hnone => ho ?_
  · split at hr
    · next heq => cases hr; exact hq (eq_of_beq heq) _
    · cases hr
  · rintro rfl
    simp at hnone

/-- Items that are put to use from the left: `I` holds of what there is so far, in front of each
item. -/
theorem collect_foldl {σ : Type} {step : Nat → Parser (Item α)} {f : σ → α → σ} {acc : σ}
    {I B : σ → TokenKind → Prop}
    (hstep : ∀ acc k n, I acc k → Lands k (step n) fun item k' =>
      (item = .none → B acc k') ∧ (∀ a, item = .last a → B (f acc a) k') ∧
        ∀ a, item = .more a → I (f acc a) k')
    (h : I acc k) : Lands k (Parser.collect step n) fun as k' => B (as.foldl f acc) k' := by
  intro cx ts as t hk hr
  induction hn : ts.length using Nat.strongRecOn generalizing ts n k as t acc with
  | ind m ih =>
    rcases collect_eq_ok hr with ⟨hs, rfl⟩ | ⟨a, hs, rfl⟩ | ⟨a, s, as', u, hs, hlt, hc, rfl, hahead⟩
    · exact (hstep acc k n h cx ts _ t hk hs).1 rfl
    · exact (hstep acc k n h cx ts _ t hk hs).2.1 a rfl
    · rw [List.foldl_cons, ← hahead]
      have hnext := (hstep acc k n h cx ts _ s hk hs).2.2 a rfl
      exact ih _ (hn ▸ hlt) hnext s.ahead as' u rfl hc rfl

/-- A property of where a recursive family of parsers stops follows from one step of the
recursion. -/
theorem fix {ι : Type} {step : (ι → Parser α) → ι → Parser α} {P : ι → α → TokenKind → Prop}
    (h : ∀ self, (∀ j k, Lands k (self j) (P j)) → ∀ i k, Lands k (step self i) (P i)) (i : ι) :
    Lands k (Parser.fix step i) (P i) := by
  intro cx ts a s hk hr
  induction hn : ts.length using Nat.strongRecOn generalizing i k cx ts a s with
  | ind m ih =>
    rw [Parser.fix] at hr
    refine h _ (fun j k' cx ts' b u hj hb => ?_) i k cx ts a s hk hr
    split at hb
    · next hlt => exact ih _ (hn ▸ hlt) j cx ts' b u hj hb rfl
    · cases hb

end Lands

/-! ## Tokens with which an expression goes on -/

/-- A token with which an expression goes on. -/
def goesOn : TokenKind → Bool
  | .punct .lparen | .punct .dot | .punct .eq => true
  | k => (BinaryOp.ofToken? k).isSome

theorem ofToken?_of_goesOn (h : goesOn k = false) : BinaryOp.ofToken? k = none := by
  unfold goesOn at h
  split at h
  · cases h
  · cases h
  · cases h
  · simpa using h

theorem goesOn_token (op : BinaryOp) : goesOn op.token = true := by
  cases op <;> rfl

theorem goesOn_eq_false (hop : ∀ op : BinaryOp, k ≠ op.token) (hparen : k ≠ .punct .lparen)
    (hdot : k ≠ .punct .dot) (heq : k ≠ .punct .eq) : goesOn k = false := by
  unfold goesOn
  split
  · exact absurd rfl hparen
  · exact absurd rfl hdot
  · exact absurd rfl heq
  · rw [Option.isSome_eq_false_iff, Option.isNone_iff_eq_none]
    exact Option.eq_none_iff_forall_ne_some.mpr fun op h =>
      hop op (BinaryOp.ofToken?_eq_some_iff.mp h)

end Parser

end TreeWalk
