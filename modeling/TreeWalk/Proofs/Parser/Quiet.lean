import TreeWalk.Parser.Stmt

/-!
# Runs without errors

`Parser.quiet` is what a parser does on inputs it has nothing to say against. It takes sequences of
parsers to sequences of partial functions, so that a run without errors can be taken apart, and put
together, by its steps.
-/

namespace TreeWalk.Parser

variable {α β : Type}

/-- What counts of an answer where no error is allowed. -/
def Reply.quiet : Reply α → Option (α × List Token)
  | .ok a s => if s.errors.isEmpty then some (a, s.ahead) else none
  | .fail _ _ => none

/-- The value of a run that meets no error, and the tokens it leaves. -/
def quiet (p : Parser α) (cx : Context) (ts : List Token) : Option (α × List Token) :=
  (p cx ts).quiet

theorem Reply.quiet_ok (a : α) (s : State) :
    (Reply.ok a s).quiet = if s.errors.isEmpty then some (a, s.ahead) else none := rfl

theorem Reply.quiet_fail (e : ParseError) (s : State) :
    (Reply.fail e s : Reply α).quiet = none := rfl

/-- A run with an error in its past is not quiet, whatever follows. -/
theorem Reply.quiet_after (r : Reply α) (s : State) :
    (r.after s.notes).quiet = if s.errors.isEmpty then r.quiet else none := by
  cases r with
  | ok a t =>
    have herrors : (⟨t.ahead, s.notes ++ t.notes⟩ : State).errors = s.errors ++ t.errors :=
      List.filterMap_append
    rw [Reply.after, Reply.quiet_ok, Reply.quiet_ok, herrors]
    cases s.errors <;> rfl
  | fail e t => rw [Reply.after, Reply.quiet_fail, Reply.quiet_fail, ite_self]

/-- What is made of the result does not matter. -/
theorem Reply.quiet_map (f : α → β) (r : Reply α) :
    (r.map f).quiet = r.quiet.map fun (a, rest) => (f a, rest) := by
  cases r with
  | ok a s => simp only [Reply.map, Reply.quiet]; split <;> rfl
  | fail e s => rfl

/-- A quiet run is one that succeeds and leaves no errors. -/
theorem quiet_eq_some_iff {p : Parser α} :
    p.quiet cx ts = some (a, rest) ↔ ∃ s, p cx ts = .ok a s ∧ s.ahead = rest ∧ s.errors = [] := by
  unfold quiet
  cases p cx ts with
  | ok b s =>
    rw [Reply.quiet_ok]
    constructor
    · intro h
      split at h
      · next herrors => cases h; exact ⟨s, rfl, rfl, List.isEmpty_iff.mp herrors⟩
      · cases h
    · rintro ⟨s, ⟨⟩, rfl, herrors⟩
      rw [herrors]
      rfl
  | fail e s =>
    rw [Reply.quiet_fail]
    constructor
    · rintro ⟨⟩
    · rintro ⟨s, ⟨⟩, -⟩

/-! ## Sequences -/

@[simp]
theorem quiet_pure (a : α) : (pure a : Parser α).quiet cx ts = some (a, ts) := rfl

/-- A sequence is quiet if both of its parts are. This is how a run without errors is taken apart.
-/
@[simp]
theorem quiet_bind (p : Parser α) (f : α → Parser β) :
    (p >>= f).quiet cx ts = (p.quiet cx ts).bind fun (a, rest) => (f a).quiet cx rest := by
  unfold quiet
  cases h : p cx ts with
  | ok a s =>
    rw [bind_of_ok h, Reply.quiet_after, Reply.quiet_ok]
    cases s.errors <;> rfl
  | fail e s => rw [bind_of_fail h, Reply.quiet_fail, Reply.quiet_fail, Option.bind_none]

/-! ## Single tokens -/

@[simp]
theorem next_cons (cx : Context) (t : Token) (ts : List Token) : cx.next (t :: ts) = t := rfl

@[simp]
theorem quiet_peek : peek.quiet cx ts = some (cx.next ts, ts) := rfl

@[simp]
theorem quiet_check (k : TokenKind) :
    (check k).quiet cx ts = some ((cx.next ts).kind == k, ts) := rfl

@[simp]
theorem quiet_ends (p : Punct) :
    (ends p).quiet cx ts = some ((cx.next ts).kind == .punct p || ts.isEmpty, ts) := rfl

/-- Reporting an error is never quiet. -/
@[simp]
theorem quiet_report : (report e).quiet cx ts = none := rfl

/-- The next token decides which parser runs, and is read by it. -/
theorem quiet_branch (forms : Token → Option (Parser α)) (p : Parser α) :
    (branch forms p).quiet cx ts =
      match forms (cx.next ts) with
      | some q => q.quiet cx ts.tail
      | none => p.quiet cx ts := by
  simp only [quiet, branch]
  cases forms (cx.next ts) <;> rfl

theorem quiet_onKind (kind : TokenKind) (f : Token → Parser α) (p : Parser α) :
    (onKind kind f p).quiet cx ts =
      if (cx.next ts).kind = kind then (f (cx.next ts)).quiet cx ts.tail else p.quiet cx ts := by
  rw [onKind, quiet_branch]
  by_cases h : (cx.next ts).kind = kind <;> simp [h]

/-- A token that is not there is no error. -/
theorem quiet_eat (kind : TokenKind) :
    (eat kind).quiet cx ts =
      some (if (cx.next ts).kind = kind then (true, ts.tail) else (false, ts)) := by
  rw [eat, quiet_onKind]
  split <;> rfl

/-- A mark that has to be there is one if it is not. -/
theorem quiet_mark (m : Punct) (context : String) :
    (mark m context).quiet cx ts =
      if (cx.next ts).kind = .punct m then some (cx.next ts, ts.tail) else none := by
  rw [mark, expect, quiet_onKind]
  rfl

/-! ## Repetition -/

/-- One step, and then the rest on the tokens that it leaves, as long as these get fewer. -/
theorem quiet_collect (step : Nat → Parser (Item α)) (n : Nat) :
    (collect step n).quiet cx ts =
      match (step n).quiet cx ts with
      | none => none
      | some (.none, rest) => some ([], rest)
      | some (.last a, rest) => some ([a], rest)
      | some (.more a, rest) =>
        if rest.length < ts.length then
          ((collect step (n + 1)).quiet cx rest).map fun (as, rest) => (a :: as, rest)
        else none := by
  rw [quiet, collect, quiet]
  cases step n cx ts with
  | fail e s => rfl
  | ok item s =>
    simp only [Reply.quiet_ok]
    cases item with
    | none => simp only [Reply.quiet_ok]; split <;> rfl
    | last a => simp only [Reply.quiet_ok]; split <;> rfl
    | more a =>
      dsimp only
      by_cases hlt : s.ahead.length < ts.length
      · simp only [hlt, if_true, Reply.quiet_after, Reply.quiet_map]
        cases s.errors <;> simp [hlt, quiet]
      · simp only [hlt, if_false, Reply.quiet_after]
        cases s.errors <;> simp [hlt, stuck, failHere, Reply.quiet_fail]

/-- What holds of the tokens left by the last step holds of the tokens left by all. -/
theorem quiet_collect_rest {step : Nat → Parser (Item α)} {P : List Token → Prop}
    (hnone : ∀ n ts rest, (step n).quiet cx ts = some (.none, rest) → P rest)
    (hlast : ∀ n ts a rest, (step n).quiet cx ts = some (.last a, rest) → P rest)
    (h : (collect step n).quiet cx ts = some (as, rest)) : P rest := by
  induction hm : ts.length using Nat.strongRecOn generalizing ts n as with
  | ind m ih =>
    rw [quiet_collect] at h
    split at h
    · cases h
    · next hstep => cases h; exact hnone _ _ _ hstep
    · next hstep => cases h; exact hlast _ _ _ _ hstep
    · next mid hstep =>
      split at h
      · next hlt =>
        obtain ⟨⟨as', rest'⟩, hrest, heq⟩ := Option.map_eq_some_iff.mp h
        cases heq
        exact ih _ (hm ▸ hlt) hrest rfl
      · cases h

/-- The parser on fewer than `n` tokens. -/
def below (n : Nat) (p : Parser α) : Parser α := fun cx ts =>
  if ts.length < n then p cx ts else stuck cx ts

theorem quiet_below {p : Parser α} (h : ts.length < n) :
    (below n p).quiet cx ts = p.quiet cx ts := by
  simp only [quiet, below, h, if_true]

theorem quiet_fix {ι : Type} (step : (ι → Parser α) → ι → Parser α) (i : ι) :
    (fix step i).quiet cx ts = (step (fun j => below ts.length (fix step j)) i).quiet cx ts := by
  rw [quiet, fix]
  rfl

@[simp]
theorem quiet_recovering (p : Parser α) :
    (recovering p).quiet cx ts = (p.quiet cx ts).map fun (a, rest) => (some a, rest) := by
  simp only [quiet, recovering]
  cases p cx ts with
  | ok a s => simp only [Reply.quiet_ok]; split <;> rfl
  | fail e s => simp [Reply.quiet_ok, Reply.quiet_fail, State.errors, Note.error?]

theorem quiet_limit (kind : ItemKind) (n : Nat) :
    (limit kind n).quiet cx ts = if n = maxItems then none else some ((), ts) := by
  unfold limit
  by_cases h : n = maxItems <;> simp [h]

end TreeWalk.Parser
