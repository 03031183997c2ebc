import TreeWalk.Proofs.Parser.Edits
import TreeWalk.Proofs.Parser.Replay
import TreeWalk.Proofs.Printer.Respelling

/-!
# Reading respelled tokens

Where a text is read without errors, its tokens are read in another spelling: as the tree in that
spelling if there is one, and not without errors if there is none. `Respells S b ok sp p q` says so
of two parsers at once, value by value. It has a rule for each combinator.
-/

namespace TreeWalk

namespace Respelling

variable (S : Respelling)

theorem kind_fixed (h : k.isFixed = true) : S.kind k = k := by
  cases k with
  | punct | keyword => rfl
  | _ => cases h

/-- No other token is spelled as a mark or a reserved word. -/
theorem kind_beq (k : TokenKind) (h : m.isFixed = true) : (S.kind k == m) = (k == m) := by
  cases k with
  | number x => exact S.kind_number_eq (f := (· == m)) (by cases m <;> first | rfl | cases h)
  | ident | str => cases m <;> first | rfl | cases h
  | _ => rfl

theorem kind_beq_eof (k : TokenKind) : (S.kind k == .eof) = (k == .eof) := by
  cases k with
  | number x => exact S.kind_number_eq (f := (· == .eof)) rfl
  | _ => rfl

end Respelling

namespace Parser

variable {α β γ δ : Type}

/-- No number has a sign, and no infinite one stands in front of an `@`, where its text would be the
name of a pattern. -/
structure Fit (ks : List TokenKind) : Prop where
  unsigned : ∀ k ∈ ks, k.isUnsigned = true
  finite : ∀ x w, .number x :: .punct .atSign :: w <:+ ks → x.isFinite = true

/-- What is left of a fit input is fit. -/
theorem Fit.suffix (h : Fit ks) (hsuffix : ks' <:+ ks) : Fit ks' where
  unsigned k hk := h.unsigned k (hsuffix.mem hk)
  finite x w hw := h.finite x w (hw.trans hsuffix)

theorem Fit.next (h : Fit ks) : (nextKind ks).isUnsigned = true := by
  cases ks with
  | nil => rfl
  | cons k ks => exact h.unsigned k List.mem_cons_self

/-- Where `p` reads `a` from the tokens `ks`, `q` reads `sp a` from the respelled tokens and leaves
as many, if `ok a` says that `a` can be spelled, and meets an error otherwise. If `b` is false,
something in front could not be spelled: there has been an error already, and `a`, which is made
from it, cannot be spelled either. -/
def RespellsOn (S : Respelling) (b : Bool) (ok : α → Bool) (sp : α → β) (p : Parser α)
    (q : Parser β) (ks : List TokenKind) : Prop :=
  ∀ a rest, p.quiet default (words ks) = some (a, rest) → ∃ ks₁, rest = words ks₁ ∧ ks₁ <:+ ks ∧
    (if b then q.quiet default (words (ks.map S.kind)) else none) =
      if ok a then some (sp a, words (ks₁.map S.kind)) else none

def Respells (S : Respelling) (b : Bool) (ok : α → Bool) (sp : α → β) (p : Parser α)
    (q : Parser β) : Prop :=
  ∀ ks, Fit ks → RespellsOn S b ok sp p q ks

namespace Item

def all (ok : α → Bool) : Item α → Bool
  | none => true
  | last a | more a => ok a

def map (f : α → β) : Item α → Item β
  | none => none
  | last a => last (f a)
  | more a => more (f a)

end Item

/-- The next token is respelled as all others are. -/
theorem nextKind_map (S : Respelling) (ks : List TokenKind) :
    nextKind (ks.map S.kind) = S.kind (nextKind ks) := by
  cases ks <;> rfl

theorem tail_words (ks : List TokenKind) : (words ks).tail = words ks.tail := by
  cases ks <;> rfl

namespace Respells

variable {S : Respelling} {b : Bool} {ok : α → Bool} {sp : α → β} {p : Parser α} {q : Parser β}
  {ok' : γ → Bool} {sp' : γ → δ}

theorem fail {e : String → Span → ParseError} : Respells S b ok sp (failHere e) q := by
  intro ks _ a rest h
  cases h

theorem pure (hok : ok a = b) (hsp : sp a = a') :
    Respells S b ok sp (Pure.pure a) (Pure.pure a' : Parser β) := by
  intro ks _ c rest h
  cases h
  refine ⟨ks, rfl, List.suffix_refl ks, ?_⟩
  rw [hok, hsp]
  rfl

/-- If the first part cannot be spelled, the second is not reached in the respelled input. -/
theorem bind {f : α → Parser γ} {g : β → Parser δ} (hp : Respells S true ok sp p q)
    (hf : ∀ a, Respells S (b && ok a) ok' sp' (f a) (g (sp a))) :
    Respells S b ok' sp' (p >>= f) (q >>= g) := by
  intro ks hks c rest h
  rw [quiet_bind, Option.bind_eq_some_iff] at h
  obtain ⟨⟨a, mid⟩, ha, hc⟩ := h
  obtain ⟨ks₁, rfl, hsuffix, hq⟩ := hp ks hks a mid ha
  obtain ⟨ks₂, rfl, hsuffix', hg⟩ := hf a ks₁ (hks.suffix hsuffix) c rest hc
  refine ⟨ks₂, rfl, hsuffix'.trans hsuffix, ?_⟩
  rw [if_pos rfl] at hq
  rw [← hg, quiet_bind, hq]
  -- If `a` cannot be spelled, neither parser of the second spelling goes on.
  cases b <;> cases ok a <;> rfl

theorem always (h : Respells S true ok sp p q) (hok : ∀ a, ok a = true) :
    Respells S true (fun _ => true) sp p q := by
  obtain rfl : ok = fun _ => true := funext hok
  exact h

/-- Behind something that can always be spelled. -/
theorem seq {p' : Parser γ} {q' : Parser δ} {f : γ → Parser α} {g : δ → Parser β}
    (hp : Respells S true (fun _ => true) sp' p' q')
    (hf : ∀ c, Respells S b ok sp (f c) (g (sp' c))) :
    Respells S b ok sp (p' >>= f) (q' >>= g) := by
  refine bind hp fun c => ?_
  rw [Bool.and_true]
  exact hf c

/-- A look at the next token that sees the same in both spellings. -/
theorem look {l l' : Parser ε} {f : ε → Parser α} {g : ε → Parser β}
    (hl : ∀ ks, ∃ e, l.quiet default (words ks) = some (e, words ks) ∧
      l'.quiet default (words (ks.map S.kind)) = some (e, words (ks.map S.kind)))
    (hf : ∀ e, Respells S b ok sp (f e) (g e)) : Respells S b ok sp (l >>= f) (l' >>= g) := by
  intro ks hks a rest h
  obtain ⟨e, hleft, hright⟩ := hl ks
  rw [quiet_bind, hleft, Option.bind_some] at h
  rw [quiet_bind, hright, Option.bind_some]
  exact hf e ks hks a rest h

/-! ## Single tokens -/

/-- The next token and its spelling choose forms that go together. -/
theorem branchOn {forms : Token → Option (Parser α)} {forms' : Token → Option (Parser β)}
    (hforms : Option.Rel (fun p q => RespellsOn S b ok sp p q ks.tail)
      (forms ⟨nextKind ks, default⟩)
      (forms' ⟨S.kind (nextKind ks), default⟩))
    (ho : RespellsOn S b ok sp p q ks) :
    RespellsOn S b ok sp (branch forms p) (branch forms' q) ks := by
  intro a rest h
  rw [quiet_branch, next_words] at h
  rw [quiet_branch, next_words, nextKind_map]
  generalize forms ⟨nextKind ks, default⟩ = r at hforms h
  generalize forms' ⟨S.kind (nextKind ks), default⟩ = r' at hforms
  cases hforms with
  | none => exact ho a rest h
  | some hpq =>
    rw [tail_words] at h
    obtain ⟨ks₁, hrest, hsuffix, hq⟩ := hpq a rest h
    refine ⟨ks₁, hrest, hsuffix.trans (List.tail_suffix ks), ?_⟩
    rw [tail_words, ← List.map_tail]
    exact hq

/-- What is read behind the next token is read from fit tokens. -/
theorem behindNext {r : Option (Parser α)} {r' : Option (Parser β)}
    (h : Option.Rel (Respells S b ok sp) r r') (hks : Fit ks) :
    Option.Rel (fun p q => RespellsOn S b ok sp p q ks.tail) r r' := by
  cases h with
  | none => exact .none
  | some h => exact .some (h _ (hks.suffix (List.tail_suffix ks)))

theorem branch {forms : Token → Option (Parser α)} {forms' : Token → Option (Parser β)}
    (hforms : ∀ k, k.isUnsigned = true →
      Option.Rel (Respells S b ok sp) (forms ⟨k, default⟩) (forms' ⟨S.kind k, default⟩))
    (ho : Respells S b ok sp p q) :
    Respells S b ok sp (Parser.branch forms p) (Parser.branch forms' q) :=
  fun ks hks => branchOn (behindNext (hforms (nextKind ks) hks.next) hks) (ho ks hks)

/-- Marks and keywords are spelled as they are. -/
theorem onKind {f : Token → Parser α} {g : Token → Parser β} (hk : kind.isFixed = true)
    (hf : Respells S b ok sp (f ⟨kind, default⟩) (g ⟨kind, default⟩))
    (ho : Respells S b ok sp p q) :
    Respells S b ok sp (Parser.onKind kind f p) (Parser.onKind kind g q) := by
  refine branch (fun k _ => ?_) ho
  rw [S.kind_beq k hk]
  split
  · next heq =>
    obtain rfl := eq_of_beq heq
    rw [S.kind_fixed hk]
    exact .some hf
  · exact .none

theorem mark : Respells S true (fun _ => true) id (Parser.mark m context) (Parser.mark m context) :=
  onKind rfl (pure rfl rfl) .fail

theorem word : Respells S true (fun _ => true) id (Parser.word k context) (Parser.word k context) :=
  onKind rfl (pure rfl rfl) .fail

theorem eat (hk : kind.isFixed = true) :
    Respells S true (fun _ => true) id (Parser.eat kind) (Parser.eat kind) :=
  onKind hk (pure rfl rfl) (pure rfl rfl)

/-- Names are respelled one by one. -/
theorem ident :
    Respells S true (fun _ => true) S.ident (Parser.ident context) (Parser.ident context) := by
  intro ks _ n rest h
  cases ks with
  | nil => cases h
  | cons k ks =>
    cases k with
    | ident name =>
      cases h
      exact ⟨ks, rfl, List.suffix_cons _ ks, rfl⟩
    | _ => cases h

/-! ## Looking ahead -/

/-- Whether a mark comes next is the same in both spellings. -/
theorem check {f : Bool → Parser α} {g : Bool → Parser β} (hk : kind.isFixed = true ∨ kind = .eof)
    (hf : ∀ e, Respells S b ok sp (f e) (g e)) :
    Respells S b ok sp (Parser.check kind >>= f) (Parser.check kind >>= g) := by
  refine look (fun ks => ⟨nextKind ks == kind, by simp, ?_⟩) hf
  rw [quiet_check, next_words, nextKind_map]
  rcases hk with hk | rfl
  · rw [S.kind_beq _ hk]
  · rw [S.kind_beq_eof]

theorem ends {f : Bool → Parser α} {g : Bool → Parser β}
    (hf : ∀ e, Respells S b ok sp (f e) (g e)) :
    Respells S b ok sp (Parser.ends close >>= f) (Parser.ends close >>= g) := by
  refine look (fun ks => ⟨nextKind ks == .punct close || (words ks).isEmpty, by simp, ?_⟩) hf
  rw [quiet_ends, next_words, nextKind_map, S.kind_beq _ rfl]
  simp [words]

theorem peek :
    Respells S true (fun _ => true) (fun token => ⟨S.kind token.kind, token.span⟩) Parser.peek
      Parser.peek := by
  intro ks _ token rest h
  cases h
  refine ⟨ks, rfl, List.suffix_refl ks, ?_⟩
  rw [if_pos rfl, if_pos rfl, quiet_peek, next_words, next_words, nextKind_map]

theorem limit : Respells S true (fun _ => true) id (Parser.limit kind n) (Parser.limit kind n) := by
  intro ks _ u rest h
  rw [quiet_limit] at h
  rw [quiet_limit]
  split at h
  · cases h
  · next hn =>
    cases h
    exact ⟨ks, rfl, List.suffix_refl ks, by simp [hn]⟩

/-! ## Optional parts -/

theorem unlessAt (hk : kind.isFixed = true) (h : Respells S true ok sp p q) :
    Respells S true (Option.all ok) (Option.map sp) (Parser.unlessAt kind p)
      (Parser.unlessAt kind q) := by
  refine check (.inl hk) fun e => ?_
  cases e with
  | true => exact pure rfl rfl
  | false => exact bind h fun _ => pure rfl rfl

theorem behind (hk : kind.isFixed = true) (h : Respells S true ok sp p q) :
    Respells S true (Option.all ok) (Option.map sp) (Parser.behind kind p) (Parser.behind kind q) :=
  onKind hk (bind h fun _ => pure rfl rfl) (pure rfl rfl)

/-- Without an error there is nothing to recover from. -/
theorem recovering (h : Respells S true ok sp p q) :
    Respells S true (Option.all ok) (Option.map sp) (Parser.recovering p)
      (Parser.recovering q) := by
  intro ks hks r rest hr
  rw [quiet_recovering, Option.map_eq_some_iff] at hr
  obtain ⟨⟨a, rest'⟩, ha, heq⟩ := hr
  cases heq
  obtain ⟨ks₁, hrest, hsuffix, hq⟩ := h ks hks a rest ha
  refine ⟨ks₁, hrest, hsuffix, ?_⟩
  rw [if_pos rfl] at hq
  rw [if_pos rfl, quiet_recovering, hq]
  change Option.map _ (if ok a then _ else none) = if ok a then _ else none
  cases ok a <;> rfl

/-! ## Repetition -/

/-- By induction on the number of tokens ahead. -/
theorem collect {step : Nat → Parser (Item α)} {step' : Nat → Parser (Item β)}
    (h : ∀ n, Respells S true (Item.all ok) (Item.map sp) (step n) (step' n)) (n : Nat) :
    Respells S true (fun as => as.all ok) (List.map sp) (Parser.collect step n)
      (Parser.collect step' n) := by
  intro ks hks as rest hc
  -- Both spellings have as many tokens, so that one goes on wherever the other does.
  induction hm : ks.length using Nat.strongRecOn generalizing ks n as rest with
  | ind m ih =>
    rw [quiet_collect] at hc
    cases hstep : (step n).quiet default (words ks) with
    | none =>
      rw [hstep] at hc
      cases hc
    | some r =>
      obtain ⟨item, mid⟩ := r
      obtain ⟨ks₁, rfl, hsuffix, hq⟩ := h n ks hks item mid hstep
      rw [if_pos rfl] at hq
      rw [hstep] at hc
      cases item with
      | none =>
        cases hc
        exact ⟨ks₁, rfl, hsuffix, by rw [if_pos rfl, quiet_collect, hq]; rfl⟩
      | last a =>
        cases hc
        refine ⟨ks₁, rfl, hsuffix, ?_⟩
        rw [if_pos rfl, quiet_collect, hq]
        cases hok : ok a <;> simp [Item.all, Item.map, hok]
      | more a =>
        dsimp only at hc
        split at hc
        · next hlt =>
          obtain ⟨⟨as', rest'⟩, hc', heq⟩ := Option.map_eq_some_iff.mp hc
          cases heq
          have hlt : ks₁.length < m := by simpa [words, hm] using hlt
          obtain ⟨ks₂, rfl, hsuffix', hq'⟩ :=
            ih _ hlt (n + 1) ks₁ (hks.suffix hsuffix) as' rest' hc' rfl
          refine ⟨ks₂, rfl, hsuffix'.trans hsuffix, ?_⟩
          rw [if_pos rfl] at hq'
          rw [if_pos rfl, quiet_collect, hq]
          have hlt' : (words (ks₁.map S.kind)).length < (words (ks.map S.kind)).length := by
            simpa [words, hm] using hlt
          cases hok : ok a with
          | false => simp [Item.all, hok]
          | true =>
            simp only [Item.all, Item.map, hok, if_true, if_pos hlt', hq', List.all_cons,
              Bool.true_and, List.map_cons]
            exact apply_ite _ _ _ _
        · cases hc

/-- By induction on the number of tokens ahead: the calls inside have fewer. -/
theorem fix {ι : Type} {step : (ι → Parser α) → ι → Parser α} {sp : α → α}
    (h : ∀ self self', (∀ j, Respells S true ok sp (self j) (self' j)) →
      ∀ i, Respells S true ok sp (step self i) (step self' i)) (i : ι) :
    Respells S true ok sp (Parser.fix step i) (Parser.fix step i) := by
  intro ks hks a rest hp
  -- Inside, both spellings are read with fewer tokens ahead, and with as many.
  induction hn : ks.length using Nat.strongRecOn generalizing i ks a rest with
  | ind n ih =>
    have hlength : (words (ks.map S.kind)).length = (words ks).length := by simp [words]
    rw [quiet_fix] at hp
    rw [quiet_fix, hlength]
    refine h _ _ (fun j ks' hks' a' rest' hp' => ?_) i ks hks a rest hp
    by_cases hlt : (words ks').length < (words ks).length
    · rw [quiet_below hlt] at hp'
      rw [quiet_below (by simpa [words] using hlt)]
      exact ih _ (by simpa [words, hn] using hlt) j ks' hks' a' rest' hp' rfl
    · simp only [quiet, below, hlt, if_false] at hp'
      cases hp'

/-! ## Lists -/

theorem itemThen (h : Respells S true ok sp p q) :
    Respells S true (Item.all ok) (Item.map sp) (Parser.itemThen sep p)
      (Parser.itemThen sep q) := by
  refine bind h fun a => seq (eat rfl) fun more => ?_
  cases more with
  | true => exact pure rfl rfl
  | false => exact pure rfl rfl

theorem commaList (h : Respells S true ok sp p q) (n : Nat) :
    Respells S true (fun as => as.all ok) (List.map sp) (Parser.commaList kind p n)
      (Parser.commaList kind q n) :=
  collect (fun _ => seq limit fun _ => itemThen h) n

theorem items (h : Respells S true ok sp p q) :
    Respells S true (fun as => as.all ok) (List.map sp) (Parser.items sep close p)
      (Parser.items sep close q) := by
  refine collect (fun _ => ends fun e => ?_) 0
  cases e with
  | true => exact pure rfl rfl
  | false => exact itemThen h

theorem closed (h : Respells S true ok sp p q) :
    Respells S true (fun as => as.all ok) (List.map sp) (Parser.closed sep close context p)
      (Parser.closed sep close context q) :=
  bind (items h) fun _ => seq mark fun _ => pure rfl rfl

theorem delimited (h : Respells S true ok sp p q) :
    Respells S true (fun as => as.all ok) (List.map sp)
      (Parser.delimited opening sep close context p)
      (Parser.delimited opening sep close context q) :=
  seq mark fun _ => closed h

theorem itemsUntil (h : Respells S true ok sp p q) :
    Respells S true (fun as => as.all ok) (List.map sp) (Parser.itemsUntil close p)
      (Parser.itemsUntil close q) := by
  refine collect (fun _ => ends fun e => ?_) 0
  cases e with
  | true => exact pure rfl rfl
  | false => exact bind h fun _ => pure rfl rfl

/-- Items up to the end of the input. -/
theorem itemsToEnd (h : Respells S true ok sp p q) :
    Respells S true (fun as => as.all ok) (List.map sp)
      (Parser.collect
        (fun _ => do if ← Parser.check .eof then return .none else return .more (← p)) 0)
      (Parser.collect
        (fun _ => do if ← Parser.check .eof then return .none else return .more (← q)) 0) := by
  refine collect (fun _ => check (.inr rfl) fun e => ?_) 0
  cases e with
  | true => exact pure rfl rfl
  | false => exact bind h fun _ => pure rfl rfl

end Respells

end Parser

end TreeWalk
