import Mathlib.Data.List.Forall2
import TreeWalk.Proofs.Parser.Quiet
import TreeWalk.Proofs.Printer.Words

/-!
# From the tokens of a source to canonical tokens

A program that is read without errors holds all of its tokens: the words of its canonical text come
from them by a list of edits. Which edits there can be is said along the tree (`Stmt.Edited` and its
companions). A semicolon is put in behind a statement that lacks it; a separator behind the last
item of a list and the parentheses around a single pattern are left out; and unit changes its
spelling. All other tokens are kept, each where it is.

`Parser.Reads p W` says that `p` takes just the tokens from which such edits start. It has a rule
for each combinator.
-/

namespace TreeWalk

/-! ## Edits -/

/-- One step along the tokens of a source and the tokens of canonical text. -/
inductive Edit where
  | keep (kind : TokenKind)
  | add (mark : Punct)
  | drop (mark : Punct)
  /-- The expression `()` is written `nil`. -/
  | unitToNil
  /-- The pattern `nil` is written `()`. -/
  | nilToUnit
deriving DecidableEq, Repr

/-- A list of edits, from the first token to the last. -/
abbrev Edits := List Edit

namespace Edit

/-- The tokens of the source. -/
def source : Edit → List TokenKind
  | keep kind => [kind]
  | add _ => []
  | drop mark => [.punct mark]
  | unitToNil => [.punct .lparen, .punct .rparen]
  | nilToUnit => [.keyword .nil]

/-- The tokens of canonical text. -/
def target : Edit → List TokenKind
  | keep kind => [kind]
  | add mark => [.punct mark]
  | drop _ => []
  | unitToNil => [.keyword .nil]
  | nilToUnit => [.punct .lparen, .punct .rparen]

end Edit

namespace Edits

/-- The tokens of the source. -/
def source (d : Edits) : List TokenKind :=
  d.flatMap Edit.source

/-- The tokens of canonical text. -/
def target (d : Edits) : List TokenKind :=
  d.flatMap Edit.target

/-- The edits of items, with a separator kept between them. -/
def joined (sep : Punct) : List Edits → Edits
  | [] => []
  | [d] => d
  | d :: ds => d ++ .keep (.punct sep) :: joined sep ds

/-- The edits of items with a separator between them, and perhaps one more, left out, behind the
last item. -/
inductive Listed (sep : Punct) (ds : List Edits) : Edits → Prop where
  | exact : Listed sep ds (joined sep ds)
  | trailing : ds ≠ [] → Listed sep ds (joined sep ds ++ [.drop sep])

/-- A semicolon that is there in the source or put in. -/
inductive Semicolon : Edits → Prop where
  | kept : Semicolon [.keep (.punct .semicolon)]
  | added : Semicolon [.add .semicolon]

end Edits

/-! ## Edits along a tree -/

open Edit

/-- The edits of a pattern. -/
inductive Pattern.Edited : Pattern → Edits → Prop where
  | unit : Edited (.unit sp) [keep (.punct .lparen), keep (.punct .rparen)]
  | nil : Edited (.unit sp) [nilToUnit]
  | wild : Edited (.wild sp) [keep (.punct .underscore)]
  | var : Edited (.var n) [keep (.ident n.name)]
  | literal : Parser.literalOf? k = some value → value ≠ .nil → Edited (.literal value sp) [keep k]
  | negative : Edited (.literal (.number x.neg) sp) [keep (.punct .minus), keep (.number x)]
  | named : Edited p d → Edited (.named n p) (keep (.ident n.name) :: keep (.punct .atSign) :: d)
  | grouped : Edited p d → Edited p (drop .lparen :: (d ++ [drop .rparen]))
  | tuple : List.Forall₂ Edited ps ds →
      Edited (.tuple ps sp)
        (keep (.punct .lparen) :: (Edits.joined .comma ds ++ [keep (.punct .rparen)]))
  | vector : List.Forall₂ Edited ps ds → Edits.Listed .comma ds d →
      Edited (.vector ps sp) (keep (.punct .lbracket) :: (d ++ [keep (.punct .rbracket)]))

mutual

/-- The edits of an expression. -/
inductive Expr.Edited : Expr → Edits → Prop where
  | literal : Parser.literalOf? k = some value → Expr.Edited (.literal value sp) [keep k]
  | unit : Expr.Edited (.literal .nil sp) [unitToNil]
  | grouping : Expr.Edited e d →
      Expr.Edited (.grouping e sp) (keep (.punct .lparen) :: (d ++ [keep (.punct .rparen)]))
  | unary : Expr.Edited e d → Expr.Edited (.unary op e sp) (keep (.punct op.mark) :: d)
  | binary : Expr.Edited l d → Expr.Edited r d' →
      Expr.Edited (.binary l op r sp) (d ++ keep op.token :: d')
  | var : Expr.Edited (.var n) [keep (.ident n.name)]
  | assign : Expr.Edited e d →
      Expr.Edited (.assign n e) (keep (.ident n.name) :: keep (.punct .eq) :: d)
  | call : Expr.Edited e d → List.Forall₂ Expr.Edited args ds →
      Expr.Edited (.call e args sp)
        (d ++ keep (.punct .lparen) :: (Edits.joined .comma ds ++ [keep (.punct .rparen)]))
  | get : Expr.Edited e d → Expr.Edited (.get e n) (d ++ [keep (.punct .dot), keep (.ident n.name)])
  | set : Expr.Edited e d → Expr.Edited value d' →
      Expr.Edited (.set e n value)
        (d ++ keep (.punct .dot) :: keep (.ident n.name) :: keep (.punct .eq) :: d')
  | this : Expr.Edited (.this sp) [keep (.keyword .this)]
  | super : Expr.Edited (.super n sp) [keep (.keyword .super), keep (.punct .dot),
      keep (.ident n.name)]
  | letIn : Expr.Edited e d → Expr.Edited body d' →
      Expr.Edited (.letIn n e body sp)
        (keep (.keyword .let_) :: keep (.ident n.name) :: keep (.punct .eq) ::
          (d ++ keep (.keyword .in_) :: d'))
  | seq : List.Forall₂ Expr.Edited es ds → Edits.Listed .semicolon ds d →
      Expr.Edited (.seq es sp)
        (keep (.keyword .do_) :: keep (.punct .lbrace) :: (d ++ [keep (.punct .rbrace)]))
  | cond : Expr.Edited c d → Expr.Edited yes d' → Expr.Edited no d'' →
      Expr.Edited (.cond c yes no sp)
        (keep (.keyword .if_) ::
          (d ++ keep (.keyword .then_) :: (d' ++ keep (.keyword .else_) :: d'')))
  | tuple : List.Forall₂ Expr.Edited es ds →
      Expr.Edited (.tuple es sp)
        (keep (.punct .lparen) :: (Edits.joined .comma ds ++ [keep (.punct .rparen)]))
  | vector : List.Forall₂ Expr.Edited es ds → Edits.Listed .comma ds d →
      Expr.Edited (.vector es sp) (keep (.punct .lbracket) :: (d ++ [keep (.punct .rbracket)]))
  | case : Expr.Edited e d → List.Forall₂ CaseArm.Edited arms ds → Edits.Listed .comma ds d' →
      Expr.Edited (.case e arms sp) (keep (.keyword .case) ::
        (d ++ keep (.keyword .of) :: keep (.punct .lbrace) :: (d' ++ [keep (.punct .rbrace)])))

/-- The edits of an arm of a `case`. -/
inductive CaseArm.Edited : CaseArm → Edits → Prop where
  | plain : Pattern.Edited p d → Expr.Edited body d' →
      CaseArm.Edited (.mk p none body) (d ++ keep (.keyword .then_) :: d')
  | guarded : Pattern.Edited p d → Expr.Edited g d' → Expr.Edited body d'' →
      CaseArm.Edited (.mk p (some g) body)
        (d ++ keep (.keyword .if_) :: (d' ++ keep (.keyword .then_) :: d''))

end

/-- The edits of an expression that may be missing. -/
inductive Expr.ClauseEdited : Option Expr → Edits → Prop where
  | none : ClauseEdited none []
  | some : Expr.Edited e d → ClauseEdited (some e) d

/-- The edits of the declaration of a variable. -/
inductive Stmt.VarEdited : Stmt → Edits → Prop where
  | plain : VarEdited (.varDecl n none)
      [keep (.keyword .var), keep (.ident n.name), keep (.punct .semicolon)]
  | initialized : Expr.Edited e d → VarEdited (.varDecl n (some e))
      (keep (.keyword .var) :: keep (.ident n.name) :: keep (.punct .eq) ::
        (d ++ [keep (.punct .semicolon)]))

/-- The edits of the part of a `for` header that runs first; its semicolon has to be there. -/
inductive Stmt.InitialEdited : Option Stmt → Edits → Prop where
  | none : InitialEdited none [keep (.punct .semicolon)]
  | expr : Expr.Edited e d → InitialEdited (some (.expr e)) (d ++ [keep (.punct .semicolon)])
  | varDecl : VarEdited s d → InitialEdited (some s) d

mutual

/-- The edits of a statement. -/
inductive Stmt.Edited : Stmt → Edits → Prop where
  | expr : Expr.Edited e d → Edits.Semicolon t → Stmt.Edited (.expr e) (d ++ t)
  | print : Expr.Edited e d → Edits.Semicolon t →
      Stmt.Edited (.print e sp) (keep (.keyword .print) :: (d ++ t))
  | varDecl : Stmt.VarEdited s d → Stmt.Edited s d
  | block : List.Forall₂ Stmt.Edited ss ds →
      Stmt.Edited (.block ss sp) (keep (.punct .lbrace) :: (ds.flatten ++ [keep (.punct .rbrace)]))
  | fnDecl : FunctionDecl.Edited f d → Stmt.Edited (.fnDecl f) (keep (.keyword .fn) :: d)
  | classDecl : List.Forall₂ FunctionDecl.Edited fs ds →
      Stmt.Edited (.classDecl n none fs) (keep (.keyword .class_) :: keep (.ident n.name) ::
        keep (.punct .lbrace) :: (ds.flatten ++ [keep (.punct .rbrace)]))
  | subclass : List.Forall₂ FunctionDecl.Edited fs ds →
      Stmt.Edited (.classDecl n (some m) fs) (keep (.keyword .class_) :: keep (.ident n.name) ::
        keep (.punct .lt) :: keep (.ident m.name) ::
        keep (.punct .lbrace) :: (ds.flatten ++ [keep (.punct .rbrace)]))
  | ret : Expr.ClauseEdited e d → Edits.Semicolon t →
      Stmt.Edited (.ret e sp) (keep (.keyword .return_) :: (d ++ t))
  | whileLoop : Expr.Edited e d → Stmt.Edited body d' →
      Stmt.Edited (.whileLoop e body sp) (keep (.keyword .while_) :: (d ++ d'))
  | forever : List.Forall₂ Stmt.Edited ss ds →
      Stmt.Edited (.forever ss sp)
        (keep (.keyword .loop) :: keep (.punct .lbrace) :: (ds.flatten ++ [keep (.punct .rbrace)]))
  | forLoop : Stmt.InitialEdited init d₁ → Expr.ClauseEdited c d₂ → Expr.ClauseEdited inc d₃ →
      Stmt.Edited body d₄ →
      Stmt.Edited (.forLoop init c inc body sp) (keep (.keyword .for_) :: keep (.punct .lparen) ::
        (d₁ ++ (d₂ ++ keep (.punct .semicolon) :: (d₃ ++ keep (.punct .rparen) :: d₄))))

/-- The edits of a function without its `fn`. -/
inductive FunctionDecl.Edited : FunctionDecl → Edits → Prop where
  | mk : List.Forall₂ Stmt.Edited body ds →
      FunctionDecl.Edited (.mk n params body) (keep (.ident n.name) :: keep (.punct .lparen) ::
        (Edits.joined .comma (params.map fun param => [keep (.ident param.name)]) ++
          keep (.punct .rparen) ::
          keep (.punct .lbrace) :: (ds.flatten ++ [keep (.punct .rbrace)])))

end

/-- The edits of a program are those of its statements. -/
def Program.Edited (p : Program) (d : Edits) : Prop :=
  ∃ ds, List.Forall₂ Stmt.Edited p.statements ds ∧ d = ds.flatten

namespace Edits

@[simp]
theorem source_nil : source [] = [] := rfl

@[simp]
theorem source_cons (e : Edit) (d : Edits) : source (e :: d) = e.source ++ source d := rfl

@[simp]
theorem source_append (d d' : Edits) : source (d ++ d') = source d ++ source d' :=
  List.flatMap_append

@[simp]
theorem target_nil : target [] = [] := rfl

@[simp]
theorem target_cons (e : Edit) (d : Edits) : target (e :: d) = e.target ++ target d := rfl

@[simp]
theorem target_append (d d' : Edits) : target (d ++ d') = target d ++ target d' :=
  List.flatMap_append

@[simp]
theorem target_flatten (ds : List Edits) : target ds.flatten = (ds.map target).flatten := by
  induction ds with
  | nil => rfl
  | cons d ds ih => rw [List.flatten_cons, target_append, ih, List.map_cons, List.flatten_cons]

theorem joined_cons (sep : Punct) (d : Edits) (h : ds ≠ []) :
    joined sep (d :: ds) = d ++ keep (.punct sep) :: joined sep ds := by
  obtain ⟨d', ds', rfl⟩ := List.exists_cons_of_ne_nil h
  rfl

theorem target_joined (sep : Punct) (ds : List Edits) :
    target (joined sep ds) = joinWords (.punct sep) (ds.map target) := by
  fun_induction joined sep ds with
  | case1 => rfl
  | case2 d => rfl
  | case3 d ds hne ih =>
    rw [List.map_cons, joinWords_cons _ _ (by simpa using hne), ← ih]
    simp [Edit.target]

theorem Listed.cons (h : Listed sep ds d') (hne : ds ≠ []) (d : Edits) :
    Listed sep (d :: ds) (d ++ keep (.punct sep) :: d') := by
  cases h with
  | exact => exact joined_cons sep d hne ▸ .exact
  | trailing =>
    have hlist : Listed sep (d :: ds) (joined sep (d :: ds) ++ [drop sep]) := .trailing (by simp)
    simpa [joined_cons sep d hne] using hlist

theorem Listed.target_eq (h : Listed sep ds d) :
    target d = joinWords (.punct sep) (ds.map target) := by
  cases h with
  | exact => exact target_joined sep ds
  | trailing => simp [target_joined, Edit.target]

theorem Semicolon.target_eq (h : Semicolon t) : target t = [.punct .semicolon] := by
  cases h <;> rfl

end Edits

/-- Whether the token, if it is a number, is one without a sign, as scanned numbers are. -/
def TokenKind.isUnsigned : TokenKind → Bool
  | .number x => !x.isNegative && !x.isNaN
  | _ => true

theorem TokenKind.isUnsigned_number {x : Number} :
    (TokenKind.number x).isUnsigned = true ↔ x.isNegative = false ∧ x.isNaN = false := by
  simp [isUnsigned]

namespace Parser

variable {α β : Type}

/-! ## Tokens taken by a parser -/

/-- Whatever the parser reads without errors has edits, given by `W`, that start from just the
tokens it took. -/
def Reads (p : Parser α) (W : α → Edits → Prop) : Prop :=
  ∀ cx ts a rest, (∀ k ∈ ts.map Token.kind, k.isUnsigned = true) → p.quiet cx ts = some (a, rest) →
    ∃ d, W a d ∧ ts.map Token.kind = d.source ++ rest.map Token.kind

/-- Edits that go on behind a token of kind `k`. -/
def Behind (k : TokenKind) (W : α → Edits → Prop) (a : α) (d : Edits) : Prop :=
  ∃ d', W a d' ∧ d'.source = k :: d.source

/-- The edits of the items in a step of `collect`. -/
def Listing (W : α → Edits → Prop) : Item α → Edits → Prop
  | .none, d => d = []
  | .last a, d | .more a, d => W a d

/-- The edits of an optional part. -/
def Part (W : α → Edits → Prop) : Option α → Edits → Prop
  | none, d => d = []
  | some a, d => W a d

theorem Behind.keep {W : α → Edits → Prop} (h : W a (Edit.keep k :: d)) : Behind k W a d :=
  ⟨_, h, rfl⟩

namespace Reads

variable {p : Parser α} {W : α → Edits → Prop} {W' : β → Edits → Prop}

theorem mono {V : α → Edits → Prop} (h : Reads p V) (hW : ∀ a d, V a d → W a d) : Reads p W := by
  intro cx ts a rest hts hp
  obtain ⟨d, hd, heq⟩ := h cx ts a rest hts hp
  exact ⟨d, hW a d hd, heq⟩

theorem fail {e : String → Span → ParseError} : Reads (failHere e) W :=
  fun _ _ _ _ _ hp => nomatch hp

theorem pure (h : W a []) : Reads (Pure.pure a) W := by
  intro cx ts b rest _ hp
  cases hp
  exact ⟨[], h, rfl⟩

theorem bind {f : α → Parser β} (hp : Reads p W)
    (hf : ∀ a d, W a d → Reads (f a) fun b d' => W' b (d ++ d')) : Reads (p >>= f) W' := by
  intro cx ts b rest hts h
  rw [quiet_bind, Option.bind_eq_some_iff] at h
  obtain ⟨⟨a, mid⟩, ha, hb⟩ := h
  obtain ⟨d, hd, heq⟩ := hp cx ts a mid hts ha
  have hmid : ∀ k ∈ mid.map Token.kind, k.isUnsigned = true := fun k hk =>
    hts k (heq ▸ List.mem_append_right _ hk)
  obtain ⟨d', hd', heq'⟩ := hf a d hd cx mid b rest hmid hb
  exact ⟨d ++ d', hd', by rw [heq, heq', Edits.source_append, List.append_assoc]⟩

/-- Nothing is taken by looking at the next token. -/
theorem look {f : β → Parser α} {q : Parser β} (hq : ∀ cx ts, ∃ b, q.quiet cx ts = some (b, ts))
    (hf : ∀ b, Reads (f b) W) : Reads (q >>= f) W := by
  intro cx ts a rest hts h
  obtain ⟨b, hb⟩ := hq cx ts
  rw [quiet_bind, hb, Option.bind_some] at h
  exact hf b cx ts a rest hts h

/-! ### Single tokens -/

theorem branch {forms : Token → Option (Parser α)} (heof : ∀ sp, forms ⟨.eof, sp⟩ = none)
    (hforms : ∀ k sp q, forms ⟨k, sp⟩ = some q → k.isUnsigned = true → Reads q (Behind k W))
    (ho : Reads p W) :
    Reads (Parser.branch forms p) W := by
  intro cx ts a rest hts h
  rw [quiet_branch] at h
  split at h
  · next q hq =>
    cases ts with
    | nil => cases (heof _).symm.trans hq
    | cons t ts =>
      rw [List.map_cons, List.forall_mem_cons] at hts
      obtain ⟨d, ⟨d', hd', hsource⟩, heq⟩ := hforms t.kind t.span q hq hts.1 cx ts a rest hts.2 h
      refine ⟨d', hd', ?_⟩
      rw [hsource, List.map_cons, heq]
      rfl
  · exact ho cx ts a rest hts h

theorem onKind {q : Token → Parser α} (hk : k ≠ .eof) (hq : ∀ t, Reads (q t) (Behind k W))
    (ho : Reads p W) :
    Reads (Parser.onKind k q p) W := by
  refine branch (fun sp => if_neg (by simpa using hk.symm)) (fun k' sp r hr _ => ?_) ho
  split at hr
  · next heq =>
    cases hr
    obtain rfl : k' = k := eq_of_beq heq
    exact hq _
  · cases hr

theorem eat (hk : k ≠ .eof) :
    Reads (Parser.eat k) fun b d => b = true ∧ d = [keep k] ∨ b = false ∧ d = [] :=
  onKind hk (fun _ => pure (.keep (.inl ⟨rfl, rfl⟩))) (pure (.inr ⟨rfl, rfl⟩))

theorem mark : Reads (Parser.mark m context) fun _ d => d = [keep (.punct m)] :=
  onKind (by simp) (fun _ => pure (.keep rfl)) .fail

theorem word : Reads (Parser.word k context) fun _ d => d = [keep (.keyword k)] :=
  onKind (by simp) (fun _ => pure (.keep rfl)) .fail

theorem ident : Reads (Parser.ident context) fun n d => d = [keep (.ident n.name)] := by
  refine branch (fun _ => rfl) (fun k sp q hq _ => ?_) .fail
  cases k with
  | ident name => cases hq; exact pure (.keep rfl)
  | _ => cases hq

/-- A semicolon may be missing. -/
theorem semicolon : Reads (Parser.eat (.punct .semicolon)) fun _ t => Edits.Semicolon t := by
  intro cx ts b rest hts h
  obtain ⟨d, ⟨-, rfl⟩ | ⟨-, rfl⟩, heq⟩ := eat (by simp) cx ts b rest hts h
  · exact ⟨_, .kept, heq⟩
  · exact ⟨_, .added, heq⟩

/-! ### Optional parts -/

theorem unlessAt (h : Reads p W) : Reads (Parser.unlessAt k p) (Part W) := by
  refine look (fun cx ts => ⟨_, quiet_check k⟩) fun b => ?_
  cases b with
  | true => exact pure rfl
  | false => exact bind h fun a d hd => pure (by simpa [Part] using hd)

theorem behind (hk : k ≠ .eof) (h : Reads p W) :
    Reads (Parser.behind k p) (Part fun a d => ∃ d', W a d' ∧ d = keep k :: d') := by
  refine onKind hk (fun _ => bind h fun a d hd => pure (.keep ?_)) (pure rfl)
  exact ⟨d, hd, by simp⟩

theorem recovering (h : Reads p W) :
    Reads (Parser.recovering p) fun r d => ∃ a, r = some a ∧ W a d := by
  intro cx ts r rest hts hr
  rw [quiet_recovering, Option.map_eq_some_iff] at hr
  obtain ⟨⟨a, rest'⟩, ha, heq⟩ := hr
  cases heq
  obtain ⟨d, hd, heq⟩ := h cx ts a rest hts ha
  exact ⟨d, ⟨a, rfl, hd⟩, heq⟩

/-! ### Repetition -/

/-- Put together from the edits of its items: an empty list, a list of one, or an item in front of a
list. -/
theorem collect_of {step : Nat → Parser (Item α)} {V : Item α → Edits → Prop}
    {U : List α → Edits → Prop} (h : ∀ n, Reads (step n) V) (hnone : ∀ d, V .none d → U [] d)
    (hlast : ∀ a d, V (.last a) d → U [a] d) (hmore : ∀ a d as d', V (.more a) d → U as d' →
      ∃ d'', U (a :: as) d'' ∧ d''.source = d.source ++ d'.source)
    (n : Nat) : Reads (Parser.collect step n) U := by
  intro cx ts as rest hts hr
  induction hm : ts.length using Nat.strongRecOn generalizing ts n as with
  | ind m ih =>
    rw [quiet_collect] at hr
    split at hr
    · cases hr
    · next hstep =>
      cases hr
      obtain ⟨d, hd, heq⟩ := h n cx ts _ _ hts hstep
      exact ⟨d, hnone d hd, heq⟩
    · next a _ hstep =>
      cases hr
      obtain ⟨d, hd, heq⟩ := h n cx ts _ _ hts hstep
      exact ⟨d, hlast a d hd, heq⟩
    · next a mid hstep =>
      split at hr
      · next hlt =>
        obtain ⟨⟨as', rest'⟩, has, heq⟩ := Option.map_eq_some_iff.mp hr
        cases heq
        obtain ⟨d, hd, heq⟩ := h n cx ts _ _ hts hstep
        have hmid : ∀ k ∈ mid.map Token.kind, k.isUnsigned = true := fun k hk =>
          hts k (heq ▸ List.mem_append_right _ hk)
        obtain ⟨d', hd', heq'⟩ := ih _ (hm ▸ hlt) (n + 1) mid as' hmid has rfl
        obtain ⟨d'', hd'', hsource⟩ := hmore a d as' d' hd hd'
        exact ⟨d'', hd'', by rw [heq, heq', hsource, List.append_assoc]⟩
      · cases hr

theorem collect {step : Nat → Parser (Item α)} (h : ∀ n, Reads (step n) (Listing W)) (n : Nat) :
    Reads (Parser.collect step n) fun as d => ∃ ds, List.Forall₂ W as ds ∧ d = ds.flatten := by
  refine collect_of h ?_ (fun a d hd => ⟨[d], .cons hd .nil, by simp⟩) ?_ n
  · rintro d rfl
    exact ⟨[], .nil, rfl⟩
  · rintro a d as _ hd ⟨ds, hds, rfl⟩
    exact ⟨_, ⟨d :: ds, .cons hd hds, rfl⟩, by simp⟩

/-- Items that are put to use from the left. -/
theorem collect_foldl {σ : Type} {step : Nat → Parser (Item α)} {f : σ → α → σ}
    {V : σ → Edits → Prop}
    (h : ∀ n, Reads (step n) (Listing fun a d => ∀ s d₀, V s d₀ → V (f s a) (d₀ ++ d))) (n : Nat) :
    Reads (Parser.collect step n) fun as d => ∀ s d₀, V s d₀ → V (as.foldl f s) (d₀ ++ d) := by
  refine (collect h n).mono ?_
  rintro as _ ⟨ds, hds, rfl⟩
  induction hds with
  | nil => simp
  | cons ha _ ih =>
    intro s d₀ hs
    rw [List.flatten_cons, ← List.append_assoc]
    exact ih _ _ (ha s d₀ hs)

/-- The edits of an item and the separator behind it. -/
def Separated (sep : Punct) (W : α → Edits → Prop) : Item α → Edits → Prop
  | .none, _ => False
  | .last a, d => W a d
  | .more a, d => ∃ d', W a d' ∧ d = d' ++ [keep (.punct sep)]

theorem itemThen (h : Reads p W) : Reads (Parser.itemThen sep p) (Separated sep W) := by
  refine bind h fun a d hd => bind (eat (by simp)) fun more d' hmore => ?_
  rcases hmore with ⟨rfl, rfl⟩ | ⟨rfl, rfl⟩
  · exact pure ⟨d, hd, by simp⟩
  · exact pure (by simpa [Separated] using hd)

/-- Lists that cannot end with a separator. -/
theorem separated {step : Nat → Parser (Item α)}
    (h : ∀ n, Reads (step n) (Separated sep W)) (n : Nat) :
    Reads (Parser.collect step n) fun as d =>
      as ≠ [] ∧ ∃ ds, List.Forall₂ W as ds ∧ d = Edits.joined sep ds := by
  refine collect_of h (fun _ hd => hd.elim) (fun a d hd => ⟨by simp, [d], .cons hd .nil, rfl⟩) ?_ n
  rintro a _ as _ ⟨d, hd, rfl⟩ ⟨hne, ds, hds, rfl⟩
  refine ⟨_, ⟨by simp, d :: ds, .cons hd hds, rfl⟩, ?_⟩
  have hds' : ds ≠ [] := by
    rintro rfl
    cases hds
    exact hne rfl
  simp [Edits.joined_cons _ _ hds', Edit.source]

theorem commaList (h : Reads p W) (n : Nat) :
    Reads (Parser.commaList kind p n) fun as d =>
      as ≠ [] ∧ ∃ ds, List.Forall₂ W as ds ∧ d = Edits.joined .comma ds := by
  refine separated (fun n => ?_) n
  intro cx ts item rest hts hr
  rw [quiet_bind, quiet_limit] at hr
  split at hr
  · cases hr
  · exact itemThen h cx ts item rest hts hr

/-- A separator behind the last item is left out. -/
theorem items (h : Reads p W) :
    Reads (Parser.items sep close p) fun as d => ∃ ds, List.Forall₂ W as ds ∧
      Edits.Listed sep ds d := by
  have hstep : ∀ n : Nat,
    Reads (do if ← Parser.ends close then return .none else Parser.itemThen sep p)
      fun item d => item = .none ∧ d = [] ∨ Separated sep W item d := by
    refine fun _ => look (fun cx ts => ⟨_, quiet_ends close⟩) fun b => ?_
    cases b with
    | true => exact pure (.inl ⟨rfl, rfl⟩)
    | false => exact (itemThen h).mono fun _ _ h => .inr h
  refine collect_of hstep ?_ ?_ ?_ 0
  · rintro d (⟨-, rfl⟩ | h)
    · exact ⟨[], .nil, .exact⟩
    · exact h.elim
  · rintro a d (⟨h, -⟩ | hd)
    · cases h
    · exact ⟨[d], .cons hd .nil, .exact⟩
  · rintro a d as d' (⟨h, -⟩ | ⟨d, hd, rfl⟩) ⟨ds, hds, hlist⟩
    · cases h
    -- A separator was read; it is kept only if an item follows.
    cases hds with
    | nil =>
      cases hlist with
      | exact =>
        exact ⟨_, ⟨[d], .cons hd .nil, .trailing (by simp)⟩, by simp [Edits.joined, Edit.source]⟩
      | trailing hne => exact absurd rfl hne
    | cons hb hbs =>
      exact ⟨_, ⟨_, .cons hd (.cons hb hbs), hlist.cons (by simp) d⟩, by simp⟩

theorem closed (h : Reads p W) :
    Reads (Parser.closed sep close context p) fun as d => ∃ ds d', List.Forall₂ W as ds ∧
      Edits.Listed sep ds d' ∧ d = d' ++ [keep (.punct close)] := by
  refine bind (items h) fun as d hd => bind mark fun _ t ht => pure ?_
  obtain ⟨ds, hds, hlist⟩ := hd
  exact ⟨ds, d, hds, hlist, by simp [ht]⟩

theorem delimited (h : Reads p W) :
    Reads (Parser.delimited opening sep close context p) fun as d => ∃ ds d', List.Forall₂ W as ds ∧
      Edits.Listed sep ds d' ∧ d = keep (.punct opening) :: (d' ++ [keep (.punct close)]) := by
  refine bind mark fun _ t ht => (closed h).mono ?_
  rintro as _ ⟨ds, d', hds, hlist, rfl⟩
  exact ⟨ds, d', hds, hlist, by simp [ht]⟩

theorem itemsUntil (h : Reads p W) :
    Reads (Parser.itemsUntil close p) fun as d => ∃ ds, List.Forall₂ W as ds ∧ d = ds.flatten := by
  refine collect (fun _ => look (fun cx ts => ⟨_, quiet_ends close⟩) fun b => ?_) 0
  cases b with
  | true => exact pure rfl
  | false => exact bind h fun a d hd => pure (by simpa [Listing] using hd)

theorem fix {ι : Type} {step : (ι → Parser α) → ι → Parser α} {W : ι → α → Edits → Prop}
    (h : ∀ self, (∀ j, Reads (self j) (W j)) → ∀ i, Reads (step self i) (W i)) (i : ι) :
    Reads (Parser.fix step i) (W i) := by
  intro cx ts a rest hts hr
  induction hn : ts.length using Nat.strongRecOn generalizing i cx ts a rest with
  | ind n ih =>
    rw [quiet_fix] at hr
    refine h _ (fun j cx ts' b rest' hts' hb => ?_) i cx ts a rest hts hr
    by_cases hlt : ts'.length < ts.length
    · rw [quiet_below hlt] at hb
      exact ih _ (hn ▸ hlt) j cx ts' b rest' hts' hb rfl
    · simp only [quiet, below, hlt, if_false] at hb
      cases hb

end Reads

end Parser

end TreeWalk
