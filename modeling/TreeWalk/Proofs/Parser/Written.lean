import Mathlib.Data.List.Forall2
import TreeWalk.Proofs.Parser.History

/-!
# Programs as written

Which tokens a tree is written with, said along the tree (`Stmt.Written` and its companions). All
tokens are there with their places, and a mark stands in front of each item that is the first one
too many in its list. The marks stand for errors that do not stop the parser.

`Parser.Consumes p W` says that, with no other errors, `p` takes just the tokens of a tree and notes
just the errors that its marks stand for. It has a rule for each combinator.
-/

namespace TreeWalk

/-! ## Tokens and marks -/

/-- A token at its place, or a mark in front of the first item that is too many. -/
inductive Piece where
  | token (kind : TokenKind) (span : Span)
  | excess (kind : ItemKind)
deriving DecidableEq, Repr

abbrev Pieces := List Piece

namespace Pieces

open Piece

def tokens : Pieces → List Token
  | [] => []
  | token kind span :: d => ⟨kind, span⟩ :: tokens d
  | excess _ :: d => tokens d

/-- The marks, each with all that stands behind it. -/
def excesses : Pieces → List (ItemKind × Pieces)
  | [] => []
  | token _ _ :: d => excesses d
  | excess kind :: d => (kind, d) :: excesses d

/-- The errors that the marks stand for, where `rest` comes behind the tokens. -/
def errors (cx : Parser.Context) (rest : List Token) (d : Pieces) : List ParseError :=
  d.excesses.map fun m => .tooManyItems m.1 (cx.next (tokens m.2 ++ rest)).span

@[simp]
theorem tokens_append (d d' : Pieces) : tokens (d ++ d') = tokens d ++ tokens d' := by
  induction d with
  | nil => rfl
  | cons p d ih =>
    cases p with
    | token kind span => exact congrArg _ ih
    | excess kind => exact ih

@[simp]
theorem excesses_append (d d' : Pieces) :
    excesses (d ++ d') = (excesses d).map (fun m => (m.1, m.2 ++ d')) ++ excesses d' := by
  induction d with
  | nil => rfl
  | cons p d ih =>
    cases p with
    | token kind span => exact ih
    | excess kind => exact congrArg _ ih

theorem errors_append (cx : Parser.Context) (rest : List Token) (d d' : Pieces) :
    errors cx rest (d ++ d') = errors cx (tokens d' ++ rest) d ++ errors cx rest d' := by
  simp only [errors, excesses_append, List.map_append, List.map_map, Function.comp_def,
    tokens_append, List.append_assoc]

/-- The mark in front of an item behind `n` others, in a list of a limited kind. -/
def mark (limited : Option ItemKind) (n : Nat) : Pieces :=
  if n = 255 then (limited.map excess).toList else []

/-- Items with separators between them, where `n` items came before. -/
inductive Joined (sep : Punct) (limited : Option ItemKind) : Nat → List Pieces → Pieces → Prop where
  | nil : Joined sep limited n [] []
  | one : Joined sep limited n [d] (mark limited n ++ d)
  | cons : ds ≠ [] → Joined sep limited (n + 1) ds d' →
      Joined sep limited n (d :: ds) (mark limited n ++ (d ++ token (.punct sep) sp :: d'))

/-- Items with separators between them, and perhaps one more behind the last item. -/
inductive Listed (sep : Punct) (ds : List Pieces) : Pieces → Prop where
  | exact : Joined sep none 0 ds d → Listed sep ds d
  | trailing : ds ≠ [] → Joined sep none 0 ds d → Listed sep ds (d ++ [token (.punct sep) sp])

/-- A semicolon that may be missing. -/
inductive Semicolon : Pieces → Prop where
  | there : Semicolon [token (.punct .semicolon) sp]
  | missing : Semicolon []

@[simp]
theorem mark_none (n : Nat) : mark none n = [] := by
  unfold mark
  split <;> rfl

/-- Where the kind is not limited, it does not matter how many items came before. -/
theorem Joined.shift (h : Joined sep none n ds d) (m : Nat) : Joined sep none m ds d := by
  induction h generalizing m with
  | nil => exact .nil
  | @one n d =>
    have hone : Joined sep none m [d] (mark none m ++ d) := .one
    simpa using hone
  | @cons ds n d' d sp hne _ ih =>
    have hcons : Joined sep none m (d :: ds) (mark none m ++ (d ++ token (.punct sep) sp :: d')) :=
      .cons hne (ih (m + 1))
    simpa using hcons

theorem Joined.cons_none (h : Joined sep none 0 ds d') (hne : ds ≠ []) (d : Pieces) (sp : Span) :
    Joined sep none 0 (d :: ds) (d ++ token (.punct sep) sp :: d') :=
  .cons hne (h.shift 1)

theorem Listed.cons (h : Listed sep ds d') (hne : ds ≠ []) (d : Pieces) (sp : Span) :
    Listed sep (d :: ds) (d ++ token (.punct sep) sp :: d') := by
  cases h with
  | exact hjoined => exact .exact (hjoined.cons_none hne d sp)
  | @trailing d' sp' _ hjoined =>
    have htrailing : Listed sep (d :: ds)
        ((d ++ token (.punct sep) sp :: d') ++ [token (.punct sep) sp']) :=
      .trailing (by simp) (hjoined.cons_none hne d sp)
    simpa using htrailing

end Pieces

/-- The token that a name is. -/
def Ident.piece (x : Ident) : Piece :=
  .token (.ident x.name) x.span

/-! ## Trees -/

open Piece

/-- The tokens of a pattern. Parentheses around a single pattern leave no trace in it. -/
inductive Pattern.Written : Pattern → Pieces → Prop where
  | unit : Written (.unit (.merge sp sp')) [token (.punct .lparen) sp, token (.punct .rparen) sp']
  | nil : Written (.unit sp) [token (.keyword .nil) sp]
  | wild : Written (.wild sp) [token (.punct .underscore) sp]
  | var : Written (.var n) [n.piece]
  | literal : Parser.literalOf? k = some value → value ≠ .nil →
      Written (.literal value sp) [token k sp]
  | negative : Written (.literal (.number x.neg) (.merge sp sp')) [token (.punct .minus) sp,
      token (.number x) sp']
  | named : Written p d → Written (.named n p) (n.piece :: token (.punct .atSign) sp :: d)
  | grouped : Written p d →
      Written p (token (.punct .lparen) sp :: (d ++ [token (.punct .rparen) sp']))
  | tuple : 2 ≤ ps.length → List.Forall₂ Written ps ds → Pieces.Joined .comma none 0 ds d →
      Written (.tuple ps sp) (token (.punct .lparen) sp :: (d ++ [token (.punct .rparen) sp']))
  | vector : List.Forall₂ Written ps ds → Pieces.Listed .comma ds d →
      Written (.vector ps sp) (token (.punct .lbracket) sp :: (d ++ [token (.punct .rbracket) sp']))

mutual

/-- The tokens of an expression. -/
inductive Expr.Written : Expr → Pieces → Prop where
  | literal : Parser.literalOf? k = some value → Expr.Written (.literal value sp) [token k sp]
  | unit : Expr.Written (.literal .nil (.merge sp sp')) [token (.punct .lparen) sp,
      token (.punct .rparen) sp']
  | grouping : Expr.Written e d →
      Expr.Written (.grouping e sp)
        (token (.punct .lparen) sp :: (d ++ [token (.punct .rparen) sp']))
  | unary : Expr.Written e d → Expr.Written (.unary op e sp) (token (.punct op.mark) sp :: d)
  | binary : Expr.Written l d → Expr.Written r d' →
      Expr.Written (.binary l op r sp) (d ++ token op.token sp :: d')
  | var : Expr.Written (.var n) [n.piece]
  | assign : Expr.Written e d → Expr.Written (.assign n e) (n.piece :: token (.punct .eq) sp :: d)
  | call : Expr.Written e d → List.Forall₂ Expr.Written args ds →
      Pieces.Joined .comma (some .arguments) 0 ds d' → Expr.Written (.call e args sp)
      (d ++ token (.punct .lparen) sp :: (d' ++ [token (.punct .rparen) sp']))
  | get : Expr.Written e d → Expr.Written (.get e n) (d ++ [token (.punct .dot) sp, n.piece])
  | set : Expr.Written e d → Expr.Written value d' →
      Expr.Written (.set e n value)
        (d ++ token (.punct .dot) sp :: n.piece :: token (.punct .eq) sp' :: d')
  | this : Expr.Written (.this sp) [token (.keyword .this) sp]
  | super :
      Expr.Written (.super n sp) [token (.keyword .super) sp, token (.punct .dot) sp', n.piece]
  | letIn : Expr.Written e d → Expr.Written body d' →
      Expr.Written (.letIn n e body sp)
        (token (.keyword .let_) sp :: n.piece :: token (.punct .eq) sp' ::
          (d ++ token (.keyword .in_) sp'' :: d'))
  | seq : List.Forall₂ Expr.Written es ds → Pieces.Listed .semicolon ds d →
      Expr.Written (.seq es sp)
        (token (.keyword .do_) sp :: token (.punct .lbrace) sp' ::
          (d ++ [token (.punct .rbrace) sp'']))
  | cond : Expr.Written c d → Expr.Written yes d' → Expr.Written no d'' →
      Expr.Written (.cond c yes no sp)
        (token (.keyword .if_) sp ::
          (d ++ token (.keyword .then_) sp' :: (d' ++ token (.keyword .else_) sp'' :: d'')))
  | tuple : 2 ≤ es.length → List.Forall₂ Expr.Written es ds →
      Pieces.Joined .comma (some .tupleElements) 0 ds d →
      Expr.Written (.tuple es sp) (token (.punct .lparen) sp :: (d ++ [token (.punct .rparen) sp']))
  | vector : List.Forall₂ Expr.Written es ds → Pieces.Listed .comma ds d →
      Expr.Written (.vector es sp)
        (token (.punct .lbracket) sp :: (d ++ [token (.punct .rbracket) sp']))
  | case : Expr.Written e d → List.Forall₂ CaseArm.Written arms ds → Pieces.Listed .comma ds d' →
      Expr.Written (.case e arms sp) (token (.keyword .case) sp ::
        (d ++ token (.keyword .of) sp' :: token (.punct .lbrace) sp'' ::
          (d' ++ [token (.punct .rbrace) sp'''])))

/-- The tokens of an arm of a `case`. -/
inductive CaseArm.Written : CaseArm → Pieces → Prop where
  | plain : Pattern.Written p d → Expr.Written body d' →
      CaseArm.Written (.mk p none body) (d ++ token (.keyword .then_) sp :: d')
  | guarded : Pattern.Written p d → Expr.Written g d' → Expr.Written body d'' →
      CaseArm.Written (.mk p (some g) body)
        (d ++ token (.keyword .if_) sp :: (d' ++ token (.keyword .then_) sp' :: d''))

end

/-- The tokens of an expression that may be missing. -/
inductive Expr.ClauseWritten : Option Expr → Pieces → Prop where
  | none : ClauseWritten none []
  | some : Expr.Written e d → ClauseWritten (some e) d

/-- The tokens of the declaration of a variable. -/
inductive Stmt.VarWritten : Stmt → Pieces → Prop where
  | plain : VarWritten (.varDecl n none) [token (.keyword .var) sp, n.piece,
      token (.punct .semicolon) sp']
  | initialized : Expr.Written e d → VarWritten (.varDecl n (some e))
      (token (.keyword .var) sp :: n.piece :: token (.punct .eq) sp' ::
        (d ++ [token (.punct .semicolon) sp'']))

/-- The tokens of the part of a `for` header that runs first. -/
inductive Stmt.InitialWritten : Option Stmt → Pieces → Prop where
  | none : InitialWritten none [token (.punct .semicolon) sp]
  | expr : Expr.Written e d → InitialWritten (some (.expr e)) (d ++ [token (.punct .semicolon) sp])
  | varDecl : VarWritten s d → InitialWritten (some s) d

mutual

/-- The tokens of a statement. -/
inductive Stmt.Written : Stmt → Pieces → Prop where
  | expr : Expr.Written e d → Pieces.Semicolon t → Stmt.Written (.expr e) (d ++ t)
  | print : Expr.Written e d → Pieces.Semicolon t →
      Stmt.Written (.print e sp) (token (.keyword .print) sp :: (d ++ t))
  | varDecl : Stmt.VarWritten s d → Stmt.Written s d
  | block : List.Forall₂ Stmt.Written ss ds →
      Stmt.Written (.block ss sp)
        (token (.punct .lbrace) sp :: (ds.flatten ++ [token (.punct .rbrace) sp']))
  | fnDecl : FunctionDecl.Written f d → Stmt.Written (.fnDecl f) (token (.keyword .fn) sp :: d)
  | classDecl : List.Forall₂ FunctionDecl.Written fs ds →
      Stmt.Written (.classDecl n none fs) (token (.keyword .class_) sp :: n.piece ::
        token (.punct .lbrace) sp' :: (ds.flatten ++ [token (.punct .rbrace) sp'']))
  | subclass : List.Forall₂ FunctionDecl.Written fs ds →
      Stmt.Written (.classDecl n (some m) fs) (token (.keyword .class_) sp :: n.piece ::
        token (.punct .lt) sp' :: m.piece :: token (.punct .lbrace) sp'' ::
        (ds.flatten ++ [token (.punct .rbrace) sp''']))
  | ret : Expr.ClauseWritten e d → Pieces.Semicolon t →
      Stmt.Written (.ret e sp) (token (.keyword .return_) sp :: (d ++ t))
  | whileLoop : Expr.Written e d → Stmt.Written body d' →
      Stmt.Written (.whileLoop e body sp) (token (.keyword .while_) sp :: (d ++ d'))
  | forever : List.Forall₂ Stmt.Written ss ds →
      Stmt.Written (.forever ss sp) (token (.keyword .loop) sp :: token (.punct .lbrace) sp' ::
        (ds.flatten ++ [token (.punct .rbrace) sp'']))
  | forLoop : Stmt.InitialWritten init d₁ → Expr.ClauseWritten c d₂ → Expr.ClauseWritten inc d₃ →
      Stmt.Written body d₄ →
      Stmt.Written (.forLoop init c inc body sp)
        (token (.keyword .for_) sp :: token (.punct .lparen) sp' ::
        (d₁ ++
          (d₂ ++ token (.punct .semicolon) sp'' :: (d₃ ++ token (.punct .rparen) sp''' :: d₄))))

/-- The tokens of a function without its `fn`. -/
inductive FunctionDecl.Written : FunctionDecl → Pieces → Prop where
  | mk : Pieces.Joined .comma (some .parameters) 0 (params.map fun x => [x.piece]) d →
      List.Forall₂ Stmt.Written body ds →
      FunctionDecl.Written (.mk n params body) (n.piece :: token (.punct .lparen) sp ::
        (d ++ token (.punct .rparen) sp' :: token (.punct .lbrace) sp'' ::
          (ds.flatten ++ [token (.punct .rbrace) sp'''])))

end

/-- The tokens of a program are those of its statements. -/
def Program.Written (p : Program) (d : Pieces) : Prop :=
  ∃ ds, List.Forall₂ Stmt.Written p.statements ds ∧ d = ds.flatten

namespace Parser

variable {α β : Type}

/-! ## Tokens taken by a parser -/

/-- All errors noted are of lists that are too long. -/
def State.ExcessOnly (s : State) : Prop :=
  ∀ e ∈ s.errors, ∃ kind span, e = .tooManyItems kind span

/-- A run over the tokens `ts` that came to the state `s` took the tokens of `d` and noted the
errors that its marks stand for. -/
structure State.Took (cx : Context) (ts : List Token) (d : Pieces) (s : State) : Prop where
  tokens : ts = d.tokens ++ s.ahead
  errors : s.errors = d.errors cx s.ahead

/-- Whatever the parser reads with no errors but those of lists that are too long, `W` tells how it
is written with the tokens it took. -/
def Consumes (p : Parser α) (W : α → Pieces → Prop) : Prop :=
  ∀ ⦃cx ts a s⦄, p cx ts = .ok a s → s.ExcessOnly → ∃ d, W a d ∧ s.Took cx ts d

/-- The parser is stopped only by errors that it cannot go on after. -/
def FailsFatally (p : Parser α) : Prop :=
  ∀ cx ts e s, p cx ts = .fail e s → e.isRecoverable = false

theorem ok_of_after {r : Reply α} (h : r.after notes = .ok a t) :
    ∃ u, r = .ok a u ∧ t = { u with notes := notes ++ u.notes } := by
  cases r with
  | ok b u =>
    cases h
    exact ⟨u, rfl, rfl⟩
  | fail e u => cases h

theorem State.errors_after (notes : List Note) (u : State) :
    State.errors { u with notes := notes ++ u.notes } = notes.filterMap Note.error? ++ u.errors :=
  List.filterMap_append

/-- The errors of two runs, one after the other. -/
theorem State.excessOnly_after {s u : State}
    (h : State.ExcessOnly { u with notes := s.notes ++ u.notes }) :
    s.ExcessOnly ∧ u.ExcessOnly := by
  rw [State.ExcessOnly, State.errors_after] at h
  exact List.forall_mem_append.mp h

theorem State.Took.append {s u : State} (h : s.Took cx ts d) (h' : u.Took cx s.ahead d') :
    State.Took cx ts (d ++ d') { u with notes := s.notes ++ u.notes } where
  tokens := by rw [h.tokens, h'.tokens, Pieces.tokens_append, List.append_assoc]
  errors := by
    rw [Pieces.errors_append, State.errors_after, ← h'.errors, ← h'.tokens, ← h.errors]
    rfl

namespace Consumes

variable {p : Parser α} {W : α → Pieces → Prop} {V : β → Pieces → Prop}

theorem mono {W' : α → Pieces → Prop} (h : Consumes p W') (hW : ∀ a d, W' a d → W a d) :
    Consumes p W := by
  intro cx ts a s hp hs
  obtain ⟨d, hd, htook⟩ := h hp hs
  exact ⟨d, hW a d hd, htook⟩

theorem fail {e : String → Span → ParseError} : Consumes (failHere e) W := by
  intro cx ts a s hp
  cases hp

theorem pure (h : W a []) : Consumes (Pure.pure a) W := by
  intro cx ts b s hp _
  cases hp
  exact ⟨[], h, rfl, rfl⟩

theorem bind {f : α → Parser β} (hp : Consumes p W)
    (hf : ∀ a d, W a d → Consumes (f a) fun b d' => V b (d ++ d')) :
    Consumes (p >>= f) V := by
  intro cx ts b t h ht
  cases ha : p cx ts with
  | fail e s =>
    rw [bind_of_fail ha] at h
    cases h
  | ok a s =>
    rw [bind_of_ok ha] at h
    obtain ⟨u, hb, rfl⟩ := ok_of_after h
    obtain ⟨hs, hu⟩ := State.excessOnly_after ht
    obtain ⟨d, hd, htook⟩ := hp ha hs
    obtain ⟨d', hd', htook'⟩ := hf a d hd hb hu
    exact ⟨d ++ d', hd', htook.append htook'⟩

/-- Nothing is taken by looking at the next token. -/
theorem look {q : Parser β} {f : β → Parser α} (hq : ∀ cx ts, ∃ b, q cx ts = .ok b { ahead := ts })
    (hf : ∀ b, Consumes (f b) W) : Consumes (q >>= f) W := by
  refine bind (W := fun _ d => d = []) ?_ fun b d hd => by simpa [hd] using hf b
  intro cx ts b s hb _
  obtain ⟨b', hb'⟩ := hq cx ts
  cases hb.symm.trans hb'
  exact ⟨[], rfl, rfl, rfl⟩

/-! ### Single tokens -/

theorem branch {forms : Token → Option (Parser α)} (heof : ∀ sp, forms ⟨.eof, sp⟩ = none)
    (hforms : ∀ k sp q, forms ⟨k, sp⟩ = some q → Consumes q fun a d => W a (.token k sp :: d))
    (ho : Consumes p W) :
    Consumes (Parser.branch forms p) W := by
  intro cx ts a s h hs
  unfold Parser.branch at h
  split at h
  · next q hq =>
    cases ts with
    | nil => cases (heof _).symm.trans hq
    | cons t ts =>
      obtain ⟨d, hd, htook⟩ := hforms t.kind t.span q hq h hs
      exact ⟨.token t.kind t.span :: d, hd, congrArg (t :: ·) htook.tokens, htook.errors⟩
  · exact ho h hs

theorem onKind {q : Token → Parser α} (hk : k ≠ .eof)
    (hq : ∀ sp, Consumes (q ⟨k, sp⟩) fun a d => W a (.token k sp :: d)) (ho : Consumes p W) :
    Consumes (Parser.onKind k q p) W := by
  refine branch (fun sp => if_neg (by simpa using hk.symm)) (fun k' sp r hr => ?_) ho
  split at hr
  · next heq =>
    cases hr
    obtain rfl : k' = k := eq_of_beq heq
    exact hq sp
  · cases hr

theorem eat (hk : k ≠ .eof) :
    Consumes (Parser.eat k) fun b d => (b = true ∧ ∃ sp, d = [.token k sp]) ∨ b = false ∧ d = [] :=
  onKind hk (fun sp => pure (.inl ⟨rfl, sp, rfl⟩)) (pure (.inr ⟨rfl, rfl⟩))

theorem mark : Consumes (Parser.mark m context) fun t d => d = [.token (.punct m) t.span] :=
  onKind (by simp) (fun _ => pure rfl) .fail

theorem word : Consumes (Parser.word k context) fun t d => d = [.token (.keyword k) t.span] :=
  onKind (by simp) (fun _ => pure rfl) .fail

theorem ident : Consumes (Parser.ident context) fun x d => d = [x.piece] := by
  refine branch (fun _ => rfl) (fun k sp q hq => ?_) .fail
  cases k with
  | ident name =>
    cases hq
    exact pure rfl
  | _ => cases hq

theorem semicolon : Consumes (Parser.eat (.punct .semicolon)) fun _ d => Pieces.Semicolon d := by
  refine (eat (by simp)).mono fun b d hd => ?_
  rcases hd with ⟨-, sp, rfl⟩ | ⟨-, rfl⟩
  · exact .there
  · exact .missing

/-- The one place where an error is noted that does not matter. -/
theorem limit : Consumes (Parser.limit kind n) fun _ d => d = Pieces.mark (some kind) n := by
  intro cx ts a s h _
  unfold Parser.limit at h
  refine ⟨_, rfl, ?_⟩
  by_cases hn : n = 255
  · rw [if_pos (by simpa [maxItems] using hn)] at h
    cases h
    rw [Pieces.mark, if_pos hn]
    exact ⟨rfl, rfl⟩
  · rw [if_neg (by simpa [maxItems] using hn)] at h
    cases h
    rw [Pieces.mark, if_neg hn]
    exact ⟨rfl, rfl⟩

/-! ### Optional parts -/

/-- The tokens of an optional part. -/
def Part (W : α → Pieces → Prop) : Option α → Pieces → Prop
  | none, d => d = []
  | some a, d => W a d

theorem unlessAt (h : Consumes p W) : Consumes (Parser.unlessAt k p) (Part W) := by
  refine look (fun _ _ => ⟨_, rfl⟩) fun b => ?_
  cases b with
  | true => exact pure rfl
  | false => exact bind h fun a d hd => pure (by simpa [Part] using hd)

theorem behind (hk : k ≠ .eof) (h : Consumes p W) :
    Consumes (Parser.behind k p) (Part fun a d => ∃ sp d', W a d' ∧ d = .token k sp :: d') := by
  refine onKind hk (fun sp => bind h fun a d hd => pure ?_) (pure rfl)
  exact ⟨sp, d, hd, by simp⟩

/-- A declaration that is given up leaves an error that matters. -/
theorem recovering (h : Consumes p W) (hp : FailsFatally p) :
    Consumes (Parser.recovering p) fun r d => ∃ a, r = some a ∧ W a d := by
  intro cx ts r s hr hs
  unfold Parser.recovering at hr
  cases ha : p cx ts with
  | ok a u =>
    rw [ha] at hr
    cases hr
    obtain ⟨d, hd, htook⟩ := h ha hs
    exact ⟨d, ⟨a, rfl, hd⟩, htook⟩
  | fail e u =>
    rw [ha] at hr
    cases hr
    obtain ⟨kind, span, rfl⟩ := hs e (by simp [State.errors, Note.error?])
    cases hp cx ts _ u ha

/-! ### Repetition -/

/-- Put together from the tokens of its items: an empty list, a list of one, or an item in front of
a list. -/
theorem collect_of {step : Nat → Parser (Item α)} {V : Nat → Item α → Pieces → Prop}
    {U : Nat → List α → Pieces → Prop} (h : ∀ n, Consumes (step n) (V n))
    (hnone : ∀ n d, V n .none d → U n [] d) (hlast : ∀ n a d, V n (.last a) d → U n [a] d)
    (hmore : ∀ n a d as d', V n (.more a) d → U (n + 1) as d' → U n (a :: as) (d ++ d')) (n : Nat) :
    Consumes (Parser.collect step n) (U n) := by
  intro cx ts as s hr hs
  induction hm : ts.length using Nat.strongRecOn generalizing ts n as s with
  | ind m ih =>
    rw [Parser.collect] at hr
    split at hr
    · cases hr
    · next hstep =>
      cases hr
      obtain ⟨d, hd, htook⟩ := h n hstep hs
      exact ⟨d, hnone n d hd, htook⟩
    · next a _ hstep =>
      cases hr
      obtain ⟨d, hd, htook⟩ := h n hstep hs
      exact ⟨d, hlast n a d hd, htook⟩
    · next a u hstep =>
      split at hr
      · next hlt =>
        obtain ⟨v, hv, rfl⟩ := ok_of_after hr
        obtain ⟨hu, hv'⟩ := State.excessOnly_after hs
        obtain ⟨d, hd, htook⟩ := h n hstep hu
        cases hrest : Parser.collect step (n + 1) cx u.ahead with
        | fail e w =>
          rw [hrest] at hv
          cases hv
        | ok as' w =>
          rw [hrest] at hv
          cases hv
          obtain ⟨d', hd', htook'⟩ := ih _ (hm ▸ hlt) (n + 1) hrest hv' rfl
          exact ⟨d ++ d', hmore n a d as' d' hd hd', htook.append htook'⟩
      · cases hr

/-- The tokens of an item in a step of `collect`. -/
def Listing (W : α → Pieces → Prop) : Item α → Pieces → Prop
  | .none, d => d = []
  | .last a, d | .more a, d => W a d

theorem collect {step : Nat → Parser (Item α)} (h : ∀ n, Consumes (step n) (Listing W)) (n : Nat) :
    Consumes (Parser.collect step n) fun as d => ∃ ds, List.Forall₂ W as ds ∧ d = ds.flatten := by
  refine collect_of (V := fun _ => Listing W)
    (U := fun _ as d => ∃ ds, List.Forall₂ W as ds ∧ d = ds.flatten) h ?_
    (fun _ a d hd => ⟨[d], .cons hd .nil, by simp⟩) ?_ n
  · rintro _ d rfl
    exact ⟨[], .nil, rfl⟩
  · rintro _ a d as _ hd ⟨ds, hds, rfl⟩
    exact ⟨d :: ds, .cons hd hds, rfl⟩

/-- Items that are put to use from the left. -/
theorem collect_foldl {σ : Type} {step : Nat → Parser (Item α)} {f : σ → α → σ}
    {V : σ → Pieces → Prop} (h : ∀ n,
        Consumes (step n) (Listing fun a d => ∀ s d₀, V s d₀ → V (f s a) (d₀ ++ d))) (n : Nat) :
    Consumes (Parser.collect step n) fun as d => ∀ s d₀, V s d₀ → V (as.foldl f s) (d₀ ++ d) := by
  refine (collect h n).mono ?_
  rintro as _ ⟨ds, hds, rfl⟩
  induction hds with
  | nil => simp
  | cons ha _ ih =>
    intro s d₀ hs
    rw [List.flatten_cons, ← List.append_assoc]
    exact ih _ _ (ha s d₀ hs)

/-- The tokens of an item and the separator behind it. -/
def Separated (sep : Punct) (limited : Option ItemKind) (W : α → Pieces → Prop) (n : Nat) :
    Item α → Pieces → Prop
  | .none, _ => False
  | .last a, d => ∃ d', W a d' ∧ d = Pieces.mark limited n ++ d'
  | .more a, d => ∃ d' sp, W a d' ∧ d = Pieces.mark limited n ++ (d' ++ [.token (.punct sep) sp])

theorem itemThen (h : Consumes p W) (n : Nat) :
    Consumes (Parser.itemThen sep p) (Separated sep none W n) := by
  refine bind h fun a d hd => bind (eat (by simp)) fun more d' hmore => ?_
  rcases hmore with ⟨rfl, sp, rfl⟩ | ⟨rfl, rfl⟩
  · exact pure ⟨d, sp, hd, by simp⟩
  · exact pure ⟨d, hd, by simp⟩

/-- Lists that cannot end with a separator. -/
theorem separated {step : Nat → Parser (Item α)}
    (h : ∀ n, Consumes (step n) (Separated sep limited W n)) (n : Nat) :
    Consumes (Parser.collect step n) fun as d =>
      as ≠ [] ∧ ∃ ds, List.Forall₂ W as ds ∧ Pieces.Joined sep limited n ds d := by
  refine collect_of
    (U := fun n as d => as ≠ [] ∧ ∃ ds, List.Forall₂ W as ds ∧ Pieces.Joined sep limited n ds d) h
    (fun _ _ hd => hd.elim) ?_ ?_ n
  · rintro n a _ ⟨d, hd, rfl⟩
    exact ⟨by simp, [d], .cons hd .nil, .one⟩
  · rintro n a _ as d' ⟨d, sp, hd, rfl⟩ ⟨hne, ds, hds, hjoined⟩
    have hds' : ds ≠ [] := by
      rintro rfl
      cases hds
      exact hne rfl
    exact ⟨by simp, d :: ds, .cons hd hds, by simpa using Pieces.Joined.cons hds' hjoined⟩

theorem commaList (h : Consumes p W) (n : Nat) :
    Consumes (Parser.commaList kind p n) fun as d =>
      as ≠ [] ∧ ∃ ds, List.Forall₂ W as ds ∧ Pieces.Joined .comma (some kind) n ds d := by
  refine separated (fun n => bind limit fun _ d hd => (itemThen h n).mono fun item d' hd' => ?_) n
  subst hd
  cases item with
  | none => exact hd'
  | last a =>
    obtain ⟨e, he, rfl⟩ := hd'
    exact ⟨e, he, by simp⟩
  | more a =>
    obtain ⟨e, sp, he, rfl⟩ := hd'
    exact ⟨e, sp, he, by simp⟩

theorem items (h : Consumes p W) :
    Consumes (Parser.items sep close p) fun as d => ∃ ds, List.Forall₂ W as ds ∧
      Pieces.Listed sep ds d := by
  have hstep : ∀ n : Nat,
    Consumes (do if ← Parser.ends close then return .none else Parser.itemThen sep p)
      fun item d => item = .none ∧ d = [] ∨ Separated sep none W n item d := by
    refine fun n => look (fun _ _ => ⟨_, rfl⟩) fun b => ?_
    cases b with
    | true => exact pure (.inl ⟨rfl, rfl⟩)
    | false => exact (itemThen h n).mono fun _ _ h => .inr h
  refine collect_of (U := fun _ as d => ∃ ds, List.Forall₂ W as ds ∧ Pieces.Listed sep ds d)
    hstep ?_ ?_ ?_ 0
  · rintro n d (⟨-, rfl⟩ | h)
    · exact ⟨[], .nil, .exact .nil⟩
    · exact h.elim
  · rintro n a d (⟨h, -⟩ | ⟨d, hd, rfl⟩)
    · cases h
    · exact ⟨[d], .cons hd .nil, by simpa using .exact .one⟩
  · rintro n a d as d' (⟨h, -⟩ | ⟨d, sp, hd, rfl⟩) ⟨ds, hds, hlist⟩
    · cases h
    -- A separator was read; it stands between two items only if another one follows.
    rw [Pieces.mark_none, List.nil_append, List.append_assoc, List.singleton_append]
    cases hds with
    | nil =>
      cases hlist with
      | exact hjoined =>
        cases hjoined
        exact ⟨[d], .cons hd .nil, .trailing (by simp) (by simpa using .one)⟩
      | trailing hne => exact absurd rfl hne
    | cons hb hbs => exact ⟨_, .cons hd (.cons hb hbs), hlist.cons (by simp) d sp⟩

theorem closed (h : Consumes p W) :
    Consumes (Parser.closed sep close context p) fun as d => ∃ ds d' sp, List.Forall₂ W as ds ∧
      Pieces.Listed sep ds d' ∧ d = d' ++ [.token (.punct close) sp] := by
  refine bind (items h) fun as d hd => bind mark fun t e he => pure ?_
  obtain ⟨ds, hds, hlist⟩ := hd
  exact ⟨ds, d, t.span, hds, hlist, by simp [he]⟩

theorem delimited (h : Consumes p W) :
    Consumes (Parser.delimited opening sep close context p) fun as d =>
      ∃ ds d' sp sp', List.Forall₂ W as ds ∧ Pieces.Listed sep ds d' ∧
      d = .token (.punct opening) sp :: (d' ++ [.token (.punct close) sp']) := by
  refine bind mark fun t e he => (closed h).mono ?_
  rintro as _ ⟨ds, d', sp, hds, hlist, rfl⟩
  exact ⟨ds, d', t.span, sp, hds, hlist, by simp [he]⟩

theorem itemsUntil (h : Consumes p W) :
    Consumes (Parser.itemsUntil close p) fun as d => ∃ ds, List.Forall₂ W as ds ∧
      d = ds.flatten := by
  refine collect (fun _ => look (fun _ _ => ⟨_, rfl⟩) fun b => ?_) 0
  cases b with
  | true => exact pure rfl
  | false => exact bind h fun a d hd => pure (by simpa [Listing] using hd)

/-- A recursion, with what is known beforehand about failures. -/
theorem fix {ι : Type} {step : (ι → Parser α) → ι → Parser α} {W : ι → α → Pieces → Prop}
    (hfail : ∀ i, FailsFatally (Parser.fix step i))
    (h : ∀ self, (∀ j, Consumes (self j) (W j)) → (∀ j, FailsFatally (self j)) →
      ∀ i, Consumes (step self i) (W i))
    (i : ι) : Consumes (Parser.fix step i) (W i) := by
  intro cx ts a s hr hs
  induction hn : ts.length using Nat.strongRecOn generalizing i cx ts a s with
  | ind n ih =>
    rw [Parser.fix] at hr
    refine h _ (fun j cx ts' b t hb ht => ?_) (fun j cx ts' e t hfailed => ?_) i hr hs
    · split at hb
      · next hlt => exact ih _ (hn ▸ hlt) j hb ht rfl
      · cases hb
    · split at hfailed
      · exact hfail j cx ts' e t hfailed
      · cases hfailed
        rfl

end Consumes

end Parser

end TreeWalk
