import TreeWalk.Proofs.Parser.Progress

/-!
# Histories

The history of reading a program tells of every declaration, at the top or in a block, where it was
started, whether it was kept or given up, and where reading went on. A parser that reads
declarations inside has a list of blocks to tell of (`Recounts`), whether it answers with a value or
fails; a parser of expressions has none (`Plain`). Every run over a list of tokens has a history,
and what it notes of errors that stopped something is what the declarations given up in the history
leave behind (`exists_history`).
-/

namespace TreeWalk

/-- The blocks that stand in a statement, each as the statements in it. A statement that is the body
of a loop belongs to the loop. -/
def Stmt.blocks : Stmt → List (List Stmt)
  | .block ss _ | .forever ss _ => [ss]
  | .fnDecl decl => [decl.body]
  | .classDecl _ _ methods => methods.map FunctionDecl.body
  | .whileLoop _ body _ | .forLoop _ _ _ body _ => body.blocks
  | _ => []

/-- A function on lists that appends what it gets from each item. -/
theorem eq_flatMap {α β : Type} {f : List α → List β} {g : α → List β} (hnil : f [] = [])
    (hcons : ∀ a as, f (a :: as) = g a ++ f as) (as : List α) : f as = as.flatMap g := by
  induction as with
  | nil => exact hnil
  | cons a as ih => rw [hcons, ih, List.flatMap_cons]

namespace Parser

variable {α β : Type}

/-! ## Attempts -/

/-- One declaration as it was read: the tokens ahead at its start, what became of it, the tokens
ahead where reading went on, and the blocks read on the way. One that was given up has the error
that stopped it and the tokens ahead of that. -/
inductive Attempt where
  | kept (start : List Token) (statement : Stmt) (stop : List Token) (blocks : List (List Attempt))
  | abandoned (start : List Token) (error : ParseError) (fault stop : List Token)
      (blocks : List (List Attempt))

namespace Attempt

def start : Attempt → List Token
  | kept start _ _ _ | abandoned start _ _ _ _ => start

def stop : Attempt → List Token
  | kept _ _ stop _ | abandoned _ _ _ stop _ => stop

def statement? : Attempt → Option Stmt
  | kept _ statement _ _ => some statement
  | abandoned .. => none

def error? : Attempt → Option ParseError
  | kept .. => none
  | abandoned _ error _ _ _ => some error

/-- What is left of a block: the declarations that were kept. -/
def statements (block : List Attempt) : List Stmt :=
  block.filterMap statement?

mutual

/-- The attempt and all those inside it, in the order in which they came to an end. -/
def all : Attempt → List Attempt
  | kept start statement stop blocks => allOfBlocks blocks ++ [kept start statement stop blocks]
  | abandoned start error fault stop blocks =>
    allOfBlocks blocks ++ [abandoned start error fault stop blocks]

def allOf : List Attempt → List Attempt
  | [] => []
  | a :: as => a.all ++ allOf as

def allOfBlocks : List (List Attempt) → List Attempt
  | [] => []
  | block :: blocks => allOf block ++ allOfBlocks blocks

end

theorem allOfBlocks_eq (blocks : List (List Attempt)) : allOfBlocks blocks = blocks.flatMap allOf :=
  eq_flatMap rfl (fun _ _ => rfl) blocks

theorem allOfBlocks_append (blocks blocks' : List (List Attempt)) :
    allOfBlocks (blocks ++ blocks') = allOfBlocks blocks ++ allOfBlocks blocks' := by
  rw [allOfBlocks_eq, List.flatMap_append, ← allOfBlocks_eq, ← allOfBlocks_eq]

mutual

/-- What is inside an attempt inside another one is inside the other one. -/
theorem mem_all_trans (a : Attempt) (hb : b ∈ a.all) (hc : c ∈ b.all) : c ∈ a.all := by
  cases a with
  | kept start statement stop blocks | abandoned start error fault stop blocks =>
    rw [all] at hb ⊢
    rcases List.mem_append.mp hb with hb | hb
    · exact List.mem_append_left _ (mem_allOfBlocks_trans blocks hb hc)
    · rwa [List.mem_singleton.mp hb, all] at hc

/-- The same for the attempts of a block. -/
theorem mem_allOf_trans (as : List Attempt) (hb : b ∈ allOf as) (hc : c ∈ b.all) :
    c ∈ allOf as := by
  cases as with
  | nil => exact absurd hb List.not_mem_nil
  | cons a as =>
    rw [allOf] at hb ⊢
    exact List.mem_append.mpr
      ((List.mem_append.mp hb).imp (mem_all_trans a · hc) (mem_allOf_trans as · hc))

/-- The same for those of several blocks. -/
theorem mem_allOfBlocks_trans (blocks : List (List Attempt)) (hb : b ∈ allOfBlocks blocks)
    (hc : c ∈ b.all) :
    c ∈ allOfBlocks blocks := by
  cases blocks with
  | nil => exact absurd hb List.not_mem_nil
  | cons block blocks =>
    rw [allOfBlocks] at hb ⊢
    exact List.mem_append.mpr
      ((List.mem_append.mp hb).imp (mem_allOf_trans block · hc) (mem_allOfBlocks_trans blocks · hc))

end

/-- Attempts that follow each other: each starts where the one before it left off. -/
inductive Chain : List Token → List Attempt → List Token → Prop where
  | nil : Chain ts [] ts
  | cons {a : Attempt} : Chain a.stop as ts → Chain a.start (a :: as) ts

/-- The attempts at all declarations of one block, up to its `}` or the end of the input. -/
def Block (cx : Context) (block : List Attempt) : Prop :=
  ∃ first last, Chain first block last ∧ (cx.next last).kind ∈ [.punct .rbrace, .eof]

/-- The attempt was made between these two places. -/
def Within (first last : List Token) (a : Attempt) : Prop :=
  a.start <:+ first ∧ last <:+ a.stop

/-- What was read between two places was read between places farther apart. -/
theorem Within.widen (h : Within first last a) (hfirst : first <:+ first')
    (hlast : last' <:+ last) :
    Within first' last' a :=
  ⟨h.1.trans hfirst, hlast.trans h.2⟩

/-- This is what comes of reading a declaration there. -/
inductive Happens (cx : Context) : Attempt → Prop where
  | kept : stmt .declaration cx ts = .ok a s → (∀ block ∈ blocks, Block cx block) →
      (∀ b ∈ allOfBlocks blocks, b.Within ts s.ahead) → blocks.map statements = a.blocks →
      Happens cx (.kept ts a s.ahead blocks)
  | abandoned : stmt .declaration cx ts = .fail e s → (∀ block ∈ blocks, Block cx block) →
      (∀ b ∈ allOfBlocks blocks, b.Within ts s.ahead) →
      Happens cx (.abandoned ts e s.ahead (skipToBoundary s.ahead) blocks)

/-- What is noted when a declaration is given up: the error, and where reading goes on. -/
def notes (cx : Context) : Attempt → List Note
  | kept .. => []
  | abandoned _ error _ stop _ => [.error error, .resumed (cx.next stop).span]

end Attempt

/-! ## Parsers that tell of blocks -/

/-- A note of something that was given up. -/
def Note.isFatal : Note → Bool
  | error e => !e.isRecoverable
  | resumed _ => true

/-- The attempts were made by a run over the tokens `ts` that came to the state `s`. -/
structure State.Told (cx : Context) (ts : List Token) (attempts : List Attempt)
    (s : State) : Prop where
  ahead : s.ahead <:+ ts
  happened : ∀ a ∈ attempts, a.Happens cx ∧ a.Within ts s.ahead
  fatal : s.notes.filter Note.isFatal = attempts.flatMap (Attempt.notes cx)

/-- The blocks are what there is to tell of a run over the tokens `ts` that came to the state
`s`. -/
structure State.Logged (cx : Context) (ts : List Token) (blocks : List (List Attempt))
    (s : State) : Prop extends s.Told cx ts (Attempt.allOfBlocks blocks) where
  complete : ∀ block ∈ blocks, Attempt.Block cx block

/-- The error stops a parser in front of these tokens, and it stands at the first of them. -/
structure Stops (cx : Context) (ahead : List Token) (e : ParseError) : Prop where
  fatal : e.isRecoverable = false
  span : e.span = (cx.next ahead).span

/-- The blocks are what there is to tell of the answer. With them behind `before`, there are the
blocks `B` of its value. -/
inductive Reply.Recounted (cx : Context) (ts : List Token) (blocks : List (List Attempt))
    (before : List (List Stmt)) (B : α → List (List Stmt)) : Reply α → Prop where
  | ok : s.Logged cx ts blocks → before ++ blocks.map Attempt.statements = B a →
      Recounted cx ts blocks before B (.ok a s)
  | fail : s.Logged cx ts blocks → Stops cx s.ahead e → Recounted cx ts blocks before B (.fail e s)

/-- On fewer than `n` tokens there are blocks to tell of, which stand behind `before` to make those
of the value. There are none where the parser does not read into blocks. -/
def Recounts (nests : Bool) (n : Nat) (before : List (List Stmt)) (p : Parser α)
    (B : α → List (List Stmt)) : Prop :=
  ∀ cx ts, ts.length < n → ∃ blocks, (nests = false → blocks = []) ∧
    (p cx ts).Recounted cx ts blocks before B

/-- The parser does not read into blocks. -/
def Plain (p : Parser α) : Prop :=
  ∀ n before, Recounts false n before p fun _ => before

variable {nests : Bool} {n : Nat} {before : List (List Stmt)} {cx : Context} {ts us : List Token}
  {blocks : List (List Attempt)}

namespace State.Told

theorem quiet (h : us <:+ ts) : Told cx ts [] { ahead := us } :=
  ⟨h, fun _ h => absurd h List.not_mem_nil, rfl⟩

theorem widen (h : Told cx us attempts s) (hts : us <:+ ts) : Told cx ts attempts s :=
  ⟨h.ahead.trans hts, fun a ha =>
    ⟨(h.happened a ha).1, (h.happened a ha).2.widen hts (List.suffix_refl _)⟩, h.fatal⟩

/-- Two parsers after another: what the second tells comes behind what the first told. -/
theorem append (h : Told cx ts attempts s) (h' : Told cx s.ahead attempts' t) :
    Told cx ts (attempts ++ attempts') { t with notes := s.notes ++ t.notes } where
  ahead := h'.ahead.trans h.ahead
  happened := by
    refine List.forall_mem_append.mpr ⟨fun a ha => ?_, (h'.widen h.ahead).happened⟩
    exact ⟨(h.happened a ha).1, (h.happened a ha).2.widen (List.suffix_refl ts) h'.ahead⟩
  fatal := by rw [List.filter_append, h.fatal, h'.fatal, List.flatMap_append]

end State.Told

namespace State.Logged

theorem quiet (h : us <:+ ts) : Logged cx ts [] { ahead := us } :=
  ⟨.quiet h, fun _ h => absurd h List.not_mem_nil⟩

theorem widen (h : Logged cx us blocks s) (hts : us <:+ ts) : Logged cx ts blocks s :=
  ⟨h.toTold.widen hts, h.complete⟩

theorem append (h : Logged cx ts blocks s) (h' : Logged cx s.ahead blocks' t) :
    Logged cx ts (blocks ++ blocks') { t with notes := s.notes ++ t.notes } where
  toTold := by
    rw [Attempt.allOfBlocks_append]
    exact h.toTold.append h'.toTold
  complete := List.forall_mem_append.mpr ⟨h.complete, h'.complete⟩

end State.Logged

namespace Reply.Recounted

variable {B : α → List (List Stmt)} {r : Reply α}

theorem widen (h : r.Recounted cx us blocks before B) (hts : us <:+ ts) :
    r.Recounted cx ts blocks before B := by
  cases h with
  | ok hs hB => exact .ok (hs.widen hts) hB
  | fail hs he => exact .fail (hs.widen hts) he

/-- The blocks of the second parser are counted behind those of the first. -/
theorem after {s : State} {middle : List (List Stmt)} (hs : s.Logged cx ts blocks)
    (hmiddle : before ++ blocks.map Attempt.statements = middle)
    (h : r.Recounted cx s.ahead blocks' middle B) :
    (r.after s.notes).Recounted cx ts (blocks ++ blocks') before B := by
  cases h with
  | ok ht hB => exact .ok (hs.append ht) (by rw [List.map_append, ← List.append_assoc, hmiddle, hB])
  | fail ht he => exact .fail (hs.append ht) he

theorem map {A : β → List (List Stmt)} {f : α → β} (h : r.Recounted cx ts blocks before B)
    (hf : ∀ a, B a = A (f a)) :
    (r.map f).Recounted cx ts blocks before A := by
  cases h with
  | ok hs hB => exact .ok hs (hB.trans (hf _))
  | fail hs he => exact .fail hs he

end Reply.Recounted

namespace Recounts

variable {B : α → List (List Stmt)} {C : β → List (List Stmt)} {p : Parser α}

theorem pure (h : before = B a) : Recounts nests n before (Pure.pure a) B :=
  fun _ ts _ => ⟨[], fun _ => rfl, .ok (.quiet (List.suffix_refl ts)) (by simpa using h)⟩

/-- Blocks are told of in the order in which they are read. -/
theorem bind {f : α → Parser β} (hp : Recounts nests n before p B)
    (hf : ∀ a, Recounts nests n (B a) (f a) C) :
    Recounts nests n before (p >>= f) C := by
  intro cx ts hts
  obtain ⟨blocks, hnests, hr⟩ := hp cx ts hts
  cases ha : p cx ts with
  | ok a s =>
    rw [ha] at hr
    rw [bind_of_ok ha]
    cases hr with
    | ok hs hB =>
      obtain ⟨blocks', hnests', hr'⟩ := hf a cx s.ahead (Nat.lt_of_le_of_lt hs.ahead.length_le hts)
      exact ⟨blocks ++ blocks', fun h => by rw [hnests h, hnests' h, List.append_nil],
        hr'.after hs hB⟩
  | fail e s =>
    rw [ha] at hr
    rw [bind_of_fail ha]
    cases hr with
    | fail hs he => exact ⟨blocks, hnests, .fail hs he⟩

/-- What comes behind the next token is read with one token fewer. -/
theorem branch {forms : Token → Option (Parser α)} (heof : ∀ span, forms ⟨.eof, span⟩ = none)
    (hforms : ∀ t q, forms t = some q → Recounts nests (n - 1) before q B)
    (ho : Recounts nests n before p B) :
    Recounts nests n before (Parser.branch forms p) B := by
  intro cx ts hts
  unfold Parser.branch
  cases ts with
  | nil =>
    rw [show forms (cx.next []) = none from heof cx.finish]
    exact ho cx [] hts
  | cons t ts =>
    split
    · next q hq =>
      rw [List.length_cons] at hts
      obtain ⟨blocks, hnests, hr⟩ := hforms t q hq cx ts (by omega)
      exact ⟨blocks, hnests, hr.widen (List.suffix_cons t ts)⟩
    · exact ho cx _ hts

/-- The token is not told of, and what is left is shorter. -/
theorem onKind {q : Token → Parser α} (hk : kind ≠ .eof)
    (hq : ∀ t, Recounts nests (n - 1) before (q t) B) (ho : Recounts nests n before p B) :
    Recounts nests n before (Parser.onKind kind q p) B := by
  refine branch (fun span => if_neg (by simpa using hk.symm)) (fun t r hr => ?_) ho
  split at hr
  · cases hr
    exact hq t
  · cases hr

/-- The blocks of an item. -/
def ofItem (B : α → List (List Stmt)) : Item α → List (List Stmt)
  | .none => []
  | .last a | .more a => B a

/-- By induction on the number of tokens ahead: each round adds the blocks of its item. -/
theorem collect {step : Nat → Parser (Item α)}
    (h : ∀ k before, Recounts nests n before (step k) fun item => before ++ ofItem B item)
    (k : Nat) :
    Recounts nests n before (Parser.collect step k) fun as => before ++ as.flatMap B := by
  intro cx ts hts
  induction hm : ts.length using Nat.strongRecOn generalizing ts k before with
  | ind m ih =>
    obtain ⟨blocks, hnests, hr⟩ := h k before cx ts hts
    rw [Parser.collect]
    cases hs : step k cx ts with
    | fail e s =>
      rw [hs] at hr
      cases hr with
      | fail hs he => exact ⟨blocks, hnests, .fail hs he⟩
    | ok item s =>
      rw [hs] at hr
      cases hr with
      | ok hlogged hB =>
        cases item with
        | none => exact ⟨blocks, hnests, .ok hlogged hB⟩
        | last a => exact ⟨blocks, hnests, .ok hlogged (by simpa [ofItem] using hB)⟩
        | more a =>
          dsimp only
          split
          · next hlt =>
            obtain ⟨blocks', hnests', hr'⟩ : ∃ blocks', (nests = false → blocks' = []) ∧
                (Parser.collect step (k + 1) cx s.ahead).Recounted cx s.ahead blocks'
                  (before ++ B a) fun as => before ++ B a ++ as.flatMap B :=
              ih _ (hm ▸ hlt) (k + 1) s.ahead (Nat.lt_trans hlt hts) rfl
            have hrest : ((Parser.collect step (k + 1) cx s.ahead).map (a :: ·)).Recounted cx
                s.ahead blocks' (before ++ B a) fun as => before ++ as.flatMap B :=
              hr'.map fun as => by simp
            exact ⟨blocks ++ blocks', fun h => by rw [hnests h, hnests' h, List.append_nil],
              .after hlogged hB hrest⟩
          · refine ⟨blocks, hnests, ?_⟩
            rw [← List.append_nil blocks]
            exact .after hlogged hB (.fail (.quiet (List.suffix_refl _)) ⟨rfl, rfl⟩)

theorem congr (h : Recounts nests n before p B) (hB : ∀ a, B a = B' a) :
    Recounts nests n before p B' := by
  obtain rfl : B = B' := funext hB
  exact h

/-- A parser without blocks inside leaves the list as it is. -/
theorem of_plain (h : Plain p) : Recounts nests n before p fun _ => before := by
  intro cx ts hts
  obtain ⟨blocks, hnone, hr⟩ := h n before cx ts hts
  exact ⟨blocks, fun _ => hnone rfl, hr⟩

end Recounts

namespace Plain

variable {p : Parser α}

theorem pure : Plain (Pure.pure a : Parser α) :=
  fun _ _ => .pure rfl

theorem bind {f : α → Parser β} (hp : Plain p) (hf : ∀ a, Plain (f a)) : Plain (p >>= f) :=
  fun n before => (hp n before).bind fun a => hf a n before

/-- An error that ends the form is the last thing that is told. -/
theorem fail {error : String → Span → ParseError}
    (hfatal : ∀ text span, (error text span).isRecoverable = false)
    (hspan : ∀ text span, (error text span).span = span) : Plain (failHere error : Parser α) :=
  fun _ _ _ ts _ => ⟨[], fun _ => rfl, .fail (.quiet (List.suffix_refl ts)) ⟨hfatal _ _, hspan _ _⟩⟩

theorem stuck : Plain (Parser.stuck : Parser α) :=
  fail (fun _ _ => rfl) fun _ _ => rfl

/-- A parser that reads nothing tells nothing. -/
theorem look (h : ∀ cx ts, ∃ a, p cx ts = .ok a { ahead := ts }) : Plain p := by
  intro n before cx ts _
  obtain ⟨a, ha⟩ := h cx ts
  rw [ha]
  exact ⟨[], fun _ => rfl, .ok (.quiet (List.suffix_refl ts)) (List.append_nil before)⟩

theorem peek : Plain Parser.peek :=
  look fun _ _ => ⟨_, rfl⟩

theorem check : Plain (Parser.check kind) :=
  look fun _ _ => ⟨_, rfl⟩

theorem ends : Plain (Parser.ends close) :=
  look fun _ _ => ⟨_, rfl⟩

/-- An error after which reading goes on in place belongs to no attempt. -/
theorem report (h : e.isRecoverable = true) : Plain (Parser.report e) := by
  intro n before cx ts _
  refine ⟨[], fun _ => rfl, .ok ⟨⟨List.suffix_refl ts, fun _ h => absurd h List.not_mem_nil, ?_⟩,
    fun _ h => absurd h List.not_mem_nil⟩ (List.append_nil before)⟩
  simp [Note.isFatal, h, Attempt.allOfBlocks]

theorem branch {forms : Token → Option (Parser α)} (heof : ∀ span, forms ⟨.eof, span⟩ = none)
    (hforms : ∀ t q, forms t = some q → Plain q) (ho : Plain p) : Plain (Parser.branch forms p) :=
  fun n before => .branch heof (fun t q hq => hforms t q hq (n - 1) before) (ho n before)

theorem onKind {q : Token → Parser α} (hk : kind ≠ .eof) (hq : ∀ t, Plain (q t)) (ho : Plain p) :
    Plain (Parser.onKind kind q p) :=
  fun n before => .onKind hk (fun t => hq t (n - 1) before) (ho n before)

theorem eat (hk : kind ≠ .eof) : Plain (Parser.eat kind) :=
  onKind hk (fun _ => pure) pure

theorem mark : Plain (Parser.mark m context) :=
  onKind (by simp) (fun _ => pure) (fail (fun _ _ => rfl) fun _ _ => rfl)

theorem word : Plain (Parser.word k context) :=
  onKind (by simp) (fun _ => pure) (fail (fun _ _ => rfl) fun _ _ => rfl)

theorem ident : Plain (Parser.ident context) := by
  refine branch (fun _ => rfl) (fun t q hq => ?_) (fail (fun _ _ => rfl) fun _ _ => rfl)
  unfold identForms at hq
  split at hq
  · cases hq
    exact pure
  · cases hq

theorem collect {step : Nat → Parser (Item α)} (h : ∀ k, Plain (step k)) (k : Nat) :
    Plain (Parser.collect step k) := by
  intro n before
  have hitem : ∀ item : Item α, Recounts.ofItem (fun _ => []) item = [] := by
    intro item
    cases item <;> rfl
  refine (Recounts.collect (B := fun _ => []) (fun k before => ?_) k).congr fun as => by simp
  exact (h k n before).congr fun item => by rw [hitem, List.append_nil]

/-- By induction on the number of tokens ahead. -/
theorem fix {ι : Type} {step : (ι → Parser α) → ι → Parser α}
    (h : ∀ self, (∀ j, Plain (self j)) → ∀ i, Plain (step self i)) (i : ι) :
    Plain (Parser.fix step i) := by
  intro n before cx ts hts
  induction hm : ts.length using Nat.strongRecOn generalizing i n before cx ts with
  | ind m ih =>
    rw [Parser.fix]
    refine h _ (fun j n before cx us hus => ?_) i n before cx ts hts
    split
    · next hlt => exact ih _ (hm ▸ hlt) j n before cx us hus rfl
    · exact Plain.stuck n before cx us hus

/-- A list that is too long is reported without being given up. -/
theorem limit : Plain (Parser.limit kind n) := by
  unfold Parser.limit
  split
  · exact bind peek fun _ => report rfl
  · exact pure

/-! ### Lists -/

section

variable (h : Plain p)
include h

theorem itemThen : Plain (Parser.itemThen sep p) :=
  bind h fun _ => bind (eat (by simp)) fun _ => pure

theorem commaList (k : Nat) : Plain (Parser.commaList kind p k) :=
  collect (fun _ => bind limit fun _ => itemThen h) k

theorem closed : Plain (Parser.closed sep close context p) := by
  refine bind (collect (fun _ => bind ends fun b => ?_) 0) fun _ => bind mark fun _ => pure
  cases b with
  | true => exact pure
  | false => exact itemThen h

theorem delimited : Plain (Parser.delimited opening sep close context p) :=
  bind mark fun _ => closed h

theorem unlessAt : Plain (Parser.unlessAt kind p) := by
  refine bind check fun b => ?_
  cases b with
  | true => exact pure
  | false => exact bind h fun _ => pure

theorem behind (hk : kind ≠ .eof) : Plain (Parser.behind kind p) :=
  onKind hk (fun _ => bind h fun _ => pure) pure

end

/-! ### Patterns and expressions -/

section

variable {self : Parser Pattern} (h : Plain self)
include h

theorem namedPattern (x : Ident) : Plain (Parser.namedPattern self x) := by
  refine bind (behind h (by simp)) fun inner => ?_
  cases inner with
  | some p => exact pure
  | none => exact pure

theorem parenPattern (span : Span) : Plain (Parser.parenPattern self span) := by
  refine onKind (by simp) (fun _ => pure) (bind h fun first => bind (eat (by simp)) fun more => ?_)
  cases more with
  | true => exact bind (collect (fun _ => itemThen h) 1) fun _ => bind mark fun _ => pure
  | false => exact bind mark fun _ => pure

omit h in
theorem negativeNumber (span : Span) : Plain (Parser.negativeNumber span) := by
  refine branch (fun _ => rfl) (fun t q hq => ?_) (fail (fun _ _ => rfl) fun _ _ => rfl)
  unfold negativeForms at hq
  split at hq
  · cases hq
    exact pure
  · cases hq

/-- No form of a pattern has statements in it. -/
theorem patternStep : Plain (Parser.patternStep self) := by
  refine branch (fun _ => rfl) (fun t q hq => ?_) (fail (fun _ _ => rfl) fun _ _ => rfl)
  obtain ⟨kind, span⟩ := t
  cases kind with
  | punct m =>
    cases m with
    | underscore => cases hq; exact pure
    | minus => cases hq; exact negativeNumber span
    | lparen => cases hq; exact parenPattern h span
    | lbracket => cases hq; exact bind (closed h) fun _ => pure
    | _ => cases hq
  | keyword word =>
    cases word with
    | nil | true_ | false_ => cases hq; exact pure
    | _ => cases hq
  | number x | str x => cases hq; exact pure
  | ident name => cases hq; exact namedPattern h ⟨name, span⟩
  | eof => cases hq

end

theorem pattern : Plain Parser.pattern :=
  fix (fun _ hself _ => patternStep (hself ())) ()

section

variable {self : Parser Expr} (h : Plain self)
include h

theorem caseArm : Plain (Parser.caseArm self) :=
  bind pattern fun _ => bind (behind h (by simp)) fun _ => bind word fun _ => bind h fun _ => pure

theorem parenForm (span : Span) : Plain (Parser.parenForm self span) := by
  refine onKind (by simp) (fun _ => pure) (bind h fun first => bind (eat (by simp)) fun more => ?_)
  cases more with
  | true => exact bind (commaList h 1) fun _ => bind mark fun _ => pure
  | false => exact bind mark fun _ => pure

/-- Neither has a form that starts with a keyword or a bracket. -/
theorem compoundForms (hq : Parser.compoundForms self t = some q) : Plain q := by
  obtain ⟨kind, span⟩ := t
  cases kind with
  | punct m =>
    cases m with
    | lbracket => cases hq; exact bind (closed h) fun _ => pure
    | lparen => cases hq; exact parenForm h span
    | _ => cases hq
  | keyword word =>
    cases word with
    | let_ =>
      cases hq
      exact bind ident fun _ => bind mark fun _ => bind h fun _ => bind Plain.word fun _ =>
        bind h fun _ => pure
    | do_ => cases hq; exact bind (delimited h) fun _ => pure
    | if_ =>
      cases hq
      exact bind h fun _ => bind Plain.word fun _ => bind h fun _ => bind Plain.word fun _ =>
        bind h fun _ => pure
    | case =>
      cases hq; exact bind h fun _ => bind Plain.word fun _ =>
        bind (delimited (caseArm h)) fun _ => pure
    | super => cases hq; exact bind mark fun _ => bind ident fun _ => pure
    | this => cases hq; exact pure
    | _ => cases hq
  | ident name => cases hq; exact pure
  | _ => cases hq

theorem primary : Plain (Parser.primary self) := by
  refine branch (fun _ => rfl) (fun t q hq => ?_) (fail (fun _ _ => rfl) fun _ _ => rfl)
  unfold primaryForms at hq
  split at hq
  · cases hq
    exact pure
  · exact compoundForms h hq

theorem arguments : Plain (Parser.arguments self) :=
  bind (unlessAt (commaList h 0)) fun _ => bind mark fun _ => pure

theorem postfixed : Plain (Parser.postfixed self) := by
  refine bind (primary h) fun _ =>
    bind (collect (fun _ => branch (fun _ => rfl) (fun t q hq => ?_) pure) 0) fun _ =>
    pure
  unfold suffixForms at hq
  split at hq
  · cases hq
    exact bind (arguments h) fun _ => pure
  · cases hq
    exact bind ident fun _ => pure
  · cases hq

theorem unary : Plain (Parser.unary self) := by
  refine bind (collect (fun _ => branch (fun _ => rfl) (fun t q hq => ?_) pure) 0) fun _ =>
    bind (postfixed h) fun _ => pure
  obtain ⟨op, -, rfl⟩ := Option.map_eq_some_iff.mp hq
  exact pure

omit h in
theorem chain {operand : Parser Expr} (h : Plain operand) (level : Nat) :
    Plain (Parser.chain level operand) := by
  refine bind h fun _ =>
    bind (collect (fun _ => branch (fun _ => rfl) (fun t q hq => ?_) pure) 0) fun _ => pure
  unfold chainForms at hq
  split at hq
  · split at hq
    · cases hq
      exact bind h fun _ => pure
    · cases hq
  · cases hq

theorem infixed : Plain (Parser.infixed self) := by
  unfold Parser.infixed
  induction List.range 6 with
  | nil => exact unary h
  | cons level levels ih => exact chain ih level

theorem assignment : Plain (Parser.assignment self) := by
  refine bind (infixed h) fun left => onKind (by simp) (fun eq => bind h fun value => ?_) pure
  unfold Parser.assignTo
  split
  · exact pure
  · exact pure
  · exact bind (report rfl) fun _ => pure

end

/-- Expressions have no blocks, as functions are declared by statements alone. -/
theorem expression : Plain Parser.expression :=
  fix (fun _ hself _ => assignment (hself ())) ()

/-- An expression that has to fill the input. -/
theorem completeExpression : Plain Parser.completeExpression := by
  refine bind expression fun _ => bind check fun b => ?_
  cases b with
  | true => exact pure
  | false => exact fail (fun _ _ => rfl) fun _ _ => rfl

/-! ### Statements without blocks -/

/-- A statement without a block inside. -/
theorem varDecl : Plain Parser.varDecl :=
  bind ident fun _ => bind (behind expression (by simp)) fun _ => bind mark fun _ => pure

theorem forInitializer : Plain Parser.forInitializer := by
  refine onKind (by simp) (fun _ => pure)
    (bind (onKind (by simp) (fun _ => varDecl) ?_) fun _ => pure)
  exact bind expression fun _ => bind mark fun _ => pure

theorem returnValue : Plain Parser.returnValue := by
  refine bind peek fun t => ?_
  split
  · exact bind expression fun _ => pure
  · exact pure

end Plain

/-! ## Blocks -/

/-- Skipping only drops tokens. -/
theorem skipToBoundary_suffix_self (ts : List Token) : skipToBoundary ts <:+ ts :=
  (Alike.skipToBoundary_suffix ts).trans (List.tail_suffix ts)

/-- Reading a declaration makes one attempt. -/
theorem exists_attempt (h : Recounts true n [] (stmt .declaration) Stmt.blocks) (cx : Context)
    (hts : ts.length < n) :
    ∃ (a : Attempt) (s : State), recovering (stmt .declaration) cx ts = .ok a.statement? s ∧
      a.start = ts ∧ a.stop = s.ahead ∧ s.Told cx ts a.all := by
  obtain ⟨blocks, -, hr⟩ := h cx ts hts
  unfold recovering
  cases hp : stmt .declaration cx ts with
  | ok statement s =>
    rw [hp] at hr
    cases hr with
    | ok hs hB =>
      have hkept := Attempt.Happens.kept hp hs.complete (fun b hb => (hs.happened b hb).2) hB
      refine ⟨.kept ts statement s.ahead blocks, s, rfl, rfl, rfl, hs.ahead, ?_, ?_⟩
      · rw [Attempt.all]
        exact List.forall_mem_append.mpr
          ⟨hs.happened,
            List.forall_mem_singleton.mpr ⟨hkept, List.suffix_refl ts, List.suffix_refl s.ahead⟩⟩
      · rw [hs.fatal, Attempt.all]
        simp [Attempt.notes]
  | fail e s =>
    rw [hp] at hr
    cases hr with
    | fail hs he =>
      have hskip := skipToBoundary_suffix_self s.ahead
      have habandoned := Attempt.Happens.abandoned hp hs.complete fun b hb => (hs.happened b hb).2
      refine ⟨.abandoned ts e s.ahead (skipToBoundary s.ahead) blocks, _, rfl, rfl, rfl,
        hskip.trans hs.ahead, ?_, ?_⟩
      · rw [Attempt.all]
        refine List.forall_mem_append.mpr ⟨fun b hb => ⟨(hs.happened b hb).1, ?_⟩,
          List.forall_mem_singleton.mpr ⟨habandoned, List.suffix_refl ts, List.suffix_refl _⟩⟩
        exact (hs.happened b hb).2.widen (List.suffix_refl ts) hskip
      · rw [Attempt.all, List.filter_append, List.flatMap_append, hs.fatal]
        simp [Note.isFatal, he.fatal, Attempt.notes]

/-- One round of reading declarations. -/
def round (atEnd : Parser Bool) : Parser (Item (Option Stmt)) := do
  if ← atEnd then
    return .none
  else
    return .more (← recovering (stmt .declaration))

/-- A round that is not the last one reads one declaration. -/
theorem round_of_found {atEnd : Parser Bool} (hb : atEnd cx ts = .ok false { ahead := ts })
    (h : recovering (stmt .declaration) cx ts = .ok found s) :
    round atEnd cx ts = .ok (.more found) s := by
  have hmore : (do return Item.more (← recovering (stmt .declaration)) : Parser _) cx ts =
      .ok (.more found) s := by
    rw [bind_of_ok h]
    simp [Reply.after, Pure.pure]
  rw [round, bind_of_ok hb]
  exact congrArg (Reply.after []) hmore

/-- What tells that there are no further declarations: a closing brace or the end of the input. -/
def EndsBlock (atEnd : Parser Bool) : Prop :=
  ∀ cx ts, ∃ b, atEnd cx ts = .ok b { ahead := ts } ∧ (b = false → ts ≠ []) ∧
    (b = true → (cx.next ts).kind ∈ [.punct .rbrace, .eof])

/-- A block ends at its brace or at the end of the input. -/
theorem endsBlock_ends : EndsBlock (ends .rbrace) := by
  refine fun cx ts => ⟨_, rfl, fun hb => (ends_eq_false (by rw [ends, hb])).2, fun hb => ?_⟩
  rcases Bool.or_eq_true_iff.mp hb with hclose | hnil
  · exact List.mem_cons.mpr (.inl (eq_of_beq hclose))
  · rw [List.isEmpty_iff.mp hnil]
    exact List.mem_of_getLast? rfl

/-- The program ends where the input does. -/
theorem endsBlock_check_eof : EndsBlock (check .eof) := by
  refine fun cx ts => ⟨_, rfl, fun hb => (check_eof_eq_false (by rw [check, hb])).2, fun hb => ?_⟩
  rw [eq_of_beq hb]
  exact List.mem_of_getLast? rfl

/-- Reading declarations one after the other makes a chain of attempts. -/
theorem exists_chain (h : Recounts true n [] (stmt .declaration) Stmt.blocks) {atEnd : Parser Bool}
    (hend : EndsBlock atEnd) (k : Nat) (cx : Context) (hts : ts.length < n) :
    ∃ block found s, collect (fun _ => round atEnd) k cx ts = .ok found s ∧
      found.filterMap id = Attempt.statements block ∧ Attempt.Chain ts block s.ahead ∧
      (cx.next s.ahead).kind ∈ [.punct .rbrace, .eof] ∧ s.Told cx ts (Attempt.allOf block) := by
  induction hm : ts.length using Nat.strongRecOn generalizing ts k with
  | ind m ih =>
    obtain ⟨b, hb, hmore, hstop⟩ := hend cx ts
    rw [collect]
    cases b with
    | true =>
      rw [show round atEnd cx ts = .ok .none { ahead := ts } from bind_of_ok hb]
      exact ⟨[], [], _, rfl, rfl, .nil, hstop rfl, .quiet (List.suffix_refl ts)⟩
    | false =>
      obtain ⟨a, s, ha, rfl, hahead, htold⟩ := exists_attempt h cx hts
      obtain ⟨_, _, ha', -, hlt⟩ := recovering_advances (takes_stmt .declaration) cx (hmore rfl)
      obtain ⟨-, rfl⟩ := Reply.ok.inj (ha.symm.trans ha')
      obtain ⟨block, found, t, ht, hfound, hchain, hkind, hblock⟩ :=
        ih _ (hm ▸ hlt) (k + 1) (Nat.lt_trans hlt hts) rfl
      rw [round_of_found hb ha]
      dsimp only
      rw [if_pos hlt, ht]
      refine ⟨a :: block, a.statement? :: found, _, rfl, ?_, .cons (hahead ▸ hchain), hkind, ?_⟩
      · rw [Attempt.statements, List.filterMap_cons, List.filterMap_cons,
          ← Attempt.statements, hfound]
        rfl
      · rw [Attempt.allOf]
        exact htold.append hblock

namespace Recounts

variable (h : ∀ l before, Recounts true n before (stmt l) fun s => before ++ s.blocks)
include h

/-- A block adds itself, with the statements it was read as. -/
theorem blockBody : Recounts true n before (Parser.blockBody stmt) fun ss => before ++ [ss] := by
  have hitems : Recounts true n before (itemsUntil .rbrace (recovering (stmt .declaration)))
      fun found => before ++ [found.filterMap id] := by
    intro cx ts hts
    obtain ⟨block, found, s, hs, hfound, hchain, hkind, htold⟩ :=
      exists_chain (h .declaration []) endsBlock_ends 0 cx hts
    have hall : Attempt.allOfBlocks [block] = Attempt.allOf block := List.append_nil _
    refine ⟨[block], by simp, ?_⟩
    rw [show itemsUntil .rbrace (recovering (stmt .declaration)) cx ts = .ok found s from hs]
    exact .ok ⟨hall ▸ htold, List.forall_mem_singleton.mpr ⟨ts, s.ahead, hchain, hkind⟩⟩
      (by rw [hfound]; rfl)
  exact hitems.bind fun _ => (of_plain .mark).bind fun _ => .pure rfl

/-- The body is the only block of a function. -/
theorem function (context : String) :
    Recounts true n before (Parser.function stmt context) fun d => before ++ [d.body] := by
  refine (of_plain .ident).bind fun _ => (of_plain .mark).bind fun _ => ?_
  refine (of_plain (.unlessAt (.commaList .ident 0))).bind fun _ => ?_
  exact (of_plain .mark).bind fun _ => (of_plain .mark).bind fun _ =>
    (blockBody h).bind fun _ => .pure rfl

/-- The bodies of the methods, in their order. -/
theorem classDecl : Recounts true n before (Parser.classDecl stmt) fun s => before ++ s.blocks := by
  refine (of_plain .ident).bind fun _ => (of_plain (.behind .ident (by simp))).bind fun _ => ?_
  refine (of_plain .mark).bind fun _ =>
    .bind (.collect (B := fun d => [d.body]) (fun _ before => ?_) 0) fun methods =>
    (of_plain .mark).bind fun _ => .pure (by simp [Stmt.blocks, List.map_eq_flatMap])
  refine (of_plain .ends).bind fun b => ?_
  cases b with
  | true => exact .pure (List.append_nil before).symm
  | false => exact (function h "method name").bind fun _ => .pure rfl

theorem forLoop (span : Span) :
    Recounts true n before (Parser.forLoop stmt span) fun s => before ++ s.blocks := by
  refine (of_plain .mark).bind fun _ => (of_plain .forInitializer).bind fun _ => ?_
  refine (of_plain (.unlessAt .expression)).bind fun _ => (of_plain .mark).bind fun _ => ?_
  refine (of_plain (.unlessAt .expression)).bind fun _ => (of_plain .mark).bind fun _ => ?_
  exact (h .statement before).bind fun _ => .pure rfl

/-- One case for each keyword that a statement starts with. -/
theorem statement :
    Recounts true (n + 1) before (Parser.statement stmt) fun s => before ++ s.blocks := by
  have hnone : before = before ++ [] := (List.append_nil before).symm
  refine branch (fun _ => rfl) (fun t q hq => ?_) ?_
  · obtain ⟨kind, span⟩ := t
    cases kind with
    | punct m =>
      cases m with
      | lbrace => cases hq; exact (blockBody h).bind fun _ => .pure rfl
      | _ => cases hq
    | keyword word =>
      cases word with
      | print =>
        cases hq
        exact (of_plain .expression).bind fun _ =>
          (of_plain (.eat (by simp))).bind fun _ => .pure hnone
      | return_ =>
        cases hq
        exact (of_plain .returnValue).bind fun _ =>
          (of_plain (.eat (by simp))).bind fun _ => .pure hnone
      | while_ =>
        cases hq; exact (of_plain .expression).bind fun _ =>
          (h .statement before).bind fun _ => .pure rfl
      | loop => cases hq; exact (of_plain .mark).bind fun _ => (blockBody h).bind fun _ => .pure rfl
      | for_ => cases hq; exact forLoop h span
      | _ => cases hq
    | _ => cases hq
  · exact (of_plain .expression).bind fun _ => (of_plain (.eat (by simp))).bind fun _ => .pure hnone

/-- Functions and classes, and the statements. -/
theorem declaration :
    Recounts true (n + 1) before (Parser.declaration stmt) fun s => before ++ s.blocks := by
  refine branch (fun _ => rfl) (fun t q hq => ?_) (statement h)
  obtain ⟨kind, span⟩ := t
  cases kind with
  | keyword word =>
    cases word with
    | class_ => cases hq; exact classDecl h
    | fn => cases hq; exact (function h "function name").bind fun _ => .pure rfl
    | var =>
      cases hq
      refine (of_plain .ident).bind fun _ =>
        (of_plain (.behind .expression (by simp))).bind fun _ => ?_
      exact (of_plain .mark).bind fun _ => .pure (List.append_nil before).symm
    | _ => cases hq
  | _ => cases hq

omit h in
/-- By induction on the number of tokens, as blocks are made of declarations again. -/
theorem stmt (l : Level) : Recounts true n before (Parser.stmt l) fun s => before ++ s.blocks := by
  induction n generalizing before l with
  | zero => exact fun _ _ hts => absurd hts (Nat.not_lt_zero _)
  | succ n ih =>
    rw [show Parser.stmt l = stmtStep Parser.stmt l from grammar_ends.statements.unfolds l]
    cases l with
    | declaration => exact declaration fun l _ => ih l
    | statement => exact statement fun l _ => ih l

end Recounts

/-! ## Programs -/

/-- The attempts at the declarations of a program, from its first token to the end of the input. -/
structure History (source : String) (tokens : List Token) (attempts : List Attempt) : Prop where
  chain : Attempt.Chain (body tokens) attempts []
  happened : ∀ a ∈ Attempt.allOf attempts, a.Happens (.ofTokens source tokens) ∧
    a.Within (body tokens) []
  statements : Attempt.statements attempts = (parse source tokens).program.statements
  fatal : (parse source tokens).notes.filter Note.isFatal =
    (Attempt.allOf attempts).flatMap (Attempt.notes (.ofTokens source tokens))

/-- Among the notes, the errors that stopped something stand with those of where reading went on. -/
theorem notes_errors (notes : List Note) :
    (notes.filterMap Note.error?).filter (!·.isRecoverable) = (notes.filter Note.isFatal).filterMap
      Note.error? := by
  induction notes with
  | nil => rfl
  | cons note notes ih =>
    cases note with
    | resumed span => exact ih
    | error e =>
      cases he : e.isRecoverable with
      | true => simpa [Note.error?, Note.isFatal, he] using ih
      | false => simpa [Note.error?, Note.isFatal, he] using ih

/-- The errors that stopped something are those of the declarations given up. -/
theorem History.errors (h : History source tokens attempts) :
    (parse source tokens).errors.filter (!·.isRecoverable) = (Attempt.allOf attempts).filterMap
      Attempt.error? := by
  rw [Parsed.errors, notes_errors, h.fatal, List.filterMap_flatMap,
    List.filterMap_eq_flatMap_toList]
  refine List.flatMap_congr fun a _ => ?_
  cases a with
  | kept | abandoned => rfl

/-- Every input has a history: the rounds of the program are those of a block that nothing closes.
-/
theorem exists_history (source : String) (tokens : List Token) :
    ∃ attempts, History source tokens attempts := by
  obtain ⟨program, s, hs, hnil⟩ := run_programBody source tokens
  obtain ⟨attempts, found, t, ht, hfound, hchain, -, htold⟩ :=
    exists_chain (Recounts.stmt .declaration) endsBlock_check_eof 0 (.ofTokens source tokens)
      (Nat.lt_succ_self (body tokens).length)
  have hrun : programBody.run source tokens =
      .ok ⟨found.filterMap id⟩ { t with notes := t.notes ++ [] } :=
    bind_of_ok ht
  obtain ⟨rfl, rfl⟩ := Reply.ok.inj (hs.symm.trans hrun)
  have hparse : parse source tokens = ⟨⟨found.filterMap id⟩, t.notes⟩ := by
    rw [parse, hs, List.append_nil]
  dsimp only at hnil
  refine ⟨attempts, hnil ▸ hchain, hnil ▸ htold.happened, ?_, ?_⟩
  · rw [hparse, hfound]
  · rw [hparse, htold.fatal]

end Parser

end TreeWalk
