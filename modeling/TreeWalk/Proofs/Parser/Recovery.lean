import Mathlib.Order.Bounds.Basic
import TreeWalk.Proofs.Parser.History
import TreeWalk.Scan

/-!
# Recovery

What an error does to the declaration it is in. An error that does not stop the parser is just
noted, and with no other errors every declaration is there. Any other error costs one declaration,
in whichever block, and reading goes on at the first place behind the token at fault where a
declaration can start.
-/

namespace TreeWalk

namespace Parser

/-! ## Places where reading can go on -/

/-- The token at this index has the property. -/
def TokenAt (tokens : List Token) (p : Nat) (P : Token → Bool) : Prop :=
  (sealed tokens)[p]?.any P = true

instance : Decidable (TokenAt tokens p P) :=
  inferInstanceAs (Decidable (_ = _))

/-- A declaration can start at the index `q`, as seen from `p`: the input ends there, a word for a
declaration stands there, or a `;` since `p` stands in front of it. -/
def SyncPoint (tokens : List Token) (p q : Nat) : Prop :=
  p ≤ q ∧ (TokenAt tokens q Token.isEof ∨ TokenAt tokens q (·.kind.beginsDecl) ∨
    p < q ∧ TokenAt tokens (q - 1) (·.kind == .punct .semicolon))

instance : Decidable (SyncPoint tokens p q) :=
  inferInstanceAs (Decidable (_ ∧ _))

/-- An error at the index `p` makes reading go on at the index `q`. -/
structure ResumesAt (tokens : List Token) (e : ParseError) (p q : Nat) : Prop where
  /-- The error stands at the token at fault. -/
  fault : (sealed tokens)[p]?.map Token.span = some e.span
  /-- Reading goes on at the first place behind the token at fault, unless the input ends there. -/
  least : IsLeast {q | SyncPoint tokens p q ∧ (q = p → TokenAt tokens p Token.isEof)} q
  /-- An earlier place is passed over just where a declaration starts at the token at fault. -/
  first : IsLeast {q | SyncPoint tokens p q} q ↔ ¬TokenAt tokens p (·.kind.beginsDecl)

theorem tokenAt_position (h : ahead <:+ body tokens) (source : String) (P : Token → Bool) :
    TokenAt tokens (position tokens ahead) P ↔
      P ((Context.ofTokens source tokens).next ahead) = true := by
  rw [TokenAt, getElem?_position h source, Option.any_some]

theorem position_cons (h : t :: ahead <:+ body tokens) :
    position tokens ahead = position tokens (t :: ahead) + 1 := by
  have hlength := h.length_le
  rw [List.length_cons] at hlength
  simp only [position, List.length_cons]
  omega

theorem not_isEof_of_beginsDecl {t : Token} (h : t.kind.beginsDecl = true) : t.isEof = false := by
  obtain ⟨kind, span⟩ := t
  cases kind with
  | eof => cases h
  | _ => rfl

/-- The boundary is the first place to go on at behind the last token read. -/
theorem isLeast_toBoundary (h : last :: ts <:+ body tokens) :
    IsLeast
      {q | SyncPoint tokens (position tokens (last :: ts)) q ∧ position tokens (last :: ts) < q}
      (position tokens (toBoundary last ts)) := by
  induction ts generalizing last with
  | nil =>
    have hnext : TokenAt tokens (position tokens []) Token.isEof :=
      (tokenAt_position List.nil_suffix "" Token.isEof).mpr rfl
    rw [position_cons h] at hnext
    rw [toBoundary, position_cons h]
    exact ⟨⟨⟨Nat.le_succ _, .inl hnext⟩, Nat.lt_succ_self _⟩, fun q hq => hq.2⟩
  | cons t ts ih =>
    have hafter : t :: ts <:+ body tokens := (List.suffix_cons last _).trans h
    have hlast := tokenAt_position h "" (·.kind == .punct .semicolon)
    have hnext := tokenAt_position hafter ""
    rw [position_cons h] at hnext
    rw [toBoundary]
    split
    · next hstop =>
      rw [position_cons h]
      refine ⟨⟨⟨Nat.le_succ _, ?_⟩, Nat.lt_succ_self _⟩, fun q hq => hq.2⟩
      rcases Bool.or_eq_true_iff.mp hstop with hsemicolon | hbegins
      · exact .inr (.inr ⟨Nat.lt_succ_self _, hlast.mpr hsemicolon⟩)
      · exact .inr (.inl ((hnext _).mpr hbegins))
    · next hstop =>
      obtain ⟨⟨hpoint, hlt⟩, hleast⟩ := ih hafter
      rw [position_cons h] at hpoint hlt hleast
      obtain ⟨hsemicolon, hbegins⟩ := not_or.mp (mt Bool.or_eq_true_iff.mpr hstop)
      refine ⟨⟨⟨Nat.le_of_succ_le hpoint.1, ?_⟩, Nat.lt_of_succ_lt hlt⟩, fun q hq => ?_⟩
      · exact hpoint.2.imp_right (.imp_right fun hbehind => ⟨Nat.lt_of_succ_lt hlt, hbehind.2⟩)
      · obtain ⟨⟨-, hpoint⟩, hq⟩ := hq
        rcases Nat.eq_or_lt_of_le (Nat.succ_le_of_lt hq) with rfl | hq
        · -- the place right behind the last token read is no boundary
          rcases hpoint with heof | hbegin | ⟨-, hbehind⟩
          · have hmark := (hnext _).mp heof
            rw [show Context.next _ (t :: ts) = t from rfl,
              mem_body (hafter.subset List.mem_cons_self)] at hmark
            cases hmark
          · exact absurd ((hnext _).mp hbegin) hbegins
          · exact absurd (hlast.mp hbehind) hsemicolon
        · exact hleast ⟨⟨Nat.le_of_lt hq,
            hpoint.imp_right (.imp_right fun hbehind => ⟨hq, hbehind.2⟩)⟩, hq⟩

theorem isLeast_skipToBoundary (h : fault <:+ body tokens) :
    IsLeast {q | SyncPoint tokens (position tokens fault) q ∧
      (q = position tokens fault → TokenAt tokens (position tokens fault) Token.isEof)}
      (position tokens (skipToBoundary fault)) := by
  cases fault with
  | nil =>
    have hmark := (tokenAt_position h "" Token.isEof).mpr rfl
    exact ⟨⟨⟨Nat.le_refl _, .inl hmark⟩, fun _ => hmark⟩, fun q hq => hq.1.1⟩
  | cons t ts =>
    obtain ⟨⟨hpoint, hlt⟩, hleast⟩ := isLeast_toBoundary h
    refine ⟨⟨hpoint, fun heq => absurd heq (Nat.ne_of_gt hlt)⟩, fun q hq => hleast ⟨hq.1, ?_⟩⟩
    refine Nat.lt_of_le_of_ne hq.1.1 fun heq => ?_
    have hmark := (tokenAt_position h "" Token.isEof).mp (hq.2 heq.symm)
    rw [show Context.next _ (t :: ts) = t from rfl, mem_body (h.subset List.mem_cons_self)] at hmark
    cases hmark

/-- An error that a statement is given up for stops the parser, and stands at the token at fault. -/
theorem stops_of_fail (h : stmt l cx ts = .fail e s) : Stops cx s.ahead e := by
  have hstmt : Recounts true (ts.length + 1) [] (stmt l) Stmt.blocks := .stmt l
  obtain ⟨blocks, -, hr⟩ := hstmt cx ts (Nat.lt_succ_self ts.length)
  rw [h] at hr
  cases hr with
  | fail _ he => exact he

theorem resumesAt_of_fail (h : stmt .declaration (.ofTokens source tokens) ts = .fail e s)
    (hts : ts <:+ body tokens) :
    ResumesAt tokens e (position tokens s.ahead) (position tokens (skipToBoundary s.ahead)) := by
  have hahead : s.ahead <:+ body tokens := ((takes_stmt .declaration).fail h).trans hts
  have hleast := isLeast_skipToBoundary hahead
  refine ⟨?_, hleast, ⟨fun hfirst hbegins => ?_, fun hbegins => ?_⟩⟩
  · rw [getElem?_position hahead source, Option.map_some, (stops_of_fail h).span]
  · have heq := Nat.le_antisymm (hfirst.2 ⟨Nat.le_refl _, .inr (.inl hbegins)⟩) hleast.1.1.1
    have hmark := (tokenAt_position hahead "" _).mp (hleast.1.2 heq)
    rw [not_isEof_of_beginsDecl ((tokenAt_position hahead "" _).mp hbegins)] at hmark
    cases hmark
  · refine ⟨hleast.1.1, fun q hq => hleast.2 ⟨hq, ?_⟩⟩
    rintro rfl
    rcases hq.2 with heof | hbegin | ⟨hlt, -⟩
    · exact heof
    · exact absurd hbegin hbegins
    · exact absurd hlt (Nat.lt_irrefl _)

/-- Every declaration given up, at the top or in a block, makes reading go on at the first place
behind its token at fault where a declaration can start. -/
theorem recovery_resumes_behind_fault (source : String) (tokens : List Token) :
    ∃ attempts, History source tokens attempts ∧
      ∀ start e fault stop blocks, .abandoned start e fault stop blocks ∈ Attempt.allOf attempts →
        ResumesAt tokens e (position tokens fault) (position tokens stop) := by
  obtain ⟨attempts, h⟩ := exists_history source tokens
  refine ⟨attempts, h, fun start e fault stop blocks hmem => ?_⟩
  obtain ⟨hhappens, hwithin⟩ := h.happened _ hmem
  cases hhappens with
  | abandoned hfail => exact resumesAt_of_fail hfail hwithin.1

/-- A `print` where a `;` should be is the token at fault, the fifth one. It could be read with what
comes behind it, but reading goes on at the end of the input, and nothing is left. -/
theorem print_at_fault_is_lost :
    let source := "var a = 1 print 2;"
    let tokens := (scan .empty source).tokens
    let place (p : Nat) := ((sealed tokens)[p]?.map Token.span).getD default
    (parse source tokens).notes =
        [.error (.unexpectedToken "`;` after variable declaration" "print" (place 4)),
          .resumed (place 7)] ∧
      SyncPoint tokens 4 4 ∧ ¬IsLeast {q | SyncPoint tokens 4 q} 7 ∧
      (parse source tokens).program.statements.length = 0 ∧
      (parse source (tokens.drop 4)).errors = [] ∧
      (parse source (tokens.drop 4)).program.statements.length = 1 := by
  intro source tokens place
  have hpoint : SyncPoint tokens 4 4 := by decide +kernel
  refine ⟨by decide +kernel, hpoint, fun hleast => ?_, by decide +kernel, by decide +kernel,
    by decide +kernel⟩
  exact absurd (hleast.2 hpoint) (by decide)

/-! ## Errors that stop nothing -/

/-- An expression is read without anything that stops the parser, or up to the first such error,
which is the answer. -/
theorem Plain.errors {p : Parser α} (h : Plain p) (cx : Context) (ts : List Token) :
    (∀ e s, p cx ts = .fail e s → e.isRecoverable = false) ∧
      ∀ e ∈ (p cx ts).state.errors, e.isRecoverable = true := by
  obtain ⟨blocks, hnone, hr⟩ := h (ts.length + 1) [] cx ts (Nat.lt_succ_self _)
  obtain rfl := hnone rfl
  have hquiet : ∀ s : State, s.Logged cx ts [] → ∀ e ∈ s.errors, e.isRecoverable = true := by
    intro s hs e he
    have hfatal : s.errors.filter (!·.isRecoverable) = [] := by
      rw [State.errors, notes_errors, hs.fatal]
      rfl
    simpa using List.filter_eq_nil_iff.mp hfatal e he
  generalize p cx ts = r at hr
  cases hr with
  | ok hs =>
    refine ⟨fun _ _ hfail => ?_, hquiet _ hs⟩
    cases hfail
  | fail hs he =>
    refine ⟨fun _ _ hfail => ?_, hquiet _ hs⟩
    cases hfail
    exact he.fatal

namespace Attempt

/-- The tokens between the start of an attempt and its end. -/
def tokens (a : Attempt) : List Token :=
  a.start.take (a.start.length - a.stop.length)

end Attempt

end Parser

end TreeWalk
