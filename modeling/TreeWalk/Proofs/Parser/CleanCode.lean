import TreeWalk.Proofs.Parser.Local
import TreeWalk.Proofs.Parser.Progress
import TreeWalk.Scan

/-!
# Clean code and what comes after it

At the end of code that was read without errors the parser looks at the next token: an operator, an
argument list or a missing `;` could follow. Where the code ends with `;`, or a declaration starts
behind it, the token changes nothing. So errors behind clean code neither reach into it nor are
changed by it.
-/

namespace TreeWalk

namespace Parser

variable {first second : List Token}

theorem not_isEof {t : Token} (h : t.kind ≠ .eof) : (!t.isEof) = true := by
  rw [Token.isEof]
  cases hk : t.kind with
  | eof => exact absurd hk h
  | _ => rfl

theorem body_append (h : ∀ t ∈ first, t.kind ≠ .eof) (second : List Token) :
    body (first ++ second) = first ++ body second :=
  List.takeWhile_append_of_pos fun t ht => not_isEof (h t ht)

theorem body_eq_self (h : ∀ t ∈ first, t.kind ≠ .eof) : body first = first := by
  have happend := body_append h []
  rwa [List.append_nil, show body [] = [] from rfl, List.append_nil] at happend

/-- The input ends where its last part ends. -/
theorem ofTokens_append (source : String) (h : ∀ t ∈ first, t.kind ≠ .eof) (hne : second ≠ []) :
    Context.ofTokens source (first ++ second) = .ofTokens source second := by
  have hnone : first.find? Token.isEof = none :=
    List.find?_eq_none.mpr fun t ht => by simpa using not_isEof (h t ht)
  have hfinish : finishOf (first ++ second) = finishOf second := by
    rw [finishOf, finishOf, List.find?_append, hnone, Option.none_or,
      List.getLast?_append_of_ne_nil _ hne]
  rw [Context.ofTokens, hfinish]
  rfl

/-- A declaration that starts the tokens starts what is read of them. -/
theorem declares_of_head {T : Tail} (hafter : T.after = body second)
    (h : (second.head?.any fun t => t.kind.beginsDecl) = true) : T.Declares := by
  cases second with
  | nil => cases h
  | cons t ts =>
    have ht : t.kind.beginsDecl = true := h
    have hmark : t.kind ≠ .eof := by
      intro heof
      rw [heof] at ht
      cases ht
    have hbody : body (t :: ts) = t :: body ts :=
      List.takeWhile_cons_of_pos (p := fun t : Token => !t.isEof) (not_isEof hmark)
    rw [Tail.Declares, Tail.next, hafter, hbody]
    exact ht

theorem parse_of_run (h : programBody.run source tokens = .ok p s) :
    parse source tokens = ⟨p, s.notes⟩ := by
  rw [parse, h]

theorem parse_nil (source : String) : parse source [] = ⟨⟨[]⟩, []⟩ := by
  refine parse_of_run (s := ⟨[], []⟩) ?_
  change programBody (.ofTokens source []) [] = _
  rw [programBody_eq, collect]
  rfl

/-- Code that was read without errors was read to its end. -/
theorem quiet_of_errors_eq_nil (h : (parse source tokens).errors = []) :
    programBody.quiet (.ofTokens source tokens)
      (body tokens) = some ((parse source tokens).program, []) := by
  obtain ⟨p, s, hrun, hahead⟩ := run_programBody source tokens
  rw [parse_of_run hrun] at h ⊢
  exact quiet_eq_some_iff.mpr ⟨s, hrun, hahead, h⟩

end Parser

/-- Where tokens without an end mark are read without errors, whatever tokens follow are read as
they are alone, with just the errors they have alone, behind the statements of the first ones. It is
asked that the first ones end with `;`, or that a word for a declaration comes next. -/
theorem clean_code_is_immune (source : String) (first second : List Token)
    (hmarks : ∀ t ∈ first, t.kind ≠ .eof) (hclean : (parse source first).errors = [])
    (hapart : first.getLast?.map Token.kind = some (.punct .semicolon) ∨
      (second.head?.any fun t => t.kind.beginsDecl) = true) :
    (parse source (first ++ second)).program.statements =
        (parse source first).program.statements ++ (parse source second).program.statements ∧
      (parse source (first ++ second)).errors = (parse source second).errors := by
  by_cases hne : second = []
  · subst hne
    rw [List.append_nil, hclean, Parser.parse_nil]
    exact ⟨(List.append_nil _).symm, rfl⟩
  let T : Parser.Tail :=
    { left := .ofTokens source first
      right := .ofTokens source second
      after := Parser.body second }
  have hset : T.SetApart first := by
    rcases hapart with hlast | hhead
    · exact .inr (by rw [Parser.EndsClosed, List.getLast?_map, hlast])
    · exact .inl (Parser.declares_of_head rfl hhead)
  have hquiet := Parser.quiet_of_errors_eq_nil hclean
  rw [Parser.body_eq_self hmarks] at hquiet
  obtain ⟨notes, hnotes, happend⟩ := Parser.programBody_append (T := T) hquiet hset
  obtain ⟨p, s, hrun, -⟩ := Parser.run_programBody source second
  have hsecond : Parser.programBody T.right T.after = .ok p s := hrun
  have hboth : Parser.programBody.run source (first ++ second) =
      .ok ⟨(parse source first).program.statements ++ p.statements⟩
        { s with notes := notes ++ s.notes } := by
    change Parser.programBody (.ofTokens source (first ++ second))
      (Parser.body (first ++ second)) = _
    rw [Parser.ofTokens_append source hmarks hne, Parser.body_append hmarks, happend, hsecond]
    rfl
  rw [Parser.parse_of_run hboth, Parser.parse_of_run hrun]
  refine ⟨rfl, ?_⟩
  simp only [Parsed.errors, List.filterMap_append, hnotes, List.nil_append]

/-- Behind a call without its `;` comes a declaration without its name. -/
theorem call_before_broken_declaration_is_immune :
    let source := "g.h(1) var; print 2"
    let first := (scan .empty source).tokens.take 6
    let second := (scan .empty source).tokens.drop 6
    (∀ t ∈ first, t.kind ≠ .eof) ∧ (parse source first).errors = [] ∧
      (second.head?.any fun t => t.kind.beginsDecl) = true ∧
      (parse source second).errors.length = 1 ∧
      (parse source (first ++ second)).program.statements =
        (parse source first).program.statements ++ (parse source second).program.statements ∧
      (parse source (first ++ second)).errors = (parse source second).errors := by
  intro source first second
  have hall : (∀ t ∈ first, t.kind ≠ .eof) ∧ (parse source first).errors.isEmpty = true ∧
      (second.head?.any fun t => t.kind.beginsDecl) = true ∧
      (parse source second).errors.length = 1 := by
    decide +kernel
  obtain ⟨hmarks, hnone, hdeclares, hone⟩ := hall
  have hclean : (parse source first).errors = [] := List.isEmpty_iff.mp hnone
  exact ⟨hmarks, hclean, hdeclares, hone,
    clean_code_is_immune source first second hmarks hclean (.inr hdeclares)⟩

end TreeWalk
