import TreeWalk.Proofs.Parser.Fidelity
import TreeWalk.Proofs.Parser.Local
import TreeWalk.Proofs.Renaming
import TreeWalk.Proofs.Scan.Join

/-!
# Reading two texts with a line break between them

If two texts are read without errors, one with the names of the other, and are set apart from each
other, then the text made of both and a line break between them is read without errors, as the
statements of the first and then those of the second. These are the same as when the second text is
read alone, but for their places.
-/

namespace TreeWalk

/-! ## Names that have been entered -/

/-- The same names, all of them in `names`, and related places. -/
def Link.entered (names : Interner) (R : Span → Span → Prop) : Link where
  sym x y := x = y ∧ (names.resolve? x).isSome = true
  span := R

section

variable {R R' : Span → Span → Prop} {names names' : Interner}

theorem Link.entered_within (h : names.Extends names') (hR : ∀ a b, R a b → R' a b) :
    (Link.entered names R).Within (.entered names' R') where
  sym := fun ⟨heq, hx⟩ => ⟨heq, h.isSome hx⟩
  span := hR _ _

theorem Link.entered_oneToOne : (Link.entered names R).OneToOne := by
  rintro x y x' y' ⟨rfl, -⟩ ⟨rfl, -⟩
  exact .rfl

theorem TokenKind.Linked.entered_mono (h : names.Extends names')
    (hk : TokenKind.Linked (.entered names R) k k') :
    k.Linked (.entered names' R) k' := by
  cases hk with
  | ident hx => exact .ident ⟨hx.1, h.isSome hx.2⟩
  | str hx => exact .str ⟨hx.1, h.isSome hx.2⟩
  | punct => exact .punct
  | keyword => exact .keyword
  | number => exact .number
  | eof => exact .eof

theorem Lexeme.readWord_entered (names : Interner) (text : String) :
    (readWord names text).1.Linked (.entered (readWord names text).2 R)
    (readWord names text).1 := by
  by_cases hlone : (text == "_") = true
  · rw [readWord, if_pos hlone]
    exact .punct
  · cases hword : Keyword.ofText? text with
    | some word =>
      have hread : readWord names text = (.keyword word, names) := by
        simp only [readWord, if_neg hlone, hword]
      rw [hread]
      exact .keyword
    | none =>
      have hread : readWord names text = (.ident (names.intern text).1, (names.intern text).2) := by
        simp only [readWord, if_neg hlone, hword]
      rw [hread]
      exact .ident ⟨rfl, Interner.isSome_of_get? (Interner.get?_intern names text)⟩

theorem Lexeme.read_entered (names : Interner) (l : Lexeme) (h : (l.read names).1 = .token k) :
    k.Linked (.entered (l.read names).2 R) k := by
  obtain ⟨cls, text, p⟩ := l
  cases cls with
  | mark m => cases h; exact .punct
  | number => cases h; exact .number
  | string =>
    obtain rfl : .str _ = k := Reading.token.inj h
    exact .str ⟨rfl, Interner.isSome_of_get? (Interner.get?_intern names _)⟩
  | word =>
    obtain rfl : (readWord names (String.ofList text)).1 = k := Reading.token.inj h
    exact readWord_entered names _
  | _ => cases h

namespace Scan

theorem ofLexemes_extends (names : Interner) (ls : List Lexeme) :
    names.Extends (ofLexemes names ls).names :=
  ofLexemes_keeps Interner.Extends.refl Interner.Extends.trans Interner.extends_intern names ls

theorem ofLexemes_entered (names : Interner) (ls : List Lexeme) :
    ∀ t ∈ (ofLexemes names ls).tokens,
      t.kind.Linked (.entered (ofLexemes names ls).names R) t.kind := by
  induction ls generalizing names with
  | nil => exact fun _ h => absurd h List.not_mem_nil
  | cons l ls ih =>
    intro t ht
    obtain ⟨hnames, htokens⟩ := ofLexemes_cons names l ls
    rw [hnames]
    rcases htokens t ht with hread | hrest
    · exact (Lexeme.read_entered names l hread).entered_mono (ofLexemes_extends _ ls)
    · exact ih _ t hrest

/-- The tokens of a text without its end mark. -/
def words (names : Interner) (source : String) : List Token :=
  (ofLexemes names (Lexeme.all .origin source.toList)).tokens

theorem words_ne_eof (names : Interner) (source : String) :
    ∀ t ∈ words names source, t.kind ≠ .eof := by
  intro t ht heof
  have hnot := ofLexemes_not_eof names _ t ht
  rw [Token.isEof, heof] at hnot
  cases hnot

theorem takeWhile_scan (names : Interner) (source : String) :
    (scan names source).tokens.takeWhile (!·.isEof) = words names source :=
  takeWhile_endMark (words_ne_eof names source) source

end Scan

end

/-! ## The program of a text -/

namespace SourceRead

theorem diagnostics_eq_nil {r : SourceRead} :
    r.diagnostics = [] ↔ r.scan.errors = [] ∧ r.parsed.errors = [] := by
  simp [diagnostics]

/-- A place in the text: from the start of one of its tokens to the end of one. -/
def Place (r : SourceRead) (a : Span) : Prop :=
  ∃ t ∈ r.scan.tokens, ∃ u ∈ r.scan.tokens, a = .merge t.span u.span

theorem place_token {r : SourceRead} (h : t ∈ r.scan.tokens) : r.Place t.span :=
  ⟨t, h, t, h, rfl⟩

end SourceRead

namespace Parser

variable {names : Interner} {source : String}

theorem quiet_programBody_scan (h : (readSource names source).diagnostics = []) :
    programBody.quiet (.ofTokens source (scan names source).tokens) (Scan.words names source) =
      some ((readSource names source).program, []) := by
  obtain ⟨rest, hquiet⟩ := parse_eq_iff.mpr ⟨(SourceRead.diagnostics_eq_nil.mp h).2, rfl⟩
  change programBody.quiet (.ofTokens source (scan names source).tokens)
    ((scan names source).tokens.takeWhile _) = _
    at hquiet
  rw [Scan.takeWhile_scan] at hquiet
  obtain rfl :=
    programBody_reads_all (Scan.ofLexemes_unsigned names _) (Scan.words_ne_eof names source) hquiet
  exact hquiet

/-- Reading a text where it is and reading its tokens at other places. -/
def Pairing.moved (names : Interner) (source : String) (f : Span → Span)
    (hf : ∀ a b, f (a.merge b) = (f a).merge (f b)) (cx : Context)
    (hfinish : cx.finish = f (Scan.endMark source).span) : Pairing where
  toLink := .entered (readSource names source).names fun a b =>
    (readSource names source).Place a ∧ b = f a
  left := .ofTokens source (scan names source).tokens
  right := cx
  error _ _ := True
  finish := by
    change (readSource names source).Place (finishOf _) ∧ cx.finish = f (finishOf _)
    rw [finishOf_scan, hfinish]
    exact ⟨SourceRead.place_token (List.mem_append_right _ (List.mem_singleton_self _)), rfl⟩
  merge := by
    rintro a b c d ⟨⟨t, ht, _, _, rfl⟩, rfl⟩ ⟨⟨_, _, u, hu, rfl⟩, rfl⟩
    exact ⟨⟨t, ht, u, hu, rfl⟩, (hf _ _).symm⟩
  errors _ _ := trivial

theorem words_moved (names : Interner) (source : String) (f : Span → Span) :
    List.Forall₂ (Token.Linked
        (.entered (readSource names source).names fun a b =>
          (readSource names source).Place a ∧ b = f a))
      (Scan.words names source) ((Scan.words names source).map (Token.move f)) := by
  rw [List.forall₂_map_right_iff, List.forall₂_same]
  intro t ht
  exact ⟨Scan.ofLexemes_entered names _ t ht,
    SourceRead.place_token (List.mem_append_left _ ht), rfl⟩

theorem words_entered (names : Interner) (source : String) :
    List.Forall₂ (Token.Linked
        (.entered (readSource names source).names fun a b =>
          (readSource names source).Place a ∧ b = a))
      (Scan.words names source) (Scan.words names source) := by
  have hmoved := words_moved names source id
  rwa [show Token.move id = id from rfl, List.map_id] at hmoved

/-- At other places the tokens of a text are read as the same program, with the places moved
alike. -/
theorem quiet_programBody_moved (h : (readSource names source).diagnostics = []) (f : Span → Span)
    (hf : ∀ a b, f (a.merge b) = (f a).merge (f b)) (cx : Context)
    (hfinish : cx.finish = f (Scan.endMark source).span) :
    ∃ p, programBody.quiet cx ((Scan.words names source).map (Token.move f)) = some (p, []) ∧
      (readSource names source).program.Linked
        (.entered (readSource names source).names fun a b => (readSource names source).Place a ∧
            b = f a) p := by
  let P := Pairing.moved names source f hf cx hfinish
  have hquiet :=
    (Alike.programBody (P := P)).quiet (Nat.lt_succ_self _) (words_moved names source f)
  change Option.Rel _ (programBody.quiet (.ofTokens source (scan names source).tokens) _)
    (programBody.quiet cx _)
    at hquiet
  rw [quiet_programBody_scan h] at hquiet
  generalize programBody.quiet cx _ = r at hquiet ⊢
  cases hquiet with
  | @some _ r hr =>
    obtain ⟨p, rest⟩ := r
    obtain ⟨hp, hrest, -⟩ := hr
    cases hrest
    exact ⟨p, rfl, hp⟩

/-- The program of a text has entered names only, and places of the text. -/
theorem program_entered (h : (readSource names source).diagnostics = []) :
    (readSource names source).program.Linked
      (.entered (readSource names source).names fun a b =>
        (readSource names source).Place a ∧ b = a)
      (readSource names source).program := by
  obtain ⟨p, hquiet, hp⟩ := quiet_programBody_moved h id (fun _ _ => rfl)
    (.ofTokens source (scan names source).tokens) (finishOf_scan names source)
  have hmove : Token.move id = id := rfl
  rw [hmove, List.map_id, quiet_programBody_scan h] at hquiet
  cases hquiet
  exact hp

/-- The expression of a text has entered names only, and places of the text. -/
theorem expr_entered (h : (readExpression names source).expr? = some e) :
    e.Linked (.entered (readExpression names source).names fun a b =>
        (readSource names source).Place a ∧ b = a) e := by
  let P :=
    Pairing.moved names source id (fun _ _ => rfl) (.ofTokens source (scan names source).tokens)
      (finishOf_scan names source)
  have hreply :=
    Alike.completeExpression (P := P) _ _ (Nat.lt_succ_self _) (words_entered names source)
  change Reply.Linked P
    _ _ _ (Parser.completeExpression (.ofTokens source (scan names source).tokens) _)
    (Parser.completeExpression (.ofTokens source (scan names source).tokens) _) at hreply
  have hrun : (readExpression names source).reply =
      Parser.completeExpression (.ofTokens source (scan names source).tokens)
        (Scan.words names source) := by
    rw [← Scan.takeWhile_scan]
    rfl
  rw [← hrun] at hreply
  unfold ExprRead.expr? at h
  cases hend : (readExpression names source).reply with
  | fail e s => rw [hend] at h; cases h
  | ok e' s =>
    rw [hend] at h hreply
    dsimp only at h
    split at h
    · cases h
      cases hreply with
      | ok he _ _ => exact he
    · cases h

end Parser

/-! ## Both texts -/

/-- The place of `a` where its text stands behind another one and a line break. -/
def Span.behind (text : String) (a : Span) : Span :=
  a.shift (Text.byteLength text.toList + 1) (text.toList.count '\n' + 1)

/-- Nothing of `r'` can belong to the last statement of `r`: this ends with `;`, or `r'` starts with
a declaration. -/
def SourceRead.ApartFrom (r r' : SourceRead) : Prop :=
  (r.scan.tokens.takeWhile (!·.isEof)).getLast?.map Token.kind = some (.punct .semicolon) ∨
    (r'.scan.tokens.head?.any fun t => t.kind.beginsDecl) = true

section

variable {names : Interner} {first second : String}

theorem toList_lines (first second : String) :
    (first ++ "\n" ++ second).toList = first.toList ++ '\n' :: second.toList := by
  simp

theorem scan_lines (h : (scan names first).errors = []) (second : String) :
    Scan.words names (first ++ "\n" ++ second) = Scan.words names first ++
        (Scan.words (scan names first).names second).map (Token.move (.behind first)) ∧
      (scan names (first ++ "\n" ++ second)).names = (scan (scan names first).names second).names ∧
      ((scan names (first ++ "\n" ++ second)).errors = [] ↔
          (scan (scan names first).names second).errors = []) := by
  have hjoin := Scan.ofLexemes_join names .origin first.toList second.toList h
  rw [Position.after_line, Lexeme.all_shift, ← toList_lines] at hjoin
  obtain ⟨htokens, hnames, herrors⟩ := Scan.ofLexemes_shift (Text.byteLength first.toList + 1)
    (first.toList.count '\n' + 1) (Scan.ofLexemes names (Lexeme.all .origin first.toList)).names
    (Lexeme.all .origin second.toList)
  refine ⟨?_, ?_, ?_⟩
  · rw [Scan.words, hjoin]
    exact congrArg (_ ++ ·) htokens
  · change (Scan.ofLexemes _ _).names = _
    rw [hjoin]
    exact hnames
  · change (Scan.ofLexemes _ _).errors = [] ↔ _
    rw [hjoin]
    exact herrors

theorem endMark_lines (first second : String) :
    (Scan.endMark (first ++ "\n" ++ second)).span = (Scan.endMark second).span.behind first := by
  have hplace : Position.origin.after (first ++ "\n" ++ second).toList =
      (Position.origin.after second.toList).shift (Text.byteLength first.toList + 1)
        (first.toList.count '\n' + 1) := by
    rw [toList_lines, show first.toList ++ '\n' :: second.toList = (first.toList ++ ['\n']) ++
      second.toList by simp, Position.after_append, Position.after_line, Position.after_shift]
  rw [Scan.endMark, hplace]
  rfl

theorem readSource_lines (hfirst : (readSource names first).diagnostics = [])
    (hsecond : (readSource (readSource names first).names second).diagnostics = [])
    (hapart : (readSource names first).ApartFrom
        (readSource (readSource names first).names second)) :
    (readSource names (first ++ "\n" ++ second)).diagnostics = [] ∧
      (readSource names (first ++ "\n" ++ second)).names =
        (readSource (readSource names first).names second).names ∧
      ∃ p, (readSource names (first ++ "\n" ++ second)).program.statements =
          (readSource names first).program.statements ++ p.statements ∧
        (readSource (readSource names first).names second).program.Linked
          (.entered (readSource (readSource names first).names second).names fun a b =>
            (readSource (readSource names first).names second).Place a ∧ b = a.behind first) p := by
  obtain ⟨hscan, -⟩ := SourceRead.diagnostics_eq_nil.mp hfirst
  obtain ⟨hwords, hnames, herrors⟩ := scan_lines hscan second
  let T : Parser.Tail :=
    { left := .ofTokens first (scan names first).tokens
      right := .ofTokens (first ++ "\n" ++ second) (scan names (first ++ "\n" ++ second)).tokens
      after := (Scan.words (scan names first).names second).map (Token.move (.behind first)) }
  have hfinish : T.right.finish = (Scan.endMark second).span.behind first :=
    (finishOf_scan names _).trans (endMark_lines first second)
  obtain ⟨p, hafter, hlinked⟩ :=
    Parser.quiet_programBody_moved hsecond (.behind first) (fun _ _ => rfl) T.right hfinish
  have hset : T.SetApart (Scan.words names first) := by
    rcases hapart with hlast | hhead
    · change ((scan names first).tokens.takeWhile _).getLast?.map _ = _ at hlast
      rw [Scan.takeWhile_scan, ← List.getLast?_map] at hlast
      exact .inr hlast
    · refine .inl ?_
      change ((Scan.words (scan names first).names second ++ [Scan.endMark second]).head?.any _) =
        true at hhead
      change (T.right.next ((Scan.words (scan names first).names second).map _)).kind.beginsDecl =
        true
      cases hsecondWords : Scan.words (scan names first).names second with
      | nil => rw [hsecondWords] at hhead; cases hhead
      | cons t ts =>
        rw [hsecondWords] at hhead
        exact hhead
  have hwhole :=
    Parser.quiet_programBody_append (T := T) (Parser.quiet_programBody_scan hfirst) hafter hset
  change Parser.programBody.quiet T.right
    (_ ++ (Scan.words (scan names first).names second).map _) = _ at hwhole
  rw [← hwords, ← Scan.takeWhile_scan] at hwhole
  obtain ⟨hparsed, hprogram⟩ := parse_eq_iff.mp ⟨[], hwhole⟩
  refine ⟨SourceRead.diagnostics_eq_nil.mpr ⟨?_, hparsed⟩, hnames, p,
    congrArg Program.statements hprogram, hlinked⟩
  exact herrors.mpr (SourceRead.diagnostics_eq_nil.mp hsecond).1

end

end TreeWalk
