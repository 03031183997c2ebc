import TreeWalk.Proofs.CanonicalNames
import TreeWalk.Proofs.Parser.Respelled
import TreeWalk.Proofs.Printer.AtSigns

/-!
# Canonical text of any program

Canonical text shows an infinite number as `inf`, which is a name to a reader. So reading the text
may give another program, and yet that program has the same text. Only where a pattern is the
negative infinite number there is no program to read: then, and only then, the text has errors.
-/

namespace TreeWalk

open TreeWalk.Parser

/-! ## Tokens of a source -/

/-- The tokens that a scan with these names can give, infinite numbers among them. -/
def Interner.tokens (names : Interner) : Vocabulary where
  Has k := k.isUnsigned = true ∧ (k.isFinite = true → k.Readable names)
  eof h := h.2 rfl
  punct _ := ⟨rfl, fun _ => trivial⟩
  keyword _ := ⟨rfl, fun _ => trivial⟩
  unsigned _ h := TokenKind.isUnsigned_number.mp h.1

/-- The text that scanning a token of a canonical text enters into the table of names. -/
def TokenKind.entered? (names : Interner) : TokenKind → Option String
  | .ident s | .str s => some (names.nameOf s)
  | .number x => if x.isFinite then none else some "inf"
  | _ => none

theorem isName_inf : IsName "inf" where
  word := ⟨'i', ['n', 'f'], by simp, rfl, List.all_eq_true.mp rfl⟩
  not_lone := by decide
  not_reserved := by decide

theorem Number.sourceText_infinite {x : Number} (hsign : x.isNegative = false)
    (hnan : x.isNaN = false) (hfinite : x.isFinite = false) : x.sourceText = "inf" := by
  have hinfinite : x.isInfinite = true := by
    simp only [isFinite, isNaN, decide_eq_false_iff_not] at hfinite hnan
    simp only [isInfinite, beq_iff_eq]
    omega
  simp [sourceText, hnan, hinfinite, signed, hsign]

theorem Interner.exists_symbol {t : Interner} (h : (t.get? text).isSome = true)
    (hsize : t.size ≤ Symbol.bound) :
    ∃ s, t.get? text = some s ∧ t.nameOf s = text := by
  obtain ⟨s, hs⟩ := Option.isSome_iff_exists.mp h
  exact ⟨s, hs, nameOf_of_get? hs hsize⟩

namespace Respelling

/-- From one table of names to another. -/
def between (names t : Interner) : Respelling where
  sym s := (t.get? (names.nameOf s)).getD s
  infinity := (t.get? "inf").getD default

variable {names t : Interner} (hsize : t.size ≤ Symbol.bound)
include hsize

/-- In the other table a token of a source has a token of the same text. -/
theorem between_kind (hk : names.tokens.Has k)
    (hentered : ∀ text ∈ k.entered? names, (t.get? text).isSome = true) :
    ((between names t).kind k).Readable t ∧
      ((between names t).kind k).sourceText t = k.sourceText names ∧
      ((between names t).kind k).symbol?.map t.nameOf = k.entered? names := by
  cases k with
  | punct | keyword => exact ⟨trivial, rfl, rfl⟩
  | ident s =>
    obtain ⟨hname, -⟩ := hk.2 rfl
    obtain ⟨s', hs', htext⟩ := Interner.exists_symbol (hentered _ rfl) hsize
    have hsym : (between names t).kind (.ident s) = .ident s' := by simp [kind, between, hs']
    rw [hsym]
    refine ⟨?_, htext, congrArg some htext⟩
    rw [TokenKind.Readable, htext]
    exact ⟨hname, hs'⟩
  | str s =>
    obtain ⟨hquote, -⟩ := hk.2 rfl
    obtain ⟨s', hs', htext⟩ := Interner.exists_symbol (hentered _ rfl) hsize
    have hsym : (between names t).kind (.str s) = .str s' := by simp [kind, between, hs']
    rw [hsym]
    refine ⟨?_, ?_, congrArg some htext⟩
    · rw [TokenKind.Readable, htext]
      exact ⟨hquote, hs'⟩
    · rw [TokenKind.sourceText, htext, TokenKind.sourceText]
  | number x =>
    obtain ⟨hsign, hnan⟩ := TokenKind.isUnsigned_number.mp hk.1
    cases hfinite : x.isFinite with
    | true =>
      rw [kind_number _ hfinite, TokenKind.entered?, if_pos hfinite]
      exact ⟨⟨hsign, hfinite⟩, rfl, rfl⟩
    | false =>
      have hentry : (TokenKind.number x).entered? names = some "inf" := if_neg (by simp [hfinite])
      obtain ⟨s', hs', htext⟩ := Interner.exists_symbol (hentered _ hentry) hsize
      have hsym : (between names t).infinity = s' := by simp [between, hs']
      rw [kind_infinite _ hfinite, hentry, hsym]
      refine ⟨?_, ?_, congrArg some htext⟩
      · rw [TokenKind.Readable, htext]
        exact ⟨isName_inf, hs'⟩
      · rw [TokenKind.sourceText, htext, TokenKind.sourceText,
          Number.sourceText_infinite hsign hnan hfinite]
  | eof => exact absurd hk names.tokens.eof

/-- In the other table a layout has one of the same text. -/
theorem between_layout (l : Layout) (hl : ∀ k ∈ l.tokens, names.tokens.Has k)
    (hentered : ∀ text ∈ l.tokens.filterMap (TokenKind.entered? names),
        (t.get? text).isSome = true) :
    (∀ k ∈ l.tokens, ((between names t).kind k).Readable t) ∧
      Layout.text t (l.map (between names t).fragment) = l.text names ∧
      ((l.tokens.map (between names t).kind).filterMap TokenKind.symbol?).map t.nameOf =
        l.tokens.filterMap (TokenKind.entered? names) := by
  induction l with
  | nil => exact ⟨fun _ h => absurd h List.not_mem_nil, rfl, rfl⟩
  | cons f l ih =>
    cases f with
    | gap text =>
      obtain ⟨hreadable, htext, hnames⟩ := ih hl hentered
      refine ⟨hreadable, ?_, hnames⟩
      apply String.toList_inj.mp
      rw [List.map_cons, fragment, Layout.text_gap, Layout.text_gap, htext]
    | token k =>
      rw [Layout.tokens_token] at hl hentered ⊢
      obtain ⟨hk, hl⟩ := List.forall_mem_cons.mp hl
      have hrest : ∀ text ∈ (Layout.tokens l).filterMap (TokenKind.entered? names),
          (t.get? text).isSome = true := by
        intro text htext
        obtain ⟨k', hk', heq⟩ := List.mem_filterMap.mp htext
        exact hentered text (List.mem_filterMap.mpr ⟨k', List.mem_cons_of_mem _ hk', heq⟩)
      have hfirst : ∀ text ∈ k.entered? names, (t.get? text).isSome = true :=
        fun text htext => hentered text (List.mem_filterMap.mpr ⟨k, List.mem_cons_self, htext⟩)
      obtain ⟨hreadable, htext, hnames⟩ := ih hl hrest
      obtain ⟨hreadableFirst, htextFirst, hname⟩ := between_kind hsize hk hfirst
      refine ⟨List.forall_mem_cons.mpr ⟨hreadableFirst, hreadable⟩, ?_, ?_⟩
      · apply String.toList_inj.mp
        rw [List.map_cons, fragment_token, Layout.text_token, Layout.text_token, htext, htextFirst]
      · rw [List.map_cons, List.filterMap_cons, List.filterMap_cons, ← hname]
        cases ((between names t).kind k).symbol? with
        | none => exact hnames
        | some s => exact congrArg (List.cons (t.nameOf s)) hnames

end Respelling

theorem Interner.size_intern_le (t : Interner) (text : String) :
    (t.intern text).2.size ≤ t.size + 1 := by
  cases h : t.get? text with
  | some s =>
    rw [intern_of_get? h]
    exact Nat.le_succ _
  | none =>
    rw [toTable_intern_of_get? h]
    simp [Table.size]

theorem Interner.within_internAll (t : Interner) (texts : List String) :
    t.Within (t.internAll texts) := by
  induction texts generalizing t with
  | nil => exact .refl t
  | cons text texts ih => exact (within_intern t text).trans (ih _)

theorem Interner.isSome_get?_internAll (t : Interner) {texts : List String} (h : text ∈ texts) :
    ((t.internAll texts).get? text).isSome = true := by
  induction texts generalizing t with
  | nil => exact absurd h List.not_mem_nil
  | cons first texts ih =>
    rcases List.mem_cons.mp h with rfl | h
    · have hget := within_internAll _ texts (get?_intern t text)
      rw [internAll, List.foldl_cons]
      exact Option.isSome_iff_exists.mpr ⟨_, hget⟩
    · exact ih _ h

/-- Names and strings are in the table already. -/
theorem Interner.isSome_get?_of_entered {names : Interner} (hk : names.tokens.Has k)
    (h : k.entered? names = some text) : ((names.intern "inf").2.get? text).isSome = true := by
  cases k with
  | ident s | str s =>
    cases h
    exact Option.isSome_iff_exists.mpr ⟨s, get?_of_intern (hk.2 rfl).2 "inf"⟩
  | number x =>
    rw [TokenKind.entered?] at h
    split at h
    · cases h
    · cases h
      exact Option.isSome_iff_exists.mpr ⟨_, get?_intern names "inf"⟩
  | _ => cases h

/-- What the text of a layout enters into any table of names. -/
theorem entries_text {l : Layout} (hs : l.Spaced) (hl : ∀ k ∈ l.tokens, names.tokens.Has k)
    (hsize : names.size < Symbol.bound) :
    Scan.entries (l.text names) = l.tokens.filterMap (TokenKind.entered? names) := by
  -- The table with one more name is large enough for the text.
  have hle : (names.intern "inf").2.size ≤ Symbol.bound :=
    Nat.le_trans (names.size_intern_le "inf") hsize
  have hentered : ∀ text ∈ l.tokens.filterMap (TokenKind.entered? names),
      ((names.intern "inf").2.get? text).isSome = true := by
    intro text htext
    obtain ⟨k, hk, heq⟩ := List.mem_filterMap.mp htext
    exact Interner.isSome_get?_of_entered (hl k hk) heq
  obtain ⟨hreadable, htext, hnames⟩ := Respelling.between_layout hle l hl hentered
  obtain ⟨tokens, hscan, hkinds⟩ := scan_text (Respelling.spaced_map _ hs)
    (by rw [Respelling.tokens_map]; exact List.forall_mem_map.mpr hreadable)
  rw [htext] at hscan
  have hwords : Scan.words (names.intern "inf").2 (l.text names) = tokens :=
    List.append_cancel_right (congrArg Scan.tokens hscan)
  have hentries := Scan.entries_eq (names.intern "inf").2 (l.text names) (by rw [hscan]; exact hle)
  rw [hentries, hwords, hkinds, hscan, Respelling.tokens_map]
  exact hnames

/-! ## Reading canonical text -/

/-- The text of a layout is read without errors only if its words are. -/
theorem quiet_of_text {l : Layout} (hs : l.Spaced) (hr : ∀ k ∈ l.tokens, k.Readable names)
    (h : (readSource names (l.text names)).diagnostics = []) :
    ∃ p rest, programBody.quiet default (words l.tokens) = some (p, rest) := by
  obtain ⟨tokens, hscan, hkinds⟩ := scan_text hs hr
  have heof : ∀ t ∈ tokens, t.kind ≠ .eof :=
    fun t ht => (hr t.kind (hkinds ▸ List.mem_map_of_mem ht)).ne_eof
  have herrors := (SourceRead.diagnostics_eq_nil.mp h).2
  unfold readSource at herrors
  rw [hscan] at herrors
  obtain ⟨rest, hquiet⟩ := quiet_of_parse heof herrors
  exact ⟨_, rest, hkinds ▸ hquiet⟩

section

variable {names : Interner} {source : String}
  (hdiagnostics : (readSource names source).diagnostics = [])
  (hsize : (readSource names source).names.size ≤ Symbol.bound)
include hdiagnostics hsize

/-- A program is read from the words of its canonical text, infinite numbers among them. -/
theorem quiet_canonical (indent : String) :
    (∀ k ∈ (Layout.program indent (readSource names source).program).tokens,
      (readSource names source).names.tokens.Has k) ∧
    programBody.quiet default
      (words (Layout.program indent (readSource names source).program).tokens) =
      some ((readSource names source).program.bare, []) := by
  have hhas : ∀ k ∈ (Scan.words names source).map Token.kind,
      (readSource names source).names.tokens.Has k := by
    refine List.forall_mem_map.mpr fun t ht => ⟨Scan.ofLexemes_unsigned names _ t ht, ?_⟩
    exact Scan.readable_ofLexemes (Lexeme.formed_all .origin source.toList) hsize t ht
  have hquiet :=
    quiet_programBody_bare (.ofTokens source (scan names source).tokens) (Scan.words names source)
  rw [quiet_programBody_scan hdiagnostics] at hquiet
  obtain ⟨hown, hagain⟩ := quiet_programBody_words hhas hquiet
  rw [← Layout.tokens_program indent, Layout.program_bare] at hown hagain
  exact ⟨hown, hagain⟩

/-- In another spelling the words are read as the program in that spelling, if there is one. -/
theorem quiet_respelled (S : Respelling) (indent : String) :
    programBody.quiet default
        (words ((Layout.program indent (readSource names source).program).tokens.map S.kind)) =
      if (readSource names source).program.isSpellable then
        some (S.program (readSource names source).program.bare, [])
      else none := by
  obtain ⟨hhas, hquiet⟩ := quiet_canonical hdiagnostics hsize indent
  have hnamed : Named (Layout.program indent (readSource names source).program).tokens := by
    rw [Layout.tokens_program]
    exact .flatMap (named_stmts _)
  have hfit : Fit (Layout.program indent (readSource names source).program).tokens :=
    ⟨fun k hk => (hhas k hk).1, fun x w hw => absurd hw hnamed.not_number⟩
  obtain ⟨ks, hrest, -, hrespelled⟩ := Respells.programBody (S := S) _ hfit _ _ hquiet
  obtain rfl : ks = [] := List.map_eq_nil_iff.mp hrest.symm
  rw [Program.isSpellable_bare] at hrespelled
  exact hrespelled

/-- Reading with a table that has all names already. -/
theorem readSource_spelled {t : Interner} (hindent : Layout.Blank indent)
    (ht : t.size ≤ Symbol.bound)
    (hentered : ∀ text ∈ (Layout.program indent (readSource names source).program).tokens.filterMap
      (TokenKind.entered? (readSource names source).names), (t.get? text).isSome = true) :
    let r := readSource names source
    let again := readSource t (r.program.text r.names indent)
    (again.diagnostics = [] ↔ r.program.isSpellable = true) ∧
      (again.diagnostics = [] → again.names = t ∧
          again.program.text t indent = r.program.text r.names indent) := by
  intro r again
  let S := Respelling.between r.names t
  have hhas := (quiet_canonical hdiagnostics hsize indent).1
  have hquiet := quiet_respelled hdiagnostics hsize S indent
  obtain ⟨hreadable, htext, -⟩ :=
    Respelling.between_layout ht (Layout.program indent r.program) hhas hentered
  have hspaced := S.spaced_map (Layout.spaced_program hindent r.program)
  have hreads : ∀ k ∈ Layout.tokens ((Layout.program indent r.program).map S.fragment),
      k.Readable t := by
    rw [S.tokens_map]
    exact List.forall_mem_map.mpr hreadable
  rw [← S.tokens_map] at hquiet
  have hagain : again =
      readSource t (Layout.text t ((Layout.program indent r.program).map S.fragment)) :=
    congrArg (readSource t) htext.symm
  have hiff : again.diagnostics = [] ↔ r.program.isSpellable = true := by
    constructor
    · intro hnone
      rw [hagain] at hnone
      obtain ⟨p, rest, hsome⟩ := quiet_of_text hspaced hreads hnone
      rw [hquiet] at hsome
      exact (Option.ite_none_right_eq_some.mp hsome).1
    · intro hspellable
      rw [if_pos hspellable] at hquiet
      rw [hagain]
      exact (readSource_text hspaced hreads hquiet).1
  refine ⟨hiff, fun hnone => ?_⟩
  have hspellable := hiff.mp hnone
  rw [if_pos hspellable] at hquiet
  obtain ⟨-, hbare, hnames⟩ := readSource_text hspaced hreads hquiet
  rw [← hagain] at hbare hnames
  refine ⟨hnames, ?_⟩
  calc again.program.text t indent
    _ = Layout.text t (Layout.program indent (S.program r.program.bare)) := by
      rw [← hbare, Layout.program_bare, Program.text]
    _ = Layout.text t ((Layout.program indent r.program).map S.fragment) := by
      rw [S.layout_program indent (r.program.isSpellable_bare.trans hspellable),
        Layout.program_bare]
    _ = r.program.text r.names indent := htext

end

/-- Reading canonical text with any table gives the same text again, unless there are errors; and
there are none just if no pattern is the negative infinite number. The table of the first reading
must have room for one more name. -/
theorem canonical_text_is_stable (names table : Interner) (source indent : String)
    (hdiagnostics : (readSource names source).diagnostics = []) (hindent : Layout.Blank indent)
    (hsize : (readSource names source).names.size < Symbol.bound)
    (hagain : (readSource table ((readSource names source).program.text
      (readSource names source).names indent)).names.size ≤ Symbol.bound) :
    let r := readSource names source
    let again := readSource table (r.program.text r.names indent)
    (again.diagnostics = [] ↔ r.program.isSpellable = true) ∧
      (again.diagnostics = [] →
          again.program.text again.names indent = r.program.text r.names indent) := by
  intro r again
  have hhas := (quiet_canonical hdiagnostics (Nat.le_of_lt hsize) indent).1
  have hspaced := Layout.spaced_program hindent r.program
  -- Reading the text enters all names that its tokens need.
  have hentered :
    ∀ text ∈ (Layout.program indent r.program).tokens.filterMap (TokenKind.entered? r.names),
      (again.names.get? text).isSome = true := by
    intro text htext
    rw [← entries_text hspaced hhas hsize] at htext
    have hnames : again.names = table.internAll (Scan.entries (r.program.text r.names indent)) :=
      Scan.names_scan table _
    rw [hnames]
    exact Interner.isSome_get?_internAll table htext
  obtain ⟨hiff, hstable⟩ :=
    readSource_spelled hdiagnostics (Nat.le_of_lt hsize) hindent hagain hentered
  obtain ⟨hsame, hlinked⟩ := readSource_common table again.names (r.program.text r.names indent)
  have hsame : again.diagnostics = _ := hsame
  rw [hsame]
  refine ⟨hiff, fun hnone => ?_⟩
  obtain ⟨hnames, htext⟩ := hstable hnone
  rw [hnames] at hlinked
  have hprogram : (readSource again.names (r.program.text r.names indent)).program =
      again.program :=
    Program.Linked.eq (Stmt.Linked.monoAll Interner.common_same hlinked)
  rw [← hprogram]
  exact htext

/-- Here the numbers are infinite, and the text is that of a program with the name `inf` in their
places. -/
theorem infinite_numbers_are_stable :
    let huge := "1" ++ String.ofList (List.replicate 309 '0')
    let r := readSource .empty
      ("case -" ++ huge ++ " of \x7b n @ " ++ huge ++ " then n, [" ++ huge ++ "] then huge \x7d")
    let again := readSource .keywords (r.program.text r.names "  ")
    r.diagnostics = [] ∧ Layout.Blank "  " ∧ r.names.size < Symbol.bound ∧
      again.names.size ≤ Symbol.bound ∧ again.diagnostics = [] ∧
      again.program.text again.names "  " = r.program.text r.names "  " := by
  intro huge r again
  have hall : r.diagnostics.isEmpty = true ∧ r.names.size < Symbol.bound ∧
      again.names.size ≤ Symbol.bound ∧ r.program.isSpellable = true := by
    -- The digits are taken as a list, so that no text of that length is taken apart.
    simp only [again, r, huge, readSource, scan, String.toList_append, String.toList_ofList]
    decide +kernel
  obtain ⟨hnone, hsize, hagain, hspellable⟩ := hall
  have hdiagnostics : r.diagnostics = [] := List.isEmpty_iff.mp hnone
  have hindent : Layout.Blank "  " := by simp [Layout.Blank, Lexeme.isBlank]
  obtain ⟨hiff, hstable⟩ :=
    canonical_text_is_stable .empty .keywords _ "  " hdiagnostics hindent hsize hagain
  have hagain' : again.diagnostics = [] := hiff.mpr hspellable
  exact ⟨hdiagnostics, hindent, hsize, hagain, hagain', hstable hagain'⟩

/-- The pattern below is written `-inf`, and no pattern is read there. -/
theorem negative_infinity_is_not_read_as_pattern :
    let r := readSource .empty
      ("case 0 of \x7b -1" ++ String.ofList (List.replicate 309 '0') ++ " then 0 \x7d;")
    let again := readSource .keywords (r.program.text r.names Layout.defaultIndent)
    r.diagnostics.isEmpty = true ∧ again.diagnostics.isEmpty = false := by
  simp only [readSource, scan, String.toList_append, String.toList_ofList]
  decide +kernel

end TreeWalk
