import Mathlib.Data.List.Induction
import Mathlib.Data.List.TakeWhile
import TreeWalk.Proofs.Parser.Edits
import TreeWalk.Proofs.Scan.ReadBack

/-!
# Scanning two texts with a line break between them

No lexeme but a string without its closing quote goes on behind a line break, blanks apart, and
these count for nothing. So two texts with a line break between them are scanned as the first one
and then, with the names of the first, the second one; the tokens of the second stand as far behind
the start as the first text and the line break are long.
-/

namespace TreeWalk

namespace Lexeme

/-! ## Cuts in front of a line break -/

/-- A run of characters that stops in front of the line break is the same with or without what
follows. -/
theorem takeWhile_newline {p : Char → Bool} (cs more : List Char)
    (h : cs.dropWhile p ≠ [] ∨ p '\n' = false) :
    (cs ++ '\n' :: more).takeWhile p = cs.takeWhile p ∧
      (cs ++ '\n' :: more).dropWhile p = cs.dropWhile p ++ '\n' :: more := by
  induction cs with
  | nil =>
    obtain hne | hbreak := h
    · exact absurd rfl hne
    · simp [hbreak]
  | cons c cs ih =>
    by_cases hc : p c = true
    · rw [List.dropWhile_cons_of_pos hc] at h
      simp [hc, ih h]
    · simp [hc]

/-- The same cut where the text goes on with `more`. -/
def Cut.extend (found : Cut) (more : List Char) : Cut :=
  { found with rest := found.rest ++ more }

theorem cutNumber_of_point (h : cs.dropWhile isDigit = '.' :: d :: rest) (hd : isDigit d = true) :
    cutNumber c cs =
      ⟨.number, c :: cs.takeWhile isDigit ++ '.' :: d :: rest.takeWhile isDigit,
        rest.dropWhile isDigit⟩ := by
  rw [cutNumber, h]
  exact if_pos hd

theorem cutNumber_of_no_point
    (h : ∀ d rest, cs.dropWhile isDigit = '.' :: d :: rest → isDigit d = false) :
    cutNumber c cs = ⟨.number, c :: cs.takeWhile isDigit, cs.dropWhile isDigit⟩ := by
  unfold cutNumber
  split
  · next d rest hrest => rw [if_neg (by simp [h d rest hrest]), hrest]
  · rfl

theorem cutNumber_newline (c : Char) (cs more : List Char) :
    cutNumber c (cs ++ '\n' :: more) = (cutNumber c cs).extend ('\n' :: more) := by
  have hrun : ∀ cs, _ := fun cs => takeWhile_newline (p := isDigit) cs more (.inr rfl)
  obtain ⟨htake, hdrop⟩ := hrun cs
  by_cases hpoint : ∃ d rest, cs.dropWhile isDigit = '.' :: d :: rest ∧ isDigit d = true
  · obtain ⟨d, rest, hrest, hd⟩ := hpoint
    obtain ⟨htake', hdrop'⟩ := hrun rest
    rw [hrest] at hdrop
    rw [cutNumber_of_point hdrop hd, cutNumber_of_point hrest hd, htake]
    simp only [List.append_eq, htake', hdrop']
    rfl
  · have hnone : ∀ d rest, cs.dropWhile isDigit = '.' :: d :: rest → isDigit d = false :=
      fun d rest hrest => Bool.eq_false_iff.mpr fun hd => hpoint ⟨d, rest, hrest, hd⟩
    rw [cutNumber_of_no_point hnone, cutNumber_of_no_point, htake, hdrop]
    · rfl
    · intro d rest hrest
      rw [hdrop] at hrest
      cases hend : cs.dropWhile isDigit with
      | nil => rw [hend] at hrest; cases hrest
      | cons x xs =>
        rw [hend] at hrest
        cases xs with
        | nil => cases hrest; rfl
        | cons y ys => cases hrest; exact hnone d ys hend

theorem cutString_newline (h : (cutString c cs).cls ≠ .unclosed) (more : List Char) :
    cutString c (cs ++ '\n' :: more) = (cutString c cs).extend ('\n' :: more) := by
  have hquote : cs.dropWhile (· != '"') ≠ [] := by
    intro hnil
    rw [cutString, hnil] at h
    exact h rfl
  obtain ⟨htake, hdrop⟩ := takeWhile_newline cs more (.inl hquote)
  unfold cutString
  rw [htake, hdrop]
  cases hrest : cs.dropWhile (· != '"') with
  | nil => exact absurd hrest hquote
  | cons q rest => rfl

theorem cutMark_newline (c : Char) (cs more : List Char) :
    cutMark c (cs ++ '\n' :: more) = (cutMark c cs).extend ('\n' :: more) := by
  have hchar : ∀ cs, cutChar c (cs ++ '\n' :: more) = (cutChar c cs).extend ('\n' :: more) := by
    intro cs
    unfold cutChar
    split <;> rfl
  cases cs with
  | nil =>
    have hpair : Punct.ofPair? c '\n' = none := by
      unfold Punct.ofPair?
      split <;> first | rfl | simp_all
    have hcut : cutMark c ('\n' :: more) = cutChar c ('\n' :: more) := by simp only [cutMark, hpair]
    exact hcut.trans (hchar [])
  | cons d cs =>
    rw [List.cons_append, cutMark, cutMark]
    cases Punct.ofPair? c d with
    | some mark => rfl
    | none => exact hchar (d :: cs)

theorem cut_newline (hstring : (cut c cs).cls ≠ .unclosed)
    (hblank : isBlank c = true → cs.dropWhile isBlank ≠ []) (more : List Char) :
    cut c (cs ++ '\n' :: more) = (cut c cs).extend ('\n' :: more) := by
  have hcomment : (c == '/' && (cs ++ '\n' :: more).head? == some '/') =
      (c == '/' && cs.head? == some '/') := by
    cases cs <;> rfl
  unfold cut at hstring ⊢
  rw [hcomment]
  split
  · next hc =>
    obtain ⟨htake, hdrop⟩ := takeWhile_newline cs more (.inl (hblank hc))
    rw [cutWhile, htake, hdrop]
    rfl
  rw [if_neg ‹_›] at hstring
  split
  · obtain ⟨htake, hdrop⟩ := takeWhile_newline (p := (· != '\n')) cs more (.inr rfl)
    rw [cutWhile, htake, hdrop]
    rfl
  rw [if_neg ‹_›] at hstring
  split
  · next hc =>
    rw [if_pos hc] at hstring
    exact cutString_newline hstring more
  split
  · exact cutNumber_newline c cs more
  split
  · obtain ⟨htake, hdrop⟩ := takeWhile_newline (p := isWordPart) cs more (.inr rfl)
    rw [cutWhile, htake, hdrop]
    rfl
  · exact cutMark_newline c cs more

/-- Blanks go on where the text goes on with blanks. -/
theorem cut_blanks (hc : isBlank c = true) (hcs : ∀ c ∈ cs, isBlank c = true) (more : List Char) :
    cut c (cs ++ more) = ⟨.blank, c :: cs ++ more.takeWhile isBlank, more.dropWhile isBlank⟩ := by
  rw [cut, if_pos hc, cutWhile, List.takeWhile_append_of_pos hcs, List.dropWhile_append_of_pos hcs]
  rfl

end Lexeme

theorem Position.after_append (p : Position) (cs ds : List Char) :
    p.after (cs ++ ds) = (p.after cs).after ds :=
  List.foldl_append

namespace Scan

open Lexeme

/-- Blanks in front of a text only move it. -/
theorem ofLexemes_blanks {g : List Char} (hg : ∀ c ∈ g, isBlank c = true) (names : Interner)
    (p : Position) (cs : List Char) :
    ofLexemes names (all p (g ++ cs)) = ofLexemes names (all (p.after g) cs) := by
  have hrun : ∀ c g, isBlank c = true → (∀ c ∈ g, isBlank c = true) →
      ofLexemes names (all p (c :: g ++ cs)) =
        ofLexemes names (all (p.after (c :: g ++ cs.takeWhile isBlank))
          (cs.dropWhile isBlank)) := by
    intro c g hc hg
    rw [List.cons_append, all, cut_blanks hc hg]
    rfl
  have hskip : ∀ q, ofLexemes names (all q cs) =
      ofLexemes names (all (q.after (cs.takeWhile isBlank)) (cs.dropWhile isBlank)) := by
    intro q
    cases cs with
    | nil => rfl
    | cons c cs =>
      by_cases hc : isBlank c = true
      · rw [all, show cut c cs = cut c ([] ++ cs) from rfl,
          cut_blanks hc (fun _ h => absurd h List.not_mem_nil), List.takeWhile_cons_of_pos hc,
          List.dropWhile_cons_of_pos hc]
        rfl
      · rw [List.takeWhile_cons_of_neg hc, List.dropWhile_cons_of_neg hc]
        rfl
  cases g with
  | nil => rfl
  | cons c g =>
    obtain ⟨hc, hg⟩ := List.forall_mem_cons.mp hg
    rw [hrun c g hc hg, hskip (p.after (c :: g)), Position.after_append]

/-- The second text is scanned with the names of the first one, from the start of the next line. -/
theorem ofLexemes_join (names : Interner) (p : Position) (cs more : List Char)
    (h : (ofLexemes names (all p cs)).errors = []) :
    ofLexemes names (all p (cs ++ '\n' :: more)) =
      ⟨(ofLexemes names (all p cs)).tokens ++
          (ofLexemes (ofLexemes names (all p cs)).names (all (p.after (cs ++ ['\n'])) more)).tokens,
        (ofLexemes (ofLexemes names (all p cs)).names (all (p.after (cs ++ ['\n'])) more)).errors,
        (ofLexemes (ofLexemes names (all p cs)).names
            (all (p.after (cs ++ ['\n'])) more)).names⟩ := by
  induction p, cs using all.induct generalizing names with
  | case1 p =>
    rw [all]
    exact ofLexemes_blanks (g := ['\n']) (by simp [isBlank]) names p more
  | case2 p c cs found ih =>
    by_cases hblank : isBlank c = true ∧ cs.dropWhile isBlank = []
    · have hcs : ∀ d ∈ c :: cs, isBlank d = true :=
        List.forall_mem_cons.mpr ⟨hblank.1, List.dropWhile_eq_nil_iff.mp hblank.2⟩
      have hline : ∀ d ∈ c :: cs ++ ['\n'], isBlank d = true :=
        List.forall_mem_append.mpr ⟨hcs, by simp [isBlank]⟩
      have hown : ofLexemes names (all p (c :: cs)) = ⟨[], [], names⟩ := by
        have hrun := ofLexemes_blanks hcs names p []
        rw [List.append_nil] at hrun
        rw [hrun, all]
        rfl
      rw [hown, show c :: cs ++ '\n' :: more = (c :: cs ++ ['\n']) ++ more by simp,
        ofLexemes_blanks hline]
      rfl
    · have hplace : p.after (c :: cs ++ ['\n']) =
          (p.after found.text).after (found.rest ++ ['\n']) := by
        rw [← Position.after_append, ← List.append_assoc, cut_append]
      have hstring : found.cls ≠ .unclosed := by
        intro hcls
        rw [all, show cut c cs = found from rfl] at h
        simp [ofLexemes, Lexeme.read, hcls] at h
      have hjoined : all p (c :: cs ++ '\n' :: more) =
          ⟨found.cls, found.text, p⟩ :: all (p.after found.text) (found.rest ++ '\n' :: more) := by
        rw [List.cons_append, all, cut_newline hstring fun hc hnil => hblank ⟨hc, hnil⟩]
        rfl
      have hown : all p (c :: cs) = ⟨found.cls, found.text, p⟩ ::
          all (p.after found.text) found.rest := by
        rw [all]
      rw [hown] at h
      rw [hplace, hjoined, hown]
      simp only [ofLexemes] at h ⊢
      generalize Lexeme.read names ⟨found.cls, found.text, p⟩ = r at h ⊢
      obtain ⟨reading, names⟩ := r
      cases reading with
      | skip => exact ih names h
      | token kind => simp only [ih names h, List.cons_append]
      | error e => cases h

end Scan

/-! ## Texts that start elsewhere -/

/-- The place `bytes` and `lines` further on. -/
def Position.shift (bytes lines : Nat) (p : Position) : Position :=
  ⟨p.offset + bytes, p.line + lines, p.column⟩

def Span.shift (bytes lines : Nat) (s : Span) : Span :=
  ⟨s.start + bytes, s.stop + bytes, s.line + lines, s.column⟩

/-- The same token at another place. -/
def Token.move (f : Span → Span) (t : Token) : Token :=
  ⟨t.kind, f t.span⟩

def Lexeme.shift (bytes lines : Nat) (l : Lexeme) : Lexeme :=
  ⟨l.cls, l.text, l.start.shift bytes lines⟩

section

variable (bytes lines : Nat)

theorem Position.after_shift (p : Position) (cs : List Char) :
    (p.shift bytes lines).after cs = (p.after cs).shift bytes lines := by
  induction cs generalizing p with
  | nil => rfl
  | cons c cs ih =>
    have hstep : (p.shift bytes lines).advance c = (p.advance c).shift bytes lines := by
      unfold advance shift
      split <;> simp only [Position.mk.injEq, and_true] <;> omega
    change ((p.shift bytes lines).advance c).after cs = ((p.advance c).after cs).shift bytes lines
    rw [hstep, ih]

theorem Span.ofText_shift (p : Position) (cs : List Char) :
    ofText (p.shift bytes lines) cs = (ofText p cs).shift bytes lines := by
  simp only [ofText, Position.shift, shift, Span.mk.injEq, and_true, true_and]
  omega

theorem Lexeme.all_shift (p : Position) (cs : List Char) :
    all (p.shift bytes lines) cs = (all p cs).map (shift bytes lines) := by
  induction p, cs using all.induct with
  | case1 p => simp [all]
  | case2 p c cs found ih =>
    rw [all, all, Position.after_shift]
    exact congrArg _ ih

/-- Where a text starts shows in the places of its tokens only. -/
theorem Scan.ofLexemes_shift (names : Interner) (ls : List Lexeme) :
    (ofLexemes names (ls.map (Lexeme.shift bytes lines))).tokens =
        (ofLexemes names ls).tokens.map (Token.move (.shift bytes lines)) ∧
      (ofLexemes names (ls.map (Lexeme.shift bytes lines))).names = (ofLexemes names ls).names ∧
      ((ofLexemes names (ls.map (Lexeme.shift bytes lines))).errors = [] ↔
          (ofLexemes names ls).errors = []) := by
  induction ls generalizing names with
  | nil => exact ⟨rfl, rfl, .rfl⟩
  | cons l ls ih =>
    obtain ⟨cls, text, p⟩ := l
    have hspan : Lexeme.span ⟨cls, text, p.shift bytes lines⟩ =
        (Lexeme.span ⟨cls, text, p⟩).shift bytes lines :=
      Span.ofText_shift bytes lines p text
    have htoken : ∀ kind, (⟨kind, Lexeme.span ⟨cls, text, p.shift bytes lines⟩⟩ : Token) =
        Token.move (.shift bytes lines) ⟨kind, Lexeme.span ⟨cls, text, p⟩⟩ := fun kind => by
      rw [hspan]; rfl
    rw [List.map_cons]
    simp only [ofLexemes, Lexeme.shift, Lexeme.read]
    cases cls with
    | blank | comment => exact ih names
    | mark | word | number | string =>
      simp only [List.map_cons, htoken, List.cons.injEq, true_and]
      exact ih _
    | unclosed | stray => exact ⟨(ih names).1, (ih names).2.1, by simp⟩

end

theorem Text.byteLength_concat (cs : List Char) (c : Char) :
    byteLength (cs ++ [c]) = byteLength cs + c.utf8Size := by
  simp [byteLength, List.foldl_append]

theorem Position.after_eq (p : Position) (cs : List Char) :
    (p.after cs).offset = p.offset + Text.byteLength cs ∧
      (p.after cs).line = p.line + cs.count '\n' := by
  induction cs using List.reverseRecOn with
  | nil => exact ⟨rfl, rfl⟩
  | append_singleton cs c ih =>
    obtain ⟨hoffset, hline⟩ := ih
    rw [after_append, Text.byteLength_concat, List.count_append]
    change ((p.after cs).advance c).offset = _ ∧ ((p.after cs).advance c).line = _
    unfold advance
    split
    · next hc =>
      subst hc
      simp [hoffset, hline, Nat.add_assoc]
    · next hc => simp [hoffset, hline, Nat.add_assoc, hc]

/-- The start of the next line stands to the start of the text as this does to its own. -/
theorem Position.after_line (cs : List Char) :
    origin.after (cs ++ ['\n']) = origin.shift (Text.byteLength cs + 1) (cs.count '\n' + 1) := by
  obtain ⟨hoffset, hline⟩ := origin.after_eq cs
  rw [after_append]
  change (⟨(origin.after cs).offset + 1, (origin.after cs).line + 1, 1⟩ : Position) = _
  rw [hoffset, hline]
  simp [origin, shift]
  omega

/-! ## Numbers -/

theorem Number.isNaN_ofMagnitude (m : Nat) : (ofMagnitude m).isNaN = false := by
  have hle : min m infinity ≤ infinity := Nat.min_le_right m infinity
  simp only [infinity] at hle
  simp only [isNaN, magnitude, ofMagnitude, UInt64.toNat_ofNat', decide_eq_false_iff_not,
    infinity, signBit]
  omega

namespace Scan

/-- Numbers are scanned without a sign. -/
theorem ofLexemes_unsigned (names : Interner) (ls : List Lexeme) :
    ∀ t ∈ (ofLexemes names ls).tokens, t.kind.isUnsigned = true := by
  have hread : ∀ names (l : Lexeme) k, (l.read names).1 = .token k → k.isUnsigned = true := by
    intro names l k hk
    obtain ⟨cls, text, p⟩ := l
    cases cls with
    | mark m => cases hk; rfl
    | number =>
      cases hk
      exact TokenKind.isUnsigned_number.mpr ⟨Number.isNegative_ofDigits _ _,
        Number.isNaN_ofMagnitude _⟩
    | word =>
      obtain rfl : (Lexeme.readWord names (String.ofList text)).1 = k := Reading.token.inj hk
      unfold Lexeme.readWord
      split
      · rfl
      · split <;> rfl
    | string =>
      obtain rfl : .str _ = k := Reading.token.inj hk
      rfl
    | _ => cases hk
  induction ls generalizing names with
  | nil => exact fun _ h => absurd h List.not_mem_nil
  | cons l ls ih =>
    intro t ht
    rcases (ofLexemes_cons names l ls).2 t ht with hl | hrest
    · exact hread names l _ hl
    · exact ih _ t hrest

end Scan

end TreeWalk
