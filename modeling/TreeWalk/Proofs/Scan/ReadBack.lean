import TreeWalk.Scan
import TreeWalk.Proofs.Interner
import TreeWalk.Proofs.Number.ReadBack
import TreeWalk.Proofs.Printer.Spacing

/-!
# Scanning laid out text

The text of a spaced layout is scanned as the tokens it was made from, without errors and without
new names, if each of the tokens can be read at all. Tokens that come out of a scan can be read.
-/

namespace TreeWalk

namespace Lexeme

/-! ## Characters -/

theorem isWordPart_of_isBlank (h : isBlank c = true) : isWordPart c = false := by
  simp only [isBlank, Bool.or_eq_true, beq_iff_eq] at h
  rcases h with ((rfl | rfl) | rfl) | rfl <;> rfl

theorem isBlank_of_isWordPart (h : isWordPart c = true) : isBlank c = false := by
  rw [← Bool.not_eq_true]
  intro hblank
  cases h.symm.trans (isWordPart_of_isBlank hblank)

theorem isWordPart_of_isWordStart (h : isWordStart c = true) : isWordPart c = true := by
  rw [isWordPart, h, Bool.true_or]

theorem isWordPart_of_isDigit (h : isDigit c = true) : isWordPart c = true := by
  rw [isWordPart, h, Bool.or_true]

theorem isDigit_of_isWordStart (h : isWordStart c = true) : isDigit c = false := by
  simp only [isWordStart, isLetter, Bool.or_eq_true, Bool.and_eq_true, decide_eq_true_eq,
    Char.le_def, UInt32.le_iff_toNat_le, beq_iff_eq] at h
  simp only [isDigit, Bool.and_eq_false_iff, decide_eq_false_iff_not, Char.le_def,
    UInt32.le_iff_toNat_le]
  change ((97 ≤ c.val.toNat ∧ c.val.toNat ≤ 122) ∨ (65 ≤ c.val.toNat ∧ c.val.toNat ≤ 90)) ∨
    c = '_' at h
  change ¬ 48 ≤ c.val.toNat ∨ ¬ c.val.toNat ≤ 57
  rcases h with hletter | rfl
  · omega
  · decide

/-- Letters, digits and blanks start no mark. -/
theorem ne_mark_of_class {p : Char → Bool} (h : p c = true)
    (hp : p '=' = false ∧ p '+' = false ∧ p '/' = false ∧ p '.' = false) :
    c ≠ '=' ∧ c ≠ '+' ∧ c ≠ '/' ∧ c ≠ '.' := by
  obtain ⟨heq, hplus, hslash, hdot⟩ := hp
  refine ⟨?_, ?_, ?_, ?_⟩ <;> rintro rfl
  · cases h.symm.trans heq
  · cases h.symm.trans hplus
  · cases h.symm.trans hslash
  · cases h.symm.trans hdot

theorem takeWhile_append_stop {p : Char → Bool} {cs : List Char} (rest : List Char)
    (h : ∀ c ∈ cs, p c = true) (hrest : ∀ c ∈ rest.head?, p c = false) :
    (cs ++ rest).takeWhile p = cs ∧ (cs ++ rest).dropWhile p = rest := by
  rw [List.takeWhile_append_of_pos h, List.dropWhile_append_of_pos h]
  cases rest with
  | nil => simp
  | cons c rest => simp [hrest c rfl]

/-! ## Cuts -/

theorem cut_blank (hc : isBlank c = true) (hcs : ∀ c ∈ cs, isBlank c = true)
    (hrest : ∀ c ∈ rest.head?, isBlank c = false) :
    cut c (cs ++ rest) = ⟨.blank, c :: cs, rest⟩ := by
  obtain ⟨htake, hdrop⟩ := takeWhile_append_stop rest hcs hrest
  rw [cut, if_pos hc, cutWhile, htake, hdrop]

/-- A character of a word starts neither a blank, nor a comment, nor a string. -/
theorem cut_of_isWordPart (h : isWordPart c = true) (cs : List Char) :
    cut c cs = if isDigit c then cutNumber c cs
      else if isWordStart c then cutWhile .word isWordPart c cs
      else cutMark c cs := by
  have hslash : (c == '/') = false := by
    rw [beq_eq_false_iff_ne]
    rintro rfl
    cases h
  have hquote : (c == '"') = false := by
    rw [beq_eq_false_iff_ne]
    rintro rfl
    cases h
  simp [cut, isBlank_of_isWordPart h, hslash, hquote]

theorem cut_word (hc : isWordStart c = true) (hcs : ∀ c ∈ cs, isWordPart c = true)
    (hrest : ∀ c ∈ rest.head?, isWordPart c = false) :
    cut c (cs ++ rest) = ⟨.word, c :: cs, rest⟩ := by
  obtain ⟨htake, hdrop⟩ := takeWhile_append_stop rest hcs hrest
  rw [cut_of_isWordPart (isWordPart_of_isWordStart hc), isDigit_of_isWordStart hc,
    if_neg Bool.false_ne_true, if_pos hc, cutWhile, htake, hdrop]

theorem cut_string (hcs : '"' ∉ cs) :
    cut '"' (cs ++ '"' :: rest) = ⟨.string, '"' :: cs ++ ['"'], rest⟩ := by
  have hcs : ∀ c ∈ cs, (c != '"') = true := fun c hc => by
    rw [bne_iff_ne]
    rintro rfl
    exact hcs hc
  obtain ⟨htake, hdrop⟩ := takeWhile_append_stop ('"' :: rest) hcs (by simp)
  have hcut : cut '"' (cs ++ '"' :: rest) = cutString '"' (cs ++ '"' :: rest) := rfl
  rw [hcut, cutString, hdrop, htake]

theorem cutNumber_pointed (hcs : ∀ c ∈ cs, isDigit c = true) (hf : ∀ c ∈ fraction, isDigit c = true)
    (hrest : ∀ c ∈ rest.head?, isDigit c = false)
    (hpoint : ∀ d rest', rest = '.' :: d :: rest' → isDigit d = false) :
    cutNumber c (Decimal.pointed cs fraction ++ rest) =
      ⟨.number, c :: Decimal.pointed cs fraction, rest⟩ := by
  cases fraction with
  | nil =>
    obtain ⟨htake, hdrop⟩ := takeWhile_append_stop rest hcs hrest
    rw [Decimal.pointed, cutNumber, hdrop, htake]
    split
    · next d rest' =>
      rw [if_neg (by simp [hpoint d rest' rfl])]
    · rfl
  | cons d ds =>
    obtain ⟨hd, hds⟩ := List.forall_mem_cons.mp hf
    obtain ⟨htake, hdrop⟩ :=
      takeWhile_append_stop ('.' :: d :: (ds ++ rest)) hcs (by simp [isDigit])
    obtain ⟨htake', hdrop'⟩ := takeWhile_append_stop rest hds hrest
    rw [Decimal.pointed, List.append_assoc, List.cons_append, List.cons_append, cutNumber,
      hdrop, htake]
    simp only [hd, if_true, htake', hdrop', List.cons_append]

theorem cut_number (hc : isDigit c = true) (hcs : ∀ c ∈ cs, isDigit c = true)
    (hf : ∀ c ∈ fraction, isDigit c = true) (hrest : ∀ c ∈ rest.head?, isDigit c = false)
    (hpoint : ∀ d rest', rest = '.' :: d :: rest' → isDigit d = false) :
    cut c (Decimal.pointed cs fraction ++ rest) =
      ⟨.number, c :: Decimal.pointed cs fraction, rest⟩ := by
  rw [cut_of_isWordPart (isWordPart_of_isDigit hc), if_pos hc,
    cutNumber_pointed hcs hf hrest hpoint]

theorem cut_pair (h : Punct.ofPair? c d = some m) : cut c (d :: cs) = ⟨.mark m, [c, d], cs⟩ := by
  unfold Punct.ofPair? at h
  split at h <;> cases h <;> rfl

theorem cut_single (h : Punct.ofChar? c = some m)
    (hcs : ∀ d ∈ cs.head?, Punct.ofPair? c d = none ∧ ¬ (c = '/' ∧ d = '/')) :
    cut c cs = ⟨.mark m, [c], cs⟩ := by
  have hother : isBlank c = false ∧ c ≠ '"' ∧ isDigit c = false ∧ isWordStart c = false := by
    unfold Punct.ofChar? at h
    split at h <;> cases h <;> exact ⟨rfl, by decide, rfl, rfl⟩
  obtain ⟨hblank, hquote, hdigit, hword⟩ := hother
  have hslash : (c == '/' && cs.head? == some '/') = false := by
    rw [← Bool.not_eq_true, Bool.and_eq_true, beq_iff_eq, beq_iff_eq]
    exact fun hboth => (hcs '/' hboth.2).2 ⟨hboth.1, rfl⟩
  have hmark : cut c cs = cutMark c cs := by simp [cut, hblank, hslash, hquote, hdigit, hword]
  rw [hmark]
  cases cs with
  | nil => simp only [cutMark, cutChar, h]
  | cons d cs => simp only [cutMark, (hcs d rfl).1, cutChar, h]

end Lexeme

open Lexeme

/-! ## Tokens that can be read -/

/-- A text that is read as a name. -/
structure IsName (text : String) : Prop where
  word : ∃ c cs, text.toList = c :: cs ∧ isWordStart c = true ∧ ∀ c ∈ cs, isWordPart c = true
  not_lone : text ≠ "_"
  not_reserved : Keyword.ofText? text = none

/-- Whether a token, if it is a number, is a finite one. -/
def TokenKind.isFinite : TokenKind → Bool
  | .number x => x.isFinite
  | _ => true

/-- Whether the source text of a token is read as that token. -/
def TokenKind.Readable (names : Interner) : TokenKind → Prop
  | .punct _ | .keyword _ => True
  | .ident s => IsName (names.nameOf s) ∧ names.get? (names.nameOf s) = some s
  | .str s => '"' ∉ (names.nameOf s).toList ∧ names.get? (names.nameOf s) = some s
  | .number x => x.isNegative = false ∧ x.isFinite = true
  | .eof => False

theorem TokenKind.Readable.ne_eof {k : TokenKind} (h : k.Readable names) : k ≠ .eof := by
  rintro rfl
  exact h

/-- What can be read with some names can be read with more. -/
theorem TokenKind.Readable.mono {k : TokenKind} (h : k.Readable names) (hwithin : names.Within t)
    (hsize : t.size ≤ Symbol.bound) : k.Readable t := by
  cases k with
  | ident s | str s =>
    have hget := hwithin h.2
    rw [Readable, Interner.nameOf_of_get? hget hsize]
    exact ⟨h.1, hget⟩
  | _ => exact h

/-- Whether the text in front of `cs` ends there, for the text of a token. -/
def Ends (k : TokenKind) (cs : List Char) : Prop :=
  k.isFree = true ∨ k = .punct .dot ∨
    (∀ c ∈ cs.head?, c ≠ '=' ∧ c ≠ '+' ∧ c ≠ '/' ∧ (k ≠ .punct .bang → isWordPart c = false)) ∧
      ∀ d rest, cs = '.' :: d :: rest → isDigit d = false

theorem ends_cons (hc : c ≠ '=' ∧ c ≠ '+' ∧ c ≠ '/')
    (hword : k ≠ .punct .bang → isWordPart c = false)
    (hpoint : c = '.' → ∀ d ∈ cs.head?, isDigit d = false) : Ends k (c :: cs) := by
  refine .inr (.inr ⟨?_, ?_⟩)
  · rintro _ ⟨⟩
    exact ⟨hc.1, hc.2.1, hc.2.2, hword⟩
  · rintro d rest ⟨⟩
    exact hpoint rfl d rfl

/-- The first lexeme of a text is read as a token. -/
def Begins (names : Interner) (k : TokenKind) (text rest : List Char) : Prop :=
  ∃ c cs cls, text = c :: cs ∧ isBlank c = false ∧ cut c (cs ++ rest) = ⟨cls, text, rest⟩ ∧
    ∀ p, Lexeme.read names ⟨cls, text, p⟩ = (.token k, names)

/-- The mark does not go on with the next character, and does not start a comment. -/
theorem ends_single (hc : Punct.ofChar? c = some m) (h : Ends (.punct m) cs) :
    ∀ d ∈ cs.head?, Punct.ofPair? c d = none ∧ ¬ (c = '/' ∧ d = '/') := by
  intro d hd
  have hfirst : (TokenKind.punct m).isFree = true ∨ TokenKind.punct m = .punct .dot →
      Punct.ofPair? c d = none ∧ ¬ (c = '/' ∧ d = '/') := by
    intro hm
    refine ⟨?_, ?_⟩
    · cases hpair : Punct.ofPair? c d with
      | none => rfl
      | some m' =>
        unfold Punct.ofPair? at hpair
        split at hpair <;> cases hpair <;> cases hc <;> simp [TokenKind.isFree] at hm
    · rintro ⟨rfl, -⟩
      cases hc
      simp [TokenKind.isFree] at hm
  rcases h with hfree | hdot | ⟨hnext, -⟩
  · exact hfirst (.inl hfree)
  · exact hfirst (.inr hdot)
  · obtain ⟨heq, hplus, hslash, -⟩ := hnext d hd
    refine ⟨?_, fun h => hslash h.2⟩
    unfold Punct.ofPair?
    split
    · exact absurd rfl hplus
    · exact absurd rfl heq
    · exact absurd rfl heq
    · exact absurd rfl heq
    · exact absurd rfl heq
    · rfl

theorem Punct.text_cases (hm : m ≠ .underscore) :
    (∃ c, m.text.toList = [c] ∧ ofChar? c = some m) ∨
      ∃ c d, m.text.toList = [c, d] ∧ ofPair? c d = some m := by
  cases m with
  | underscore => exact absurd rfl hm
  | plusPlus | bangEq | eqEq | gtEq | ltEq => exact .inr ⟨_, _, rfl, rfl⟩
  | _ => exact .inl ⟨_, rfl, rfl⟩

theorem begins_punct (hm : m ≠ .underscore) (h : Ends (.punct m) rest) :
    Begins names (.punct m) m.text.toList rest := by
  obtain ⟨c, htext, hc⟩ | ⟨c, d, htext, hpair⟩ := Punct.text_cases hm
  · have hcut := cut_single hc (ends_single hc h)
    refine ⟨c, [], .mark m, htext, ?_, by rw [htext]; exact hcut, fun _ => rfl⟩
    unfold Punct.ofChar? at hc
    split at hc <;> cases hc <;> rfl
  · refine ⟨c, [d], .mark m, htext, ?_, by rw [htext]; exact cut_pair hpair, fun _ => rfl⟩
    unfold Punct.ofPair? at hpair
    split at hpair <;> cases hpair <;> rfl

theorem begins_word {text : String} (hc : isWordStart c = true)
    (hcs : ∀ c ∈ cs, isWordPart c = true) (htext : text.toList = c :: cs)
    (hrest : ∀ c ∈ rest.head?, isWordPart c = false) (hread : readWord names text = (k, names)) :
    Begins names k text.toList rest := by
  have hblank := isBlank_of_isWordPart (isWordPart_of_isWordStart hc)
  refine ⟨c, cs, .word, htext, hblank, htext ▸ cut_word hc hcs hrest, fun p => ?_⟩
  simp only [Lexeme.read, String.ofList_toList, hread]

/-- A word, a name or a number ends where its characters end. -/
theorem Ends.stops (h : Ends k cs) (hfree : k.isFree = false)
    (hk : ∀ m, k = .punct m → m = .underscore) :
    (∀ c ∈ cs.head?, isWordPart c = false) ∧ ∀ d rest, cs = '.' :: d :: rest →
      isDigit d = false := by
  rcases h with h | rfl | ⟨hnext, hpoint⟩
  · cases hfree.symm.trans h
  · cases hk .dot rfl
  · refine ⟨fun c hc => (hnext c hc).2.2.2 ?_, hpoint⟩
    rintro rfl
    cases hk .bang rfl

theorem Keyword.text_word (word : Keyword) :
    ∃ c cs, word.text.toList = c :: cs ∧ isWordStart c = true ∧ ∀ c ∈ cs, isWordPart c = true := by
  have hhead : ∃ c cs, word.text.toList = c :: cs ∧ isWordStart c = true := by
    cases word <;> exact ⟨_, _, rfl, rfl⟩
  have hall : word.text.toList.all isWordPart = true := by cases word <;> rfl
  obtain ⟨c, cs, htext, hc⟩ := hhead
  refine ⟨c, cs, htext, hc, fun d hd => List.all_eq_true.mp hall d ?_⟩
  rw [htext]
  exact List.mem_cons_of_mem c hd

theorem begins_keyword (word : Keyword) (hrest : ∀ c ∈ rest.head?, isWordPart c = false) :
    Begins names (.keyword word) word.text.toList rest := by
  have hread : readWord names word.text = (.keyword word, names) := by cases word <;> rfl
  obtain ⟨c, cs, htext, hc, hcs⟩ := word.text_word
  exact begins_word hc hcs htext hrest hread

theorem begins_name (hname : IsName (names.nameOf s)) (hget : names.get? (names.nameOf s) = some s)
    (hrest : ∀ c ∈ rest.head?, isWordPart c = false) :
    Begins names (.ident s) (names.nameOf s).toList rest := by
  obtain ⟨c, cs, htext, hc, hcs⟩ := hname.word
  refine begins_word hc hcs htext hrest ?_
  simp [readWord, hname.not_lone, hname.not_reserved, Interner.intern_of_get? hget]

theorem begins_string (hquote : '"' ∉ (names.nameOf s).toList)
    (hget : names.get? (names.nameOf s) = some s) :
    Begins names (.str s) (TokenKind.sourceText names (.str s)).toList rest := by
  have htext : (TokenKind.sourceText names (.str s)).toList = '"' ::
      ((names.nameOf s).toList ++ ['"']) := by
    simp [TokenKind.sourceText]
  refine ⟨'"', (names.nameOf s).toList ++ ['"'], .string, htext, rfl, ?_, fun p => ?_⟩
  · rw [htext, List.append_assoc, List.singleton_append, cut_string hquote]
    rfl
  · simp [Lexeme.read, htext, contents, Interner.intern_of_get? hget]

theorem numberValue_pointed {whole fraction : List Char} (h : ∀ c ∈ whole, isDigit c = true) :
    numberValue (Decimal.pointed whole fraction) = .ofDigits whole fraction := by
  cases fraction with
  | nil =>
    obtain ⟨htake, hdrop⟩ := takeWhile_append_stop [] h (by simp)
    rw [List.append_nil] at htake hdrop
    rw [Decimal.pointed, numberValue, htake, hdrop]
    rfl
  | cons d ds =>
    obtain ⟨htake, hdrop⟩ := takeWhile_append_stop ('.' :: d :: ds) h (by simp [isDigit])
    rw [Decimal.pointed, numberValue, htake, hdrop]
    rfl

theorem begins_number (hpos : x.isNegative = false) (hfin : x.isFinite = true)
    (hrest : ∀ c ∈ rest.head?, isWordPart c = false)
    (hpoint : ∀ d rest', rest = '.' :: d :: rest' → isDigit d = false) :
    Begins names (.number x) x.sourceText.toList rest := by
  obtain ⟨whole, fraction, htext, hne, hwhole, hfraction, hvalue⟩ :=
    Number.exists_sourceText hpos hfin
  obtain ⟨c, cs, rfl⟩ := List.exists_cons_of_ne_nil hne
  obtain ⟨hc, hcs⟩ := List.forall_mem_cons.mp hwhole
  have hpointed : Decimal.pointed (c :: cs) fraction = c :: Decimal.pointed cs fraction := by
    cases fraction <;> rfl
  have hrest' : ∀ c ∈ rest.head?, isDigit c = false := by
    intro d hd
    have := hrest d hd
    rw [isWordPart, Bool.or_eq_false_iff] at this
    exact this.2
  have hblank := isBlank_of_isWordPart (isWordPart_of_isDigit hc)
  refine ⟨c, Decimal.pointed cs fraction, .number, htext.trans hpointed, hblank, ?_, fun p => ?_⟩
  · rw [htext, hpointed]
    exact cut_number hc hcs hfraction hrest' hpoint
  · have hnumber : numberValue x.sourceText.toList = x := by
      rw [htext, numberValue_pointed hwhole, hvalue]
    simp only [Lexeme.read, hnumber]

theorem begins_sourceText (hk : k.Readable names) (h : Ends k rest) :
    Begins names k (k.sourceText names).toList rest := by
  cases k with
  | punct m =>
    by_cases hm : m = .underscore
    · subst hm
      have htext : (TokenKind.sourceText names (.punct .underscore)).toList = ['_'] := by
        simp [TokenKind.sourceText, Punct.text]
      refine begins_word rfl (by simp) htext (h.stops rfl fun m hm => ?_).1 rfl
      cases hm
      rfl
    · exact begins_punct hm h
  | keyword word => exact begins_keyword word (h.stops rfl fun _ hm => nomatch hm).1
  | ident s => exact begins_name hk.1 hk.2 (h.stops rfl fun _ hm => nomatch hm).1
  | str s => exact begins_string hk.1 hk.2
  | number x =>
    obtain ⟨hrest, hpoint⟩ := h.stops rfl fun _ hm => nomatch hm
    exact begins_number hk.1 hk.2 hrest hpoint
  | eof => exact hk.elim

/-! ## Layouts -/

variable {k : TokenKind} {l : Layout}

theorem closing_text (names : Interner) (hk : k.closes = true) :
    ∃ c cs, (k.sourceText names).toList = c :: cs ∧ c ≠ '=' ∧ c ≠ '+' ∧ c ≠ '/' ∧
      isWordPart c = false ∧ (c = '.' → k = .punct .dot) := by
  cases k with
  | punct m =>
    cases m with
    | lparen => exact ⟨'(', [], by simp [TokenKind.sourceText, Punct.text], by decide⟩
    | rparen => exact ⟨')', [], by simp [TokenKind.sourceText, Punct.text], by decide⟩
    | rbrace => exact ⟨'\x7d', [], by simp [TokenKind.sourceText, Punct.text], by decide⟩
    | rbracket => exact ⟨']', [], by simp [TokenKind.sourceText, Punct.text], by decide⟩
    | comma => exact ⟨',', [], by simp [TokenKind.sourceText, Punct.text], by decide⟩
    | dot => exact ⟨'.', [], by simp [TokenKind.sourceText, Punct.text], by decide⟩
    | semicolon => exact ⟨';', [], by simp [TokenKind.sourceText, Punct.text], by decide⟩
    | _ => cases hk
  | _ => cases hk

theorem opening_text (hk : k.beginsExpr = true) (hr : k.Readable names) :
    ∃ c cs, (k.sourceText names).toList = c :: cs ∧ c ≠ '=' ∧ c ≠ '+' ∧ c ≠ '/' ∧ c ≠ '.' := by
  cases k with
  | punct m =>
    cases m with
    | lparen => exact ⟨'(', [], by simp [TokenKind.sourceText, Punct.text], by decide⟩
    | lbracket => exact ⟨'[', [], by simp [TokenKind.sourceText, Punct.text], by decide⟩
    | bang => exact ⟨'!', [], by simp [TokenKind.sourceText, Punct.text], by decide⟩
    | minus => exact ⟨'-', [], by simp [TokenKind.sourceText, Punct.text], by decide⟩
    | _ => cases hk
  | keyword word =>
    obtain ⟨c, cs, htext, hc, -⟩ := word.text_word
    exact ⟨c, cs, htext, ne_mark_of_class hc (by decide)⟩
  | ident s =>
    obtain ⟨c, cs, htext, hc, -⟩ := hr.1.word
    exact ⟨c, cs, htext, ne_mark_of_class hc (by decide)⟩
  | str s =>
    exact ⟨'"', (names.nameOf s).toList ++ ['"'], by simp [TokenKind.sourceText], by decide⟩
  | number x =>
    obtain ⟨whole, fraction, htext, hne, hwhole, -⟩ := Number.exists_sourceText hr.1 hr.2
    obtain ⟨c, cs, rfl⟩ := List.exists_cons_of_ne_nil hne
    have hc := ne_mark_of_class (hwhole c List.mem_cons_self) (by decide)
    cases fraction with
    | nil => exact ⟨c, _, htext, hc⟩
    | cons d ds => exact ⟨c, _, htext, hc⟩
  | eof => cases hk

namespace Layout

theorem text_token (k : TokenKind) (l : Layout) :
    (text names (.token k :: l)).toList = (k.sourceText names).toList ++ (l.text names).toList := by
  simp [text]

theorem text_gap (t : String) (l : Layout) :
    (text names (.gap t :: l)).toList = t.toList ++ (l.text names).toList := by
  simp [text]

/-- A `.` is followed by a name. -/
theorem Stands.name_of_dot (h : Stands (.punct .dot) l) : ∃ s l', l = .token (.ident s) :: l' := by
  rcases h with hfree | h
  · cases hfree
  · split at h
    · exact absurd rfl h
    · exact absurd rfl h.2
    · next k' l' =>
      cases k' with
      | ident s => exact ⟨s, l', rfl⟩
      | _ => cases h

/-- A `.` is no decimal point. -/
theorem not_digit_of_stands_dot (h : Stands (.punct .dot) l)
    (hr : ∀ k ∈ l.tokens, k.Readable names) :
    ∀ d ∈ (l.text names).toList.head?, isDigit d = false := by
  obtain ⟨s, l', rfl⟩ := h.name_of_dot
  obtain ⟨c, cs, htext, hc, -⟩ := (hr (.ident s) List.mem_cons_self).1.word
  rw [text_token, TokenKind.sourceText, htext]
  rintro d ⟨⟩
  exact isDigit_of_isWordStart hc

theorem ends_of_stands (h : Stands k l) (hs : Spaced l) (hr : ∀ k ∈ l.tokens, k.Readable names) :
    Ends k (l.text names).toList := by
  rcases h with hfree | h
  · exact .inl hfree
  by_cases hdot : k = .punct .dot
  · exact .inr (.inl hdot)
  cases l with
  | nil => exact .inr (.inr ⟨by simp [text], by simp [text]⟩)
  | cons f l =>
    cases f with
    | gap t =>
      obtain ⟨c, cs, ht⟩ := List.exists_cons_of_ne_nil (by simpa using h.1 : t.toList ≠ [])
      have hc : isBlank c = true := hs.1 c (by simp [ht])
      obtain ⟨heq, hplus, hslash, hpoint⟩ := ne_mark_of_class hc (by decide)
      rw [text_gap, ht]
      exact ends_cons ⟨heq, hplus, hslash⟩ (fun _ => isWordPart_of_isBlank hc) fun h =>
        absurd h hpoint
    | token k' =>
      rw [text_token]
      obtain hcloses | ⟨rfl, hbegins⟩ := TokenKind.touches_cases hdot h
      · obtain ⟨c, cs, htext, heq, hplus, hslash, hword, hpoint⟩ := closing_text names hcloses
        rw [htext]
        refine ends_cons ⟨heq, hplus, hslash⟩ (fun _ => hword) ?_
        rintro rfl
        cases hpoint rfl
        obtain rfl : cs = [] := by simpa [TokenKind.sourceText, Punct.text] using htext.symm
        exact not_digit_of_stands_dot hs.1 (List.forall_mem_cons.mp hr).2
      · obtain ⟨c, cs, htext, heq, hplus, hslash, hpoint⟩ :=
          opening_text hbegins (hr k' List.mem_cons_self)
        rw [htext]
        exact ends_cons ⟨heq, hplus, hslash⟩ (fun h => absurd rfl h) fun h => absurd h hpoint

end Layout

/-- A text is scanned as the tokens `ks`, without errors and without new names. -/
def Spells (names : Interner) (cs : List Char) (ks : List TokenKind) : Prop :=
  ∀ p, ∃ tokens, Scan.ofLexemes names (Lexeme.all p cs) = ⟨tokens, [], names⟩ ∧
    tokens.map Token.kind = ks

theorem Spells.blanks (hg : ∀ c ∈ g, isBlank c = true) (hrest : ∀ c ∈ rest.head?, isBlank c = false)
    (h : Spells names rest ks) : Spells names (g ++ rest) ks := by
  intro p
  cases g with
  | nil => exact h p
  | cons c g =>
    obtain ⟨hc, hg⟩ := List.forall_mem_cons.mp hg
    obtain ⟨tokens, hscan, hkinds⟩ := h (p.after (c :: g))
    refine ⟨tokens, ?_, hkinds⟩
    rw [List.cons_append, Lexeme.all, cut_blank hc hg hrest]
    exact hscan

theorem Spells.token {text : List Char} (hk : Begins names k text rest) (h : Spells names rest ks) :
    Spells names (text ++ rest) (k :: ks) := by
  intro p
  obtain ⟨c, cs, cls, rfl, -, hcut, hread⟩ := hk
  obtain ⟨tokens, hscan, hkinds⟩ := h (p.after (c :: cs))
  refine ⟨⟨k, Lexeme.span ⟨cls, c :: cs, p⟩⟩ :: tokens, ?_, congrArg (k :: ·) hkinds⟩
  rw [List.cons_append, Lexeme.all, hcut]
  simp only [Scan.ofLexemes, hread, hscan]

/-- What stands before a layout are the blanks of the gaps in front of it. -/
theorem Layout.spells (hg : ∀ c ∈ g, isBlank c = true) (hs : Spaced l)
    (hr : ∀ k ∈ l.tokens, k.Readable names) :
    Spells names (g ++ (l.text names).toList) l.tokens := by
  induction l generalizing g with
  | nil =>
    exact Spells.blanks hg (by simp [text]) fun p =>
      ⟨[], by simp [text, Lexeme.all, Scan.ofLexemes], rfl⟩
  | cons f l ih =>
    cases f with
    | gap t =>
      rw [text_gap, ← List.append_assoc]
      refine ih ?_ hs.2 hr
      simpa [or_imp, forall_and] using ⟨hg, hs.1⟩
    | token k =>
      obtain ⟨hk, hr'⟩ := List.forall_mem_cons.mp hr
      have hbegins := begins_sourceText hk (ends_of_stands hs.1 hs.2 hr')
      have hl : Spells names (Layout.text names l).toList (tokens l) :=
        ih (g := []) (by simp) hs.2 hr'
      rw [text_token]
      refine Spells.blanks hg ?_ (hl.token hbegins)
      obtain ⟨c, cs, -, htext, hblank, -⟩ := hbegins
      rw [htext]
      rintro _ ⟨⟩
      exact hblank

/-- The text of a spaced layout is scanned as its tokens. -/
theorem scan_text {l : Layout} (hs : l.Spaced) (hr : ∀ k ∈ l.tokens, k.Readable names) :
    ∃ tokens, scan names (l.text names) = ⟨tokens ++ [Scan.endMark (l.text names)], [], names⟩ ∧
      tokens.map Token.kind = l.tokens := by
  have hspells : Spells names (l.text names).toList l.tokens :=
    Layout.spells (g := []) (fun _ h => absurd h List.not_mem_nil) hs hr
  obtain ⟨tokens, hscan, hkinds⟩ := hspells .origin
  exact ⟨tokens, by rw [scan, hscan], hkinds⟩

/-! ## Tokens that have been read -/

namespace Lexeme

/-- What the lexemes are like that are entered into the table of names. -/
def Formed : LexemeClass → List Char → Prop
  | .word, text => ∃ c cs, text = c :: cs ∧ isWordStart c = true ∧ ∀ c ∈ cs, isWordPart c = true
  | .string, text => '"' ∉ contents text
  | _, _ => True

theorem formed_cutString (c : Char) (cs : List Char) :
    Formed (cutString c cs).cls (cutString c cs).text := by
  unfold cutString
  split
  · trivial
  · intro hquote
    simp only [contents, List.cons_append, List.drop_succ_cons, List.drop_zero,
      List.dropLast_concat] at hquote
    have hne := List.all_eq_true.mp List.all_takeWhile _ hquote
    simp at hne

theorem formed_cutMark (c : Char) (cs : List Char) :
    Formed (cutMark c cs).cls (cutMark c cs).text := by
  have hchar : ∀ cs, Formed (cutChar c cs).cls (cutChar c cs).text := by
    intro cs
    unfold cutChar
    split <;> trivial
  unfold cutMark
  split
  · exact hchar []
  · split
    · trivial
    · exact hchar _

theorem formed_cut (c : Char) (cs : List Char) : Formed (cut c cs).cls (cut c cs).text := by
  have hnumber : (cutNumber c cs).cls = .number := by
    unfold cutNumber
    split
    · split <;> rfl
    · rfl
  unfold cut
  split
  · trivial
  split
  · trivial
  split
  · exact formed_cutString c cs
  split
  · rw [hnumber]
    trivial
  split
  · next hc => exact ⟨c, _, rfl, hc, List.all_eq_true.mp List.all_takeWhile⟩
  · exact formed_cutMark c cs

theorem formed_all (p : Position) (cs : List Char) : ∀ l ∈ all p cs, Formed l.cls l.text := by
  induction p, cs using all.induct with
  | case1 p => simp [all]
  | case2 p c cs found ih =>
    rw [all]
    exact List.forall_mem_cons.mpr ⟨formed_cut c cs, ih⟩

/-- What holds of a table before and after a text is entered holds before and after a lexeme is
read. -/
theorem read_keeps {R : Interner → Interner → Prop} (hrefl : ∀ t, R t t)
    (hintern : ∀ t text, R t (t.intern text).2) (names : Interner) (l : Lexeme) :
    R names (l.read names).2 := by
  obtain ⟨cls, text, p⟩ := l
  cases cls with
  | word =>
    change R names (readWord names (String.ofList text)).2
    unfold readWord
    split
    · exact hrefl names
    · split
      · exact hrefl names
      · exact hintern names _
  | string => exact hintern names (String.ofList (contents text))
  | _ => exact hrefl names

/-- A word that has been read can be read again, as long as its symbol is kept. -/
theorem readable_readWord {text : String}
    (h : ∃ c cs, text.toList = c :: cs ∧ isWordStart c = true ∧ ∀ c ∈ cs, isWordPart c = true)
    (hwithin : (readWord names text).2.Within t) (hsize : t.size ≤ Symbol.bound) :
    (readWord names text).1.Readable t := by
  by_cases hlone : text = "_"
  · subst hlone
    trivial
  · cases hword : Keyword.ofText? text with
    | some word =>
      have hread : readWord names text = (.keyword word, names) := by simp [readWord, hlone, hword]
      rw [hread]
      trivial
    | none =>
      have hread : readWord names text = (.ident (names.intern text).1, (names.intern text).2) := by
        simp [readWord, hlone, hword]
      rw [hread] at hwithin ⊢
      have hget := hwithin (Interner.get?_intern names text)
      change IsName (t.nameOf _) ∧ t.get? (t.nameOf _) = _
      rw [Interner.nameOf_of_get? hget hsize]
      exact ⟨⟨h, hlone, hword⟩, hget⟩

theorem readable_read (l : Lexeme) (hl : Formed l.cls l.text) (hwithin : (l.read names).2.Within t)
    (hsize : t.size ≤ Symbol.bound) (hread : (l.read names).1 = .token k)
    (hfin : k.isFinite = true) : k.Readable t := by
  obtain ⟨cls, text, p⟩ := l
  cases cls with
  | mark m =>
    cases hread
    trivial
  | word =>
    cases hread
    obtain ⟨c, cs, rfl, hword⟩ := hl
    exact readable_readWord ⟨c, cs, String.toList_ofList, hword⟩ hwithin hsize
  | number =>
    cases hread
    exact ⟨Number.isNegative_ofDigits _ _, hfin⟩
  | string =>
    obtain rfl : .str (names.intern (String.ofList (contents text))).1 = k :=
      Reading.token.inj hread
    have hget := hwithin (Interner.get?_intern names (String.ofList (contents text)))
    change '"' ∉ (t.nameOf _).toList ∧ t.get? (t.nameOf _) = _
    rw [Interner.nameOf_of_get? hget hsize, String.toList_ofList]
    exact ⟨hl, hget⟩
  | _ => cases hread

end Lexeme

namespace Scan

theorem ofLexemes_cons (names : Interner) (l : Lexeme) (ls : List Lexeme) :
    (ofLexemes names (l :: ls)).names = (ofLexemes (l.read names).2 ls).names ∧
      ∀ token ∈ (ofLexemes names (l :: ls)).tokens,
        (l.read names).1 = .token token.kind ∨ token ∈ (ofLexemes (l.read names).2 ls).tokens := by
  simp only [ofLexemes]
  split
  · exact ⟨rfl, fun _ h => .inr h⟩
  · next kind hread =>
    refine ⟨rfl, List.forall_mem_cons.mpr ⟨.inl hread, fun _ h => .inr h⟩⟩
  · exact ⟨rfl, fun _ h => .inr h⟩

theorem ofLexemes_keeps {R : Interner → Interner → Prop} (hrefl : ∀ t, R t t)
    (htrans : ∀ {t u v}, R t u → R u v → R t v) (hintern : ∀ t text, R t (t.intern text).2)
    (names : Interner) (ls : List Lexeme) :
    R names (ofLexemes names ls).names := by
  induction ls generalizing names with
  | nil => exact hrefl names
  | cons l ls ih =>
    rw [(ofLexemes_cons names l ls).1]
    exact htrans (Lexeme.read_keeps hrefl hintern names l) (ih _)

theorem within_ofLexemes (names : Interner) (ls : List Lexeme) :
    names.Within (ofLexemes names ls).names :=
  ofLexemes_keeps Interner.Within.refl Interner.Within.trans Interner.within_intern names ls

theorem size_le_ofLexemes (names : Interner) (ls : List Lexeme) :
    names.size ≤ (ofLexemes names ls).names.size :=
  ofLexemes_keeps (R := fun t u => t.size ≤ u.size) (fun _ => Nat.le_refl _) Nat.le_trans
    Interner.size_le_intern
    names ls

/-- The tokens of a scan can be read with the names of that scan. -/
theorem readable_ofLexemes {names : Interner} (hls : ∀ l ∈ ls, Formed l.cls l.text)
    (hsize : (ofLexemes names ls).names.size ≤ Symbol.bound) :
    ∀ token ∈ (ofLexemes names ls).tokens, token.kind.isFinite = true →
      token.kind.Readable (ofLexemes names ls).names := by
  induction ls generalizing names with
  | nil => exact fun _ h => absurd h List.not_mem_nil
  | cons l ls ih =>
    obtain ⟨hl, hls⟩ := List.forall_mem_cons.mp hls
    obtain ⟨hnames, htokens⟩ := ofLexemes_cons names l ls
    intro token htoken hfin
    rw [hnames] at hsize ⊢
    rcases htokens token htoken with hread | hrest
    · exact readable_read l hl (within_ofLexemes _ ls) hsize hread hfin
    · exact ih hls hsize token hrest hfin

end Scan

end TreeWalk
