import Mathlib.Data.List.Pairwise
import TreeWalk.Proofs.Renaming
import TreeWalk.Proofs.Scan.Tiling

/-!
# An account of every byte

Scanning accounts for every byte of a text. The stretches of tokens and errors are cut along
characters, do not overlap, and are listed from left to right. What is outside of them are blanks
and comments. A string without its closing quote is the last thing in a text.
-/

namespace TreeWalk

/-! ## The statement -/

/-- The stretches have no byte in common. -/
def Span.Apart (a b : Span) : Prop :=
  a.stop ≤ b.start ∨ b.stop ≤ a.start

def Span.Covers (a : Span) (i : Nat) : Prop :=
  a.start ≤ i ∧ i < a.stop

namespace Text

/-- Byte `i` belongs to a space, a tab, a carriage return or a line feed. -/
def BlankAt (cs : List Char) (i : Nat) : Prop :=
  ∃ before c after, cs = before ++ c :: after ∧ c ∈ [' ', '\t', '\r', '\n'] ∧
    byteLength before ≤ i ∧ i < byteLength before + c.utf8Size

/-- A comment goes from byte `start` to byte `stop`, which is the end of a line or of the text. -/
def CommentAt (cs : List Char) (start stop : Nat) : Prop :=
  ∃ before body after, cs = before ++ '/' :: '/' :: body ++ after ∧ '\n' ∉ body ∧
    (∀ c ∈ after.head?, c = '\n') ∧ start = byteLength before ∧
    stop = byteLength before + byteLength ('/' :: '/' :: body)

end Text

namespace Scan

/-- Where the tokens of a scan stand, without its end mark, and where its errors do. -/
def spans (found : Scan) : List Span :=
  found.tokens.dropLast.map Token.span ++ found.errors.map ScanError.span

/-- The scan accounts for every byte of the text. -/
structure Accounts (source : String) (found : Scan) : Prop where
  nonempty : ∀ a ∈ found.spans, a.start < a.stop
  /-- A span starts and stops between characters. -/
  bounded : ∀ a ∈ found.spans, (a.chars? source).isSome = true
  apart : found.spans.Pairwise Span.Apart
  tokens : found.tokens.dropLast.Pairwise fun t u => t.span.stop ≤ u.span.start
  errors : found.errors.Pairwise fun e f => e.span.stop ≤ f.span.start
  /-- What is neither in a token nor in an error is a blank or in a comment, which is apart from
  them all. -/
  rest : ∀ i < Text.byteLength source.toList, (∀ a ∈ found.spans, ¬ a.Covers i) →
    Text.BlankAt source.toList i ∨
      ∃ start stop, Text.CommentAt source.toList start stop ∧ start ≤ i ∧ i < stop ∧
        ∀ a ∈ found.spans, a.stop ≤ start ∨ stop ≤ a.start
  /-- There is one end mark, the last token. -/
  marked : (∀ t ∈ found.tokens.dropLast, t.isEof = false) ∧
    ∃ mark, found.tokens.getLast? = some mark ∧ mark.isEof = true ∧
    mark.span.start = Text.byteLength source.toList ∧ mark.span.stop = Text.byteLength source.toList
  /-- A string that is not closed runs to the end. -/
  unclosed : ∀ before a after, found.errors = before ++ .unterminatedString a :: after →
    after = [] ∧ (∀ b, .unterminatedString b ∉ before) ∧ a.stop = Text.byteLength source.toList ∧
      ∀ t ∈ found.tokens.dropLast, t.span.stop ≤ a.start
  /-- The contents of a string stand between characters, too. -/
  contents : ∀ t ∈ found.tokens.dropLast, ∀ x, t.kind = .str x →
    (Text.slice? source.toList (t.span.start + 1) (t.span.stop - 1)).isSome = true

end Scan

/-! ## Lexemes -/

namespace LexemeClass

/-- Lexemes that are read as tokens. -/
def isWord : LexemeClass → Bool
  | mark _ | word | number | string => true
  | _ => false

/-- Lexemes that are skipped. -/
def isGap : LexemeClass → Bool
  | blank | comment => true
  | _ => false

end LexemeClass

/-- The error that a lexeme is. -/
def Lexeme.fault? (l : Lexeme) : Option ScanError :=
  match l.cls with
  | .unclosed => some (.unterminatedString l.span)
  | .stray => some (.unexpectedChar (l.text.headD default) l.span)
  | _ => none

theorem Lexeme.of_fault? {l : Lexeme} (h : l.fault? = some e) :
    e.span = l.span ∧ l.cls.isWord = false := by
  obtain ⟨cls, text, p⟩ := l
  cases cls <;> first | (cases h; exact ⟨rfl, rfl⟩) | cases h

/-- What is not skipped is a token or an error. -/
theorem Lexeme.isGap_eq_false {l : Lexeme} :
    l.cls.isGap = false ↔ l.cls.isWord = true ∨ l.fault?.isSome = true := by
  obtain ⟨cls, text, p⟩ := l
  cases cls <;> simp [LexemeClass.isGap, LexemeClass.isWord, fault?]

theorem Lexeme.isBlank_iff : isBlank c = true ↔ c ∈ [' ', '\t', '\r', '\n'] := by
  simp [isBlank, or_assoc]

namespace Scan

theorem errors_ofLexemes (names : Interner) (ls : List Lexeme) :
    (ofLexemes names ls).errors = ls.filterMap Lexeme.fault? := by
  induction ls generalizing names with
  | nil => rfl
  | cons l ls ih =>
    have hrest := ih (l.read names).2
    obtain ⟨cls, text, p⟩ := l
    cases cls with
    | unclosed | stray => exact congrArg (List.cons _) hrest
    | _ => exact hrest

theorem spans_ofLexemes (names : Interner) (ls : List Lexeme) :
    (ofLexemes names ls).tokens.map Token.span = (ls.filter (·.cls.isWord)).map Lexeme.span := by
  induction ls generalizing names with
  | nil => rfl
  | cons l ls ih =>
    have hrest := ih (l.read names).2
    obtain ⟨cls, text, p⟩ := l
    cases cls with
    | mark | word | number | string => exact congrArg (List.cons _) hrest
    | _ => exact hrest

end Scan

namespace Lexeme

variable {l m : Lexeme} {p : Position} {cs : List Char}

theorem span_apart (hl : l ∈ all p cs) (hm : m ∈ all p cs) (hne : l ≠ m) : l.span.Apart m.span := by
  have hall : (all p cs).Pairwise fun l m => l.span.Apart m.span := (pairwise_all p cs).imp Or.inl
  have hsymm : Std.Symm fun l m : Lexeme => l.span.Apart m.span := ⟨fun _ _ => Or.symm⟩
  exact hall.forall hl hm hne

theorem of_read_str (h : (l.read names).1 = .token (.str x)) : l.cls = .string := by
  obtain ⟨cls, text, p⟩ := l
  cases cls with
  | string => rfl
  | word =>
    have hword : (readWord names (String.ofList text)).1 = .str x := Reading.token.inj h
    unfold readWord at hword
    split at hword
    · cases hword
    · split at hword <;> cases hword
  | _ => cases h

/-- Nothing stands behind a string that is not closed. -/
theorem unclosed_last (h : all p cs = as ++ l :: bs) (hl : l.cls = .unclosed) : bs = [] := by
  have hcuts := (stands_of_append h).cuts
  rw [hl] at hcuts
  have hnone : texts bs = [] := by
    generalize texts bs = rest at hcuts ⊢
    generalize l.text = text at hcuts
    cases hcuts
    rfl
  have hbs := (all_eq_append (h.trans (List.append_cons as l bs))).2
  rw [hnone, all] at hbs
  exact hbs

end Lexeme

theorem Text.exists_char (h : i < byteLength cs) : ∃ before c after, cs = before ++ c :: after ∧
    byteLength before ≤ i ∧ i < byteLength before + c.utf8Size := by
  induction cs generalizing i with
  | nil => exact absurd h (Nat.not_lt_zero i)
  | cons c cs ih =>
    by_cases hi : i < c.utf8Size
    · exact ⟨[], c, cs, rfl, Nat.zero_le i, by simpa using hi⟩
    · rw [byteLength_cons] at h
      have hrest : i - c.utf8Size < byteLength cs := by omega
      obtain ⟨before, d, after, rfl, hstart, hstop⟩ := ih hrest
      refine ⟨c :: before, d, after, rfl, ?_, ?_⟩ <;>
      · rw [byteLength_cons]
        omega

namespace Scan

variable (names : Interner) (source : String)

theorem dropLast_scan : (scan names source).tokens.dropLast =
    (ofLexemes names (Lexeme.all .origin source.toList)).tokens :=
  List.dropLast_concat

theorem errors_scan : (scan names source).errors =
    (Lexeme.all .origin source.toList).filterMap Lexeme.fault? :=
  errors_ofLexemes names _

variable {names source}

theorem exists_word (h : t ∈ (scan names source).tokens.dropLast) :
    ∃ l ∈ Lexeme.all .origin source.toList, t.span = l.span ∧ l.cls.isWord = true := by
  have hspan : t.span ∈ (scan names source).tokens.dropLast.map Token.span := List.mem_map_of_mem h
  rw [dropLast_scan, spans_ofLexemes] at hspan
  obtain ⟨l, hl, hspan⟩ := List.mem_map.mp hspan
  obtain ⟨hmem, hword⟩ := List.mem_filter.mp hl
  exact ⟨l, hmem, hspan.symm, hword⟩

theorem exists_fault (h : e ∈ (scan names source).errors) :
    ∃ l ∈ Lexeme.all .origin source.toList, l.fault? = some e := by
  rw [errors_scan] at h
  exact List.mem_filterMap.mp h

theorem mem_spans (h : a ∈ (scan names source).spans) :
    ∃ l ∈ Lexeme.all .origin source.toList, a = l.span ∧ l.cls.isGap = false := by
  rcases List.mem_append.mp h with h | h
  · obtain ⟨t, ht, rfl⟩ := List.mem_map.mp h
    obtain ⟨l, hl, hspan, hword⟩ := exists_word ht
    exact ⟨l, hl, hspan, Lexeme.isGap_eq_false.mpr (.inl hword)⟩
  · obtain ⟨e, he, rfl⟩ := List.mem_map.mp h
    obtain ⟨l, hl, hfault⟩ := exists_fault he
    exact ⟨l, hl, (Lexeme.of_fault? hfault).1,
      Lexeme.isGap_eq_false.mpr (.inr (by rw [hfault]; rfl))⟩

theorem mem_spans_of_mem (hl : l ∈ Lexeme.all .origin source.toList) (h : l.cls.isGap = false) :
    l.span ∈ (scan names source).spans := by
  rw [spans, dropLast_scan, spans_ofLexemes, errors_scan, List.mem_append]
  rcases Lexeme.isGap_eq_false.mp h with h | h
  · exact .inl (List.mem_map_of_mem (List.mem_filter.mpr ⟨hl, h⟩))
  · obtain ⟨e, he⟩ := Option.isSome_iff_exists.mp h
    exact .inr (List.mem_map.mpr ⟨e, List.mem_filterMap.mpr ⟨l, hl, he⟩, (Lexeme.of_fault? he).1⟩)

variable (names source)

theorem pairwise_tokens :
    (scan names source).tokens.dropLast.Pairwise fun t u => t.span.stop ≤ u.span.start := by
  have hall := (Lexeme.pairwise_all .origin source.toList).filter (·.cls.isWord)
  rw [dropLast_scan, ← List.pairwise_map (R := fun a b : Span => a.stop ≤ b.start), spans_ofLexemes,
    List.pairwise_map]
  exact hall

theorem pairwise_errors :
    (scan names source).errors.Pairwise fun e f => e.span.stop ≤ f.span.start := by
  rw [errors_scan, List.pairwise_filterMap]
  refine (Lexeme.pairwise_all .origin source.toList).imp fun hlm e he f hf => ?_
  rw [(Lexeme.of_fault? he).1, (Lexeme.of_fault? hf).1]
  exact hlm

theorem pairwise_spans : (scan names source).spans.Pairwise Span.Apart := by
  refine List.pairwise_append.mpr ⟨?_, ?_, ?_⟩
  · exact List.pairwise_map.mpr ((pairwise_tokens names source).imp Or.inl)
  · exact List.pairwise_map.mpr ((pairwise_errors names source).imp Or.inl)
  · intro a ha b hb
    obtain ⟨t, ht, rfl⟩ := List.mem_map.mp ha
    obtain ⟨e, he, rfl⟩ := List.mem_map.mp hb
    obtain ⟨l, hl, hspan, hword⟩ := exists_word ht
    obtain ⟨m, hm, hfault⟩ := exists_fault he
    obtain ⟨hspan', hother⟩ := Lexeme.of_fault? hfault
    rw [hspan, hspan']
    refine Lexeme.span_apart hl hm ?_
    rintro rfl
    rw [hword] at hother
    cases hother

variable {names source}

/-- A byte outside of tokens and errors. -/
theorem blank_or_comment (hi : i < Text.byteLength source.toList)
    (hout : ∀ a ∈ (scan names source).spans, ¬ a.Covers i) :
    Text.BlankAt source.toList i ∨
      ∃ start stop, Text.CommentAt source.toList start stop ∧ start ≤ i ∧ i < stop ∧
        ∀ a ∈ (scan names source).spans, a.stop ≤ start ∨ stop ≤ a.start := by
  obtain ⟨l, hl, hstart, hstop⟩ := Lexeme.exists_covering .origin source.toList (Nat.zero_le i)
    (by simpa [Position.origin] using hi)
  obtain ⟨before, after, hstands⟩ := Lexeme.exists_stands hl
  have hsplit := hstands.split
  have hgap : l.cls.isGap = true :=
    Bool.of_not_eq_false fun h => hout _ (mem_spans_of_mem hl h) ⟨hstart, hstop⟩
  have hapart : ∀ a ∈ (scan names source).spans, a.stop ≤ l.span.start ∨ l.span.stop ≤ a.start := by
    intro a ha
    obtain ⟨m, hm, rfl, hother⟩ := mem_spans ha
    refine Lexeme.span_apart hm hl ?_
    rintro rfl
    cases hgap.symm.trans hother
  rw [hstands.origin_start] at hstart hapart
  rw [hstands.origin_stop] at hstop hapart
  have hcuts := hstands.cuts
  obtain ⟨cls, text, p⟩ := l
  dsimp only at hsplit hstop hapart
  cases hcuts with
  | @blank c run _ hc hrun =>
    have hall : ∀ x ∈ c :: run, Lexeme.isBlank x = true := List.forall_mem_cons.mpr ⟨hc, hrun⟩
    have hlt : i - Text.byteLength before < Text.byteLength (c :: run) := by omega
    obtain ⟨front, d, back, htext, hfront, hback⟩ := Text.exists_char hlt
    have hd : Lexeme.isBlank d = true := hall d (by simp [htext])
    refine .inl ⟨before ++ front, d, back ++ after, ?_, ?_, ?_, ?_⟩
    · rw [hsplit]
      simp [htext]
    · exact Lexeme.isBlank_iff.mp hd
    · rw [Text.byteLength_append]
      omega
    · rw [Text.byteLength_append]
      omega
  | @comment body _ hbody hend =>
    exact .inr ⟨_, _, ⟨before, body, after, hsplit, hbody, hend, rfl, rfl⟩, hstart, hstop, hapart⟩
  | _ => cases hgap

theorem unclosed_errors
    (h : (scan names source).errors = before ++ .unterminatedString a :: after) :
    after = [] ∧ ∃ ls l, Lexeme.all .origin source.toList = ls ++ [l] ∧ l.span = a ∧
      l.cls.isWord = false := by
  rw [errors_scan] at h
  obtain ⟨as, bs, hall, -, hbs⟩ := List.filterMap_eq_append_iff.mp h
  obtain ⟨cs, l, ds, rfl, -, hl, hds⟩ := List.filterMap_eq_cons_iff.mp hbs
  rw [← List.append_assoc] at hall
  have hcls : l.cls = .unclosed := by
    obtain ⟨cls, text, p⟩ := l
    cases cls <;> first | rfl | cases hl
  obtain rfl := Lexeme.unclosed_last hall hcls
  exact ⟨hds.symm, as ++ cs, l, hall, (Lexeme.of_fault? hl).1.symm, (Lexeme.of_fault? hl).2⟩

/-- What stands between the quotes of a string. -/
theorem slice?_contents (h : t ∈ (scan names source).tokens.dropLast) (hkind : t.kind = .str x) :
    (Text.slice? source.toList (t.span.start + 1) (t.span.stop - 1)).isSome = true := by
  rw [dropLast_scan] at h
  obtain ⟨l, hl, hspan, table, hread, -⟩ := exists_lexeme h
  obtain ⟨before, after, hstands⟩ := Lexeme.exists_stands hl
  have hcls : l.cls = .string := Lexeme.of_read_str (hread.trans (congrArg _ hkind))
  have hstart := hstands.origin_start
  have hstop := hstands.origin_stop
  have hsplit := hstands.split
  have hcuts := hstands.cuts
  rw [hcls] at hcuts
  generalize l.text = text at hcuts hstop hsplit
  cases hcuts with
  | @string body _ hbody =>
    have hquote : '"'.utf8Size = 1 := rfl
    have hwhole : source.toList = before ++ ['"'] ++ body ++ '"' :: after := by simp [hsplit]
    have hfrom : t.span.start + 1 = Text.byteLength (before ++ ['"']) := by
      simp [hspan, hstart, hquote]
    have hto : t.span.stop - 1 = Text.byteLength (before ++ ['"']) + Text.byteLength body := by
      simp only [hspan, hstop, Text.byteLength_append, Text.byteLength_cons,
        Text.byteLength_nil, hquote]
      omega
    rw [hfrom, hto, hwhole, Text.slice?_append]
    rfl

end Scan

/-- Scanning accounts for every byte of every text, with any table of names. -/
theorem scan_accounts_for_every_byte (names : Interner) (source : String) :
    (scan names source).Accounts source where
  nonempty a ha := by
    obtain ⟨l, hl, rfl, -⟩ := Scan.mem_spans ha
    obtain ⟨before, after, hstands⟩ := Lexeme.exists_stands hl
    exact hstands.span_lt
  bounded a ha := by
    obtain ⟨l, hl, rfl, -⟩ := Scan.mem_spans ha
    obtain ⟨before, after, hstands⟩ := Lexeme.exists_stands hl
    rw [hstands.chars?]
    rfl
  apart := Scan.pairwise_spans names source
  tokens := Scan.pairwise_tokens names source
  errors := Scan.pairwise_errors names source
  rest _ hi hout := Scan.blank_or_comment hi hout
  marked := by
    have hend := (Position.origin.after_eq source.toList).1
    rw [Position.origin, Nat.zero_add] at hend
    rw [Scan.dropLast_scan]
    exact ⟨Scan.ofLexemes_not_eof names _, Scan.endMark source, List.getLast?_concat,
      rfl, hend, hend⟩
  unclosed before a after h := by
    obtain ⟨rfl, ls, l, hall, rfl, hcls⟩ := Scan.unclosed_errors h
    have hstands := Lexeme.stands_of_append hall
    refine ⟨rfl, fun b hb => ?_, ?_, fun t ht => ?_⟩
    · obtain ⟨front, back, rfl⟩ := List.append_of_mem hb
      rw [List.append_assoc, List.cons_append] at h
      have hnil := (Scan.unclosed_errors h).1
      simp at hnil
    · have hsplit := congrArg Text.byteLength hstands.split
      rw [hstands.origin_stop, hsplit]
      simp [Lexeme.texts]
    · obtain ⟨m, hm, hspan, hword⟩ := Scan.exists_word ht
      have hpairs := Lexeme.pairwise_all .origin source.toList
      rw [hall] at hm hpairs
      rw [hspan]
      rcases List.mem_append.mp hm with hm | hm
      · exact (List.pairwise_append.mp hpairs).2.2 m hm l List.mem_cons_self
      · obtain rfl := List.mem_singleton.mp hm
        rw [hword] at hcls
        cases hcls
  contents _ ht _ hkind := Scan.slice?_contents ht hkind

end TreeWalk
