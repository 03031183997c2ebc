import TreeWalk.Proofs.Scan.Join

/-!
# Lexemes one behind the other

The lexemes of a text stand one behind the other with nothing between them. So each of them has its
place in the text, which its span tells, and each byte of the text belongs to one of them.
-/

namespace TreeWalk

/-! ## Bytes -/

namespace Text

@[simp]
theorem byteLength_nil : byteLength [] = 0 := rfl

@[simp]
theorem byteLength_append (cs ds : List Char) :
    byteLength (cs ++ ds) = byteLength cs + byteLength ds := by
  induction ds using List.reverseRecOn with
  | nil => simp
  | append_singleton ds d ih =>
    rw [← List.append_assoc, byteLength_concat, byteLength_concat, ih, Nat.add_assoc]

@[simp]
theorem byteLength_cons (c : Char) (cs : List Char) :
    byteLength (c :: cs) = c.utf8Size + byteLength cs := by
  rw [← List.singleton_append, byteLength_append, ← List.nil_append [c], byteLength_concat]
  simp

theorem byteLength_pos (h : cs ≠ []) : 0 < byteLength cs := by
  cases cs with
  | nil => exact absurd rfl h
  | cons c cs =>
    have hc := c.utf8Size_pos
    rw [byteLength_cons]
    omega

theorem splitAtByte?_append (cs ds : List Char) :
    splitAtByte? (byteLength cs) (cs ++ ds) = some (cs, ds) := by
  induction cs with
  | nil => cases ds <;> rfl
  | cons c cs ih =>
    obtain ⟨n, hn⟩ := Nat.exists_eq_add_one.mpr (byteLength_pos (List.cons_ne_nil c cs))
    have hlength : n + 1 = c.utf8Size + byteLength cs := hn.symm.trans (byteLength_cons c cs)
    have hrest : n + 1 - c.utf8Size = byteLength cs := by omega
    rw [hn, List.cons_append, splitAtByte?, if_pos (by omega), hrest, ih]
    rfl

theorem slice?_append (before text after : List Char) :
    slice? (before ++ text ++ after) (byteLength before) (byteLength before + byteLength text) =
      some text := by
  rw [slice?, if_pos (Nat.le_add_right _ _), List.append_assoc, splitAtByte?_append,
    Nat.add_sub_cancel_left]
  simp [splitAtByte?_append]

end Text

namespace Lexeme

/-! ## One lexeme -/

/-- What is cut off the front of a text, and what follows. -/
inductive Cuts : Cut → Prop where
  | blank : isBlank c = true → (∀ x ∈ run, isBlank x = true) → Cuts ⟨.blank, c :: run, rest⟩
  | comment : '\n' ∉ body → (∀ x ∈ rest.head?, x = '\n') → Cuts ⟨.comment, '/' :: '/' :: body, rest⟩
  | string : '"' ∉ body → Cuts ⟨.string, '"' :: body ++ ['"'], rest⟩
  | unclosed : '"' ∉ body → Cuts ⟨.unclosed, '"' :: body, []⟩
  | whole : (∀ x ∈ c :: run, isDigit x = true) → (∀ x ∈ rest.head?, isDigit x = false) →
      (∀ x more, rest = '.' :: x :: more → isDigit x = false) → Cuts ⟨.number, c :: run, rest⟩
  | pointed : (∀ x ∈ c :: run, isDigit x = true) → (∀ x ∈ d :: fraction, isDigit x = true) →
      (∀ x ∈ rest.head?, isDigit x = false) → Cuts ⟨.number, c :: run ++ '.' :: d :: fraction, rest⟩
  | word : isWordStart c = true → (∀ x ∈ run, isWordPart x = true) →
      (∀ x ∈ rest.head?, isWordPart x = false) → Cuts ⟨.word, c :: run, rest⟩
  | pair : Punct.ofPair? c d = some m → Cuts ⟨.mark m, [c, d], rest⟩
  | single : Punct.ofChar? c = some m → (∀ d ∈ rest.head?, Punct.ofPair? c d = none) →
      (c = '/' → rest.head? ≠ some '/') → Cuts ⟨.mark m, [c], rest⟩
  | stray : Punct.ofChar? c = none → isBlank c = false → c ≠ '"' → isDigit c = false →
      isWordStart c = false → (∀ d ∈ rest.head?, Punct.ofPair? c d = none) →
      Cuts ⟨.stray, [c], rest⟩

theorem head?_dropWhile (p : Char → Bool) (cs : List Char) :
    ∀ x ∈ (cs.dropWhile p).head?, p x = false := by
  intro x hx
  have hnot := List.head?_dropWhile_not p cs
  rw [hx] at hnot
  simpa using hnot

theorem mem_takeWhile {p : Char → Bool} {cs : List Char} : ∀ x ∈ cs.takeWhile p, p x = true :=
  fun x hx => List.all_eq_true.mp List.all_takeWhile x hx

theorem cuts_string (cs : List Char) : Cuts (cutString '"' cs) := by
  have hbody : '"' ∉ cs.takeWhile (· != '"') := fun h => by simpa using mem_takeWhile _ h
  have hrest := head?_dropWhile (· != '"') cs
  unfold cutString
  generalize cs.dropWhile (· != '"') = rest at hrest
  cases rest with
  | nil => exact .unclosed hbody
  | cons quote rest =>
    obtain rfl : quote = '"' := by simpa using hrest quote rfl
    exact .string hbody

theorem cuts_number (hc : isDigit c = true) (cs : List Char) : Cuts (cutNumber c cs) := by
  have hrun : ∀ x ∈ c :: cs.takeWhile isDigit, isDigit x = true :=
    List.forall_mem_cons.mpr ⟨hc, mem_takeWhile⟩
  by_cases hpoint : ∃ d rest, cs.dropWhile isDigit = '.' :: d :: rest ∧ isDigit d = true
  · obtain ⟨d, rest, hcs, hd⟩ := hpoint
    rw [cutNumber_of_point hcs hd]
    exact .pointed hrun (List.forall_mem_cons.mpr ⟨hd, mem_takeWhile⟩)
      (head?_dropWhile isDigit rest)
  · have hno : ∀ d rest, cs.dropWhile isDigit = '.' :: d :: rest → isDigit d = false :=
      fun d rest hcs => Bool.eq_false_iff.mpr fun hd => hpoint ⟨d, rest, hcs, hd⟩
    rw [cutNumber_of_no_point hno]
    exact .whole hrun (head?_dropWhile isDigit cs) hno

theorem cuts_mark (hblank : isBlank c = false) (hcomment : c = '/' → cs.head? ≠ some '/')
    (hquote : c ≠ '"') (hdigit : isDigit c = false) (hword : isWordStart c = false) :
    Cuts (cutMark c cs) := by
  have hchar : (∀ d ∈ cs.head?, Punct.ofPair? c d = none) → Cuts (cutChar c cs) := by
    intro hpair
    unfold cutChar
    split
    · next hm => exact .single hm hpair hcomment
    · next hm => exact .stray hm hblank hquote hdigit hword hpair
  cases cs with
  | nil => exact hchar fun _ hd => absurd hd (by simp)
  | cons d cs =>
    rw [cutMark]
    split
    · next hm => exact .pair hm
    · next hm =>
      refine hchar fun x hx => ?_
      obtain rfl : d = x := Option.some.inj hx
      exact hm

theorem cuts_cut (c : Char) (cs : List Char) : Cuts (cut c cs) := by
  unfold cut
  split
  · next hc => exact .blank hc mem_takeWhile
  · next hblank =>
    split
    · next hslash =>
      obtain ⟨hc, hcs⟩ := Bool.and_eq_true_iff.mp hslash
      obtain rfl := eq_of_beq hc
      cases cs with
      | nil => cases hcs
      | cons d cs =>
        obtain rfl : d = '/' := by simpa using hcs
        refine .comment (fun h => ?_) fun x hx => ?_
        · simpa using mem_takeWhile _ h
        · simpa using head?_dropWhile (· != '\n') cs x hx
    · next hslash =>
      split
      · next hquote =>
        obtain rfl := eq_of_beq hquote
        exact cuts_string cs
      · next hquote =>
        split
        · next hdigit => exact cuts_number hdigit cs
        · next hdigit =>
          split
          · next hword => exact .word hword mem_takeWhile (head?_dropWhile isWordPart cs)
          · next hword =>
            refine cuts_mark (Bool.eq_false_iff.mpr hblank) ?_ ?_ (Bool.eq_false_iff.mpr hdigit)
              (Bool.eq_false_iff.mpr hword)
            · rintro rfl hcs
              simp [hcs] at hslash
            · rintro rfl
              simp at hquote

/-! ## All lexemes -/

/-- The text of lexemes that stand one behind the other. -/
def texts (ls : List Lexeme) : List Char :=
  ls.flatMap text

theorem texts_append (as bs : List Lexeme) : texts (as ++ bs) = texts as ++ texts bs :=
  List.flatMap_append

theorem texts_all (p : Position) (cs : List Char) : texts (all p cs) = cs := by
  induction p, cs using all.induct with
  | case1 p => rw [all]; rfl
  | case2 p c cs found ih =>
    rw [all]
    change found.text ++ texts (all (p.after found.text) found.rest) = c :: cs
    rw [ih]
    exact cut_append c cs

/-- Behind some of the lexemes of a text stand the lexemes of the rest. -/
theorem all_eq_append (h : all p cs = as ++ bs) :
    cs = texts as ++ texts bs ∧ bs = all (p.after (texts as)) (texts bs) := by
  induction as generalizing p cs with
  | nil =>
    rw [List.nil_append] at h
    subst h
    exact ⟨(texts_all p cs).symm, by rw [texts_all]; rfl⟩
  | cons a as ih =>
    cases cs with
    | nil =>
      rw [all] at h
      cases h
    | cons c cs =>
      rw [all] at h
      obtain ⟨rfl, hrest⟩ := List.cons.inj h
      obtain ⟨htext, hall⟩ := ih hrest
      have hwhole := cut_append c cs
      rw [htext] at hwhole
      refine ⟨?_, ?_⟩
      · rw [← hwhole, ← List.append_assoc]
        rfl
      · rw [hall, ← Position.after_append]
        exact congrArg _ (texts_all _ _).symm

/-- The lexeme `l` is cut off a text that starts at `p`, with `before` in front of it and `after`
behind it. -/
structure Stands (p : Position) (cs : List Char) (l : Lexeme)
    (before after : List Char) : Prop where
  split : cs = before ++ l.text ++ after
  start : l.start = p.after before
  cut : ∃ c ds, l.text ++ after = c :: ds ∧ Lexeme.cut c ds = ⟨l.cls, l.text, after⟩

theorem stands_of_append (h : all p cs = as ++ l :: bs) : Stands p cs l (texts as) (texts bs) := by
  obtain ⟨htext, hall⟩ := all_eq_append h
  have hwhole : texts (l :: bs) = l.text ++ texts bs := rfl
  rw [hwhole] at htext hall
  cases hcs : l.text ++ texts bs with
  | nil =>
    rw [hcs, all] at hall
    cases hall
  | cons c ds =>
    rw [hcs, all] at hall
    obtain ⟨rfl, hbs⟩ := List.cons.inj hall
    refine ⟨by rw [htext, List.append_assoc], rfl, c, ds, hcs, ?_⟩
    have hrest : texts bs = (Lexeme.cut c ds).rest := by rw [hbs, texts_all]
    rw [hrest]

theorem exists_stands (h : l ∈ all p cs) : ∃ before after, Stands p cs l before after := by
  obtain ⟨as, bs, h⟩ := List.append_of_mem h
  exact ⟨_, _, stands_of_append h⟩

namespace Stands

variable {before after : List Char}

theorem cuts (h : Stands p cs l before after) : Cuts ⟨l.cls, l.text, after⟩ := by
  obtain ⟨c, ds, -, hcut⟩ := h.cut
  rw [← hcut]
  exact cuts_cut c ds

theorem ne_nil (h : Stands p cs l before after) : l.text ≠ [] := by
  obtain ⟨c, ds, -, hcut⟩ := h.cut
  have htext := cut_text_ne_nil c ds
  rw [hcut] at htext
  exact htext

theorem span_start (h : Stands p cs l before after) :
    l.span.start = p.offset + Text.byteLength before := by
  change l.start.offset = _
  rw [h.start, (p.after_eq before).1]

theorem span_stop (h : Stands p cs l before after) :
    l.span.stop = p.offset + Text.byteLength before + Text.byteLength l.text := by
  change l.span.start + Text.byteLength l.text = _
  rw [h.span_start]

/-- In a whole text, spans count from the first byte. -/
theorem origin_start (h : Stands .origin cs l before after) :
    l.span.start = Text.byteLength before :=
  h.span_start.trans (Nat.zero_add _)

theorem origin_stop (h : Stands .origin cs l before after) :
    l.span.stop = Text.byteLength before + Text.byteLength l.text := by
  rw [h.span_stop]
  exact congrArg (· + _) (Nat.zero_add _)

theorem span_lt (h : Stands p cs l before after) : l.span.start < l.span.stop :=
  Nat.lt_add_of_pos_right (Text.byteLength_pos h.ne_nil)

/-- The text of a lexeme is what its span covers. -/
theorem chars? {source : String} (h : Stands .origin source.toList l before after) :
    l.span.chars? source = some l.text := by
  have hslice := Text.slice?_append before l.text after
  rw [← h.split] at hslice
  rw [Span.chars?, h.origin_start, h.origin_stop]
  exact hslice

end Stands

/-- Each lexeme ends where the next one starts. -/
theorem pairwise_all (p : Position) (cs : List Char) :
    (all p cs).Pairwise fun l m => l.span.stop ≤ m.span.start := by
  induction p, cs using all.induct with
  | case1 p => rw [all]; exact .nil
  | case2 p c cs found ih =>
    rw [all]
    refine .cons (fun m hm => ?_) ih
    obtain ⟨before, after, hstands⟩ := exists_stands hm
    rw [hstands.span_start, (p.after_eq found.text).1]
    exact Nat.le_add_right _ _

/-- Every byte belongs to a lexeme. -/
theorem exists_covering (p : Position) (cs : List Char) (hstart : p.offset ≤ i)
    (hstop : i < p.offset + Text.byteLength cs) :
    ∃ l ∈ all p cs, l.span.start ≤ i ∧ i < l.span.stop := by
  induction p, cs using all.induct with
  | case1 p => simp at hstop; omega
  | case2 p c cs found ih =>
    rw [all]
    have hoffset := (p.after_eq found.text).1
    have hlength : Text.byteLength (c :: cs) = Text.byteLength found.text +
        Text.byteLength found.rest := by
      rw [← Text.byteLength_append, ← cut_append c cs]
    by_cases hi : i < p.offset + Text.byteLength found.text
    · exact ⟨_, List.mem_cons_self, hstart, hi⟩
    · obtain ⟨l, hl, hcovers⟩ := ih (by omega) (by omega)
      exact ⟨l, List.mem_cons_of_mem _ hl, hcovers⟩

end Lexeme

/-! ## Tokens -/

/-- A token is read from a lexeme, with some table of names. -/
theorem Scan.exists_lexeme {names : Interner} (h : t ∈ (ofLexemes names ls).tokens) :
    ∃ l ∈ ls, t.span = l.span ∧ ∃ table, (l.read table).1 = .token t.kind ∧
      (l.read table).2.Within (ofLexemes names ls).names := by
  induction ls generalizing names with
  | nil => exact absurd h List.not_mem_nil
  | cons l ls ih =>
    have hnames := (ofLexemes_cons names l ls).1
    have hrest : t ∈ (ofLexemes (l.read names).2 ls).tokens → ∃ m ∈ l :: ls, t.span = m.span ∧
        ∃ table, (m.read table).1 = .token t.kind ∧
          (m.read table).2.Within (ofLexemes names (l :: ls)).names := by
      intro ht
      obtain ⟨m, hm, hread⟩ := ih ht
      rw [hnames]
      exact ⟨m, List.mem_cons_of_mem l hm, hread⟩
    simp only [ofLexemes] at h
    split at h
    · exact hrest h
    · next kind hread =>
      rcases List.mem_cons.mp h with rfl | ht
      · refine ⟨l, List.mem_cons_self, rfl, names, hread, ?_⟩
        rw [hnames]
        exact within_ofLexemes _ ls
      · exact hrest ht
    · exact hrest h

end TreeWalk
