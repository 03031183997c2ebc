import TreeWalk.Proofs.Number.Nearest
import TreeWalk.Proofs.Scan.Account

/-!
# Words

The words of the language are given by a grammar (`Lexical`) that does not speak of scanning, and by
the kind of token that each of them is (`Means`). What is cut off a text is the longest word at its
front.
-/

namespace TreeWalk

/-- The symbol is that of the text, and it stands for the text as long as there are symbols for all
texts. -/
def Interner.Knows (names : Interner) (x : Symbol) (text : List Char) : Prop :=
  names.get? (String.ofList text) = some x ∧
    (names.size ≤ Symbol.bound → names.resolve? x = some (String.ofList text))

namespace Lexeme

/-- The text is a word of the class. -/
inductive Lexical : LexemeClass → List Char → Prop where
  | mark : m ≠ .underscore → Lexical (.mark m) m.text.toList
  | word : isWordStart c = true → (∀ x ∈ cs, isWordPart x = true) → Lexical .word (c :: cs)
  | whole : ds ≠ [] → (∀ x ∈ ds, isDigit x = true) → Lexical .number ds
  | pointed : ds ≠ [] → (∀ x ∈ ds, isDigit x = true) → es ≠ [] → (∀ x ∈ es, isDigit x = true) →
      Lexical .number (ds ++ '.' :: es)
  | string : '"' ∉ body → Lexical .string ('"' :: body ++ ['"'])

/-- The kind of token that a word of the class is. -/
inductive Means (names : Interner) : LexemeClass → List Char → TokenKind → Prop where
  | mark : m ≠ .underscore → Means names (.mark m) m.text.toList (.punct m)
  | underscore : Means names .word ['_'] (.punct .underscore)
  | keyword : Means names .word (Keyword.text w).toList (.keyword w)
  | ident : cs ≠ ['_'] → (∀ w : Keyword, cs ≠ w.text.toList) → names.Knows x cs →
      Means names .word cs (.ident x)
  | whole : (∀ c ∈ ds, isDigit c = true) → Number.Nearest (Number.digitsValue ds) 1 v →
      Means names .number ds (.number v)
  | pointed : (∀ c ∈ ds, isDigit c = true) → (∀ c ∈ es, isDigit c = true) →
      Number.Nearest (Number.digitsValue (ds ++ es)) (10 ^ es.length) v →
      Means names .number (ds ++ '.' :: es) (.number v)
  | string : names.Knows x body → Means names .string ('"' :: body ++ ['"']) (.str x)

/-- Some word starts the text. -/
def Starts (cs : List Char) : Prop :=
  ∃ k w, Lexical k w ∧ w <+: cs

end Lexeme

namespace Lexeme

/-! ## First characters -/

/-- How a word goes on behind its first character. -/
inductive Opens : Char → List Char → Prop where
  | word : isWordStart c = true → (∀ x ∈ cs, isWordPart x = true) → Opens c cs
  | whole : isDigit c = true → (∀ x ∈ cs, isDigit x = true) → Opens c cs
  | pointed : isDigit c = true → (∀ x ∈ ds, isDigit x = true) → (∀ x ∈ e :: es, isDigit x = true) →
      Opens c (ds ++ '.' :: e :: es)
  | string : '"' ∉ body → Opens '"' (body ++ ['"'])
  | single : Punct.ofChar? c = some m → Opens c []
  | pair : Punct.ofPair? c d = some m → Opens c [d]

theorem Lexical.opens (h : Lexical k w) : ∃ c cs, w = c :: cs ∧ Opens c cs := by
  cases h with
  | mark hm =>
    obtain ⟨c, htext, hc⟩ | ⟨c, d, htext, hpair⟩ := Punct.text_cases hm
    · exact ⟨c, [], htext, .single hc⟩
    · exact ⟨c, [d], htext, .pair hpair⟩
  | word hc hcs => exact ⟨_, _, rfl, .word hc hcs⟩
  | whole hne hds =>
    obtain ⟨c, cs, rfl⟩ := List.exists_cons_of_ne_nil hne
    obtain ⟨hc, hcs⟩ := List.forall_mem_cons.mp hds
    exact ⟨c, cs, rfl, .whole hc hcs⟩
  | pointed hne hds hne' hes =>
    obtain ⟨c, cs, rfl⟩ := List.exists_cons_of_ne_nil hne
    obtain ⟨e, es, rfl⟩ := List.exists_cons_of_ne_nil hne'
    obtain ⟨hc, hcs⟩ := List.forall_mem_cons.mp hds
    exact ⟨c, _, rfl, .pointed hc hcs hes⟩
  | string hbody => exact ⟨'"', _, rfl, .string hbody⟩

/-- A mark starts with a character that starts nothing else. -/
theorem free_of_ofChar? (h : Punct.ofChar? c = some m) :
    isWordStart c = false ∧ isDigit c = false ∧ c ≠ '"' := by
  unfold Punct.ofChar? at h
  split at h <;> cases h <;> decide

theorem ofChar?_of_ofPair? (h : Punct.ofPair? c d = some m) : ∃ m', Punct.ofChar? c = some m' := by
  unfold Punct.ofPair? at h
  split at h <;> cases h <;> exact ⟨_, rfl⟩

theorem free_of_ofPair? (h : Punct.ofPair? c d = some m) :
    isWordStart c = false ∧ isDigit c = false ∧ c ≠ '"' := by
  obtain ⟨m', hm'⟩ := ofChar?_of_ofPair? h
  exact free_of_ofChar? hm'

theorem text_of_ofChar? (h : Punct.ofChar? c = some m) : m.text.toList = [c] ∧ m ≠ .underscore := by
  unfold Punct.ofChar? at h
  split at h <;> cases h <;> exact ⟨rfl, by decide⟩

theorem text_of_ofPair? (h : Punct.ofPair? c d = some m) :
    m.text.toList = [c, d] ∧ m ≠ .underscore := by
  unfold Punct.ofPair? at h
  split at h <;> cases h <;> exact ⟨rfl, by decide⟩

namespace Opens

/-- What starts like a name goes on like one. -/
theorem of_wordStart (h : Opens c cs) (hc : isWordStart c = true) :
    ∀ x ∈ cs, isWordPart x = true := by
  have hdigit := isDigit_of_isWordStart hc
  cases h with
  | word _ hcs => exact hcs
  | whole hd | pointed hd => cases hdigit.symm.trans hd
  | string => cases hc
  | single hm => cases hc.symm.trans (free_of_ofChar? hm).1
  | pair hm => cases hc.symm.trans (free_of_ofPair? hm).1

theorem of_digit (h : Opens c cs) (hc : isDigit c = true) : (∀ x ∈ cs, isDigit x = true) ∨
    ∃ ds e es, cs = ds ++ '.' :: e :: es ∧ (∀ x ∈ ds, isDigit x = true) ∧
      ∀ x ∈ e :: es, isDigit x = true := by
  cases h with
  | word hw => cases (isDigit_of_isWordStart hw).symm.trans hc
  | whole _ hcs => exact .inl hcs
  | pointed _ hds hes => exact .inr ⟨_, _, _, rfl, hds, hes⟩
  | string => cases hc
  | single hm => cases hc.symm.trans (free_of_ofChar? hm).2.1
  | pair hm => cases hc.symm.trans (free_of_ofPair? hm).2.1

theorem of_quote (h : Opens '"' cs) : ∃ body, cs = body ++ ['"'] ∧ '"' ∉ body := by
  cases h with
  | word hw => cases hw
  | whole hd | pointed hd => cases hd
  | string hbody => exact ⟨_, rfl, hbody⟩
  | single hm => exact absurd rfl (free_of_ofChar? hm).2.2
  | pair hm => exact absurd rfl (free_of_ofPair? hm).2.2

theorem of_other (h : Opens c cs) (hfree : isWordStart c = false ∧ isDigit c = false ∧ c ≠ '"') :
    (cs = [] ∧ ∃ m, Punct.ofChar? c = some m) ∨ ∃ d m, cs = [d] ∧ Punct.ofPair? c d = some m := by
  obtain ⟨hword, hdigit, hquote⟩ := hfree
  cases h with
  | word hw => cases hword.symm.trans hw
  | whole hd | pointed hd => cases hdigit.symm.trans hd
  | string => exact absurd rfl hquote
  | single hm => exact .inl ⟨rfl, _, hm⟩
  | pair hm => exact .inr ⟨_, _, rfl, hm⟩

end Opens

/-! ## Longest words -/

/-- A run of characters of one sort goes no further than the longest one. -/
theorem length_le_of_run {p : Char → Bool} {cs run rest : List Char} (hcs : ∀ x ∈ cs, p x = true)
    (hrest : ∀ x ∈ rest.head?, p x = false) (h : cs <+: run ++ rest) : cs.length ≤ run.length := by
  rcases List.prefix_or_prefix_of_prefix h (List.prefix_append run rest) with hshort | ⟨more, rfl⟩
  · exact hshort.length_le
  · have hmore : more <+: rest := (List.prefix_append_right_inj run).mp h
    cases more with
    | nil => simp
    | cons x more =>
      obtain ⟨tail, rfl⟩ := hmore
      cases (hcs x (by simp)).symm.trans (hrest x rfl)

/-- Where a run of characters of one sort ends is told by the text. -/
theorem run_unique {p : Char → Bool} {cs ds run rest : List Char} (hcs : ∀ x ∈ cs, p x = true)
    (hds : ∀ x ∈ ds.head?, p x = false) (hrun : ∀ x ∈ run, p x = true)
    (hrest : ∀ x ∈ rest.head?, p x = false) (h : cs ++ ds = run ++ rest) :
    cs = run ∧ ds = rest := by
  obtain ⟨htake, hdrop⟩ := takeWhile_append_stop ds hcs hds
  obtain ⟨htake', hdrop'⟩ := takeWhile_append_stop rest hrun hrest
  rw [h] at htake hdrop
  exact ⟨htake.symm.trans htake', hdrop.symm.trans hdrop'⟩

theorem string_unique {body body' rest : List Char} (hbody : '"' ∉ body) (hbody' : '"' ∉ body')
    (h : body' ++ ['"'] <+: body ++ '"' :: rest) : body' = body := by
  have hall : ∀ {cs : List Char}, '"' ∉ cs → ∀ x ∈ cs, (x != '"') = true := fun hcs x hx =>
    bne_iff_ne.mpr fun heq => hcs (heq ▸ hx)
  obtain ⟨tail, h⟩ := h
  rw [List.append_assoc, List.singleton_append] at h
  exact (run_unique (hall hbody') (by simp) (hall hbody) (by simp) h).1

theorem pointed_unique {ds run rest : List Char} (hds : ∀ x ∈ ds, isDigit x = true)
    (hrun : ∀ x ∈ run, isDigit x = true) (hrest : ∀ x ∈ rest.head?, isDigit x = false)
    (h : ds ++ '.' :: es <+: run ++ rest) :
    ds = run ∧ '.' :: es <+: rest := by
  obtain ⟨tail, h⟩ := h
  rw [List.append_assoc] at h
  obtain ⟨rfl, hrest⟩ := run_unique hds (by simp [isDigit]) hrun hrest h
  exact ⟨rfl, tail, hrest⟩

/-- What is cut off is a word if a word can be cut off, and then it is the longest. -/
theorem Cuts.longest (h : Cuts ⟨k, cs, rest⟩) (hgap : k.isGap = false) (hw : Lexical k' w)
    (hfront : w <+: cs ++ rest) :
    k.isWord = true ∧ w.length ≤ cs.length := by
  obtain ⟨c, ds, rfl, hopens⟩ := hw.opens
  cases h with
  | blank | comment => cases hgap
  | string hbody =>
    rw [List.append_assoc, List.singleton_append, List.cons_append] at hfront
    obtain ⟨rfl, hds⟩ := List.cons_prefix_cons.mp hfront
    obtain ⟨body', rfl, hbody'⟩ := hopens.of_quote
    rw [string_unique hbody hbody' hds]
    exact ⟨rfl, Nat.le_refl _⟩
  | unclosed hbody =>
    rw [List.append_nil] at hfront
    obtain ⟨rfl, hds⟩ := List.cons_prefix_cons.mp hfront
    obtain ⟨body', rfl, -⟩ := hopens.of_quote
    exact absurd (hds.subset (by simp)) hbody
  | whole hrun hrest hpoint =>
    obtain ⟨rfl, hds⟩ := List.cons_prefix_cons.mp hfront
    obtain ⟨hc, hrun⟩ := List.forall_mem_cons.mp hrun
    refine ⟨rfl, Nat.succ_le_succ ?_⟩
    obtain hdigits | ⟨whole, e, es, rfl, hwhole, hes⟩ := hopens.of_digit hc
    · exact length_le_of_run hdigits hrest hds
    · obtain ⟨-, tail, hrest⟩ := pointed_unique hwhole hrun hrest hds
      cases (hpoint e _ hrest.symm).symm.trans (hes e List.mem_cons_self)
  | pointed hrun hfraction hrest =>
    rw [List.append_assoc] at hfront
    obtain ⟨rfl, hds⟩ := List.cons_prefix_cons.mp hfront
    obtain ⟨hc, hrun⟩ := List.forall_mem_cons.mp hrun
    refine ⟨rfl, Nat.succ_le_succ ?_⟩
    rw [List.append_eq, List.length_append]
    obtain hdigits | ⟨whole, e, es, rfl, hwhole, hes⟩ := hopens.of_digit hc
    · exact Nat.le_add_right_of_le (length_le_of_run hdigits (by simp [isDigit]) hds)
    · obtain ⟨rfl, hes'⟩ := pointed_unique hwhole hrun (by simp [isDigit]) hds
      have hlength := length_le_of_run hes hrest (List.cons_prefix_cons.mp hes').2
      rw [List.length_append]
      exact Nat.add_le_add_left (Nat.succ_le_succ hlength) _
  | word hc hrun hrest =>
    obtain ⟨rfl, hds⟩ := List.cons_prefix_cons.mp hfront
    exact ⟨rfl, Nat.succ_le_succ (length_le_of_run (hopens.of_wordStart hc) hrest hds)⟩
  | pair hm =>
    obtain ⟨rfl, hds⟩ := List.cons_prefix_cons.mp hfront
    obtain ⟨rfl, -⟩ | ⟨d, m, rfl, -⟩ :=
      hopens.of_other (free_of_ofPair? hm) <;> exact ⟨rfl, by simp⟩
  | single hm hpair =>
    obtain ⟨rfl, hds⟩ := List.cons_prefix_cons.mp hfront
    obtain ⟨rfl, -⟩ | ⟨d, m, rfl, hm'⟩ := hopens.of_other (free_of_ofChar? hm)
    · exact ⟨rfl, Nat.le_refl _⟩
    · obtain ⟨tail, rfl⟩ := hds
      cases (hpair d rfl).symm.trans hm'
  | stray hnone hblank hquote hdigit hword hpair =>
    obtain ⟨rfl, hds⟩ := List.cons_prefix_cons.mp hfront
    obtain ⟨-, m, hm⟩ | ⟨d, m, rfl, hm⟩ := hopens.of_other ⟨hword, hdigit, hquote⟩
    · cases hnone.symm.trans hm
    · obtain ⟨tail, rfl⟩ := hds
      cases (hpair d rfl).symm.trans hm

theorem Cuts.lexical (h : Cuts ⟨k, cs, rest⟩) (hword : k.isWord = true) : Lexical k cs := by
  cases h with
  | blank | comment | unclosed | stray => cases hword
  | string hbody => exact .string hbody
  | whole hrun => exact .whole (List.cons_ne_nil _ _) hrun
  | pointed hrun hfraction =>
    exact .pointed (List.cons_ne_nil _ _) hrun (List.cons_ne_nil _ _) hfraction
  | word hc hrun => exact .word hc hrun
  | pair hm =>
    obtain ⟨htext, hne⟩ := text_of_ofPair? hm
    exact htext ▸ .mark hne
  | single hm =>
    obtain ⟨htext, hne⟩ := text_of_ofChar? hm
    exact htext ▸ .mark hne

/-! ## Kinds -/

theorem knows_of_get? {names : Interner} (h : names.get? (String.ofList cs) = some x) :
    names.Knows x cs :=
  ⟨h, Interner.resolve?_of_get? h⟩

theorem ofText?_eq_none (h : Keyword.ofText? (String.ofList cs) = none) (w : Keyword) :
    cs ≠ w.text.toList := by
  rintro rfl
  have hmem : w ∈ Keyword.all := by cases w <;> decide
  simpa using List.find?_eq_none.mp h w hmem

theorem means_readWord (hwithin : (readWord table (String.ofList cs)).2.Within names) :
    Means names .word cs (readWord table (String.ofList cs)).1 := by
  by_cases hlone : String.ofList cs = "_"
  · have hcs : cs = ['_'] := by rw [← String.toList_ofList (l := cs), hlone]; rfl
    subst hcs
    exact .underscore
  · cases hword : Keyword.ofText? (String.ofList cs) with
    | some w =>
      have hfound := List.find?_some hword
      have htext : w.text = String.ofList cs := eq_of_beq hfound
      have hread : readWord table (String.ofList cs) = (.keyword w, table) := by
        simp [readWord, hlone, hword]
      have hcs : cs = w.text.toList := by rw [htext, String.toList_ofList]
      rw [hread, hcs]
      exact .keyword
    | none =>
      have hread : readWord table (String.ofList cs) =
          (.ident (table.intern (String.ofList cs)).1, (table.intern (String.ofList cs)).2) := by
        simp [readWord, hlone, hword]
      rw [hread] at hwithin ⊢
      refine .ident ?_ (ofText?_eq_none hword)
        (knows_of_get? (hwithin (Interner.get?_intern table _)))
      rintro rfl
      exact hlone rfl

/-- A lexeme is read as the word it is. -/
theorem Cuts.means {l : Lexeme} (h : Cuts ⟨l.cls, l.text, rest⟩)
    (hread : (l.read table).1 = .token kind) (hwithin : (l.read table).2.Within names) :
    Means names l.cls l.text kind := by
  obtain ⟨cls, text, p⟩ := l
  cases h with
  | blank | comment | unclosed | stray => cases hread
  | @string body _ _ =>
    have hcontents : contents ('"' :: body ++ ['"']) = body := by simp [contents]
    obtain rfl : .str (table.intern (String.ofList (contents ('"' :: body ++ ['"'])))).1 = kind :=
      Reading.token.inj hread
    have hget :=
      hwithin (Interner.get?_intern table (String.ofList (contents ('"' :: body ++ ['"']))))
    rw [hcontents] at hget ⊢
    exact .string (knows_of_get? hget)
  | @whole c run _ hrun =>
    cases hread
    have hnear := Number.nearest_ofDigits (c :: run) []
    rw [← numberValue_pointed hrun, List.append_nil] at hnear
    exact .whole hrun hnear
  | @pointed c run d fraction _ hrun hfraction =>
    cases hread
    have hnear := Number.nearest_ofDigits (c :: run) (d :: fraction)
    rw [← numberValue_pointed hrun] at hnear
    exact .pointed hrun hfraction hnear
  | word =>
    cases hread
    exact means_readWord hwithin
  | pair hm =>
    cases hread
    obtain ⟨htext, hne⟩ := text_of_ofPair? hm
    exact htext ▸ .mark hne
  | single hm =>
    cases hread
    obtain ⟨htext, hne⟩ := text_of_ofChar? hm
    exact htext ▸ .mark hne

theorem keyword_ne_underscore (w : Keyword) : w.text.toList ≠ ['_'] := by
  cases w <;> decide

/-- What starts like a name is a name or a reserved word. -/
theorem Lexical.of_wordStart (h : Lexical k w) (hw : w = c :: cs) (hc : isWordStart c = true) :
    k = .word := by
  have hdigit := isDigit_of_isWordStart hc
  cases h with
  | word => rfl
  | mark hm =>
    obtain ⟨c', htext, hm⟩ | ⟨c', d, htext, hm⟩ := Punct.text_cases hm
    · obtain ⟨rfl, -⟩ := List.cons.inj (htext.symm.trans hw)
      cases hc.symm.trans (free_of_ofChar? hm).1
    · obtain ⟨rfl, -⟩ := List.cons.inj (htext.symm.trans hw)
      cases hc.symm.trans (free_of_ofPair? hm).1
  | whole _ hds => cases hdigit.symm.trans (hds c (by simp [hw]))
  | @pointed ds _ hne hds =>
    obtain ⟨d, ds, rfl⟩ := List.exists_cons_of_ne_nil hne
    obtain ⟨rfl, -⟩ := List.cons.inj hw
    cases hdigit.symm.trans (hds d List.mem_cons_self)
  | string =>
    obtain ⟨rfl, -⟩ := List.cons.inj hw
    cases hc

namespace Means

variable {names : Interner} {k : LexemeClass} {cs : List Char} {kind : TokenKind}

theorem keyword_iff (h : Means names k cs kind) (hl : Lexical k cs) :
    (∃ w, kind = .keyword w) ↔ ∃ w : Keyword, cs = w.text.toList := by
  constructor
  · rintro ⟨w, rfl⟩
    cases h
    exact ⟨w, rfl⟩
  · rintro ⟨w, hcs⟩
    obtain ⟨c, ds, htext, hc, -⟩ := w.text_word
    obtain rfl := hl.of_wordStart (hcs.trans htext) hc
    cases h with
    | underscore => exact absurd hcs.symm (keyword_ne_underscore w)
    | @keyword w => exact ⟨w, rfl⟩
    | ident _ hne => exact absurd hcs (hne w)

theorem underscore_iff (h : Means names k cs kind) (hl : Lexical k cs) :
    kind = .punct .underscore ↔ cs = ['_'] := by
  constructor
  · rintro rfl
    cases h with
    | mark hm => exact absurd rfl hm
    | underscore => rfl
  · intro hcs
    obtain rfl := hl.of_wordStart hcs rfl
    cases h with
    | underscore => rfl
    | @keyword w => exact absurd hcs (keyword_ne_underscore w)
    | ident hne => exact absurd hcs hne

theorem isNaN_eq_false (h : Means names k cs (.number v)) : v.isNaN = false := by
  cases h with
  | whole _ hnear | pointed _ _ hnear =>
    obtain ⟨m, rfl, -⟩ := hnear
    exact Number.isNaN_ofMagnitude m

end Means

end Lexeme

end TreeWalk
