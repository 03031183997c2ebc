import TreeWalk.Proofs.Interner.Faithful

/-!
# Where symbols run out

A table takes any number of texts, but a symbol is a word. The text at the last place that a word
can number gets the symbol that should stand for no text (`New.intern_eq_invalid_iff`). Each new
text behind it gets a symbol that was given to another before, and no earlier text does
(`New.given_before_iff`).
-/

namespace TreeWalk

namespace Symbol

variable {n : Nat}

theorem ofIndex_of_lt (h : n < bound) : ofIndex n = ⟨n⟩ := by
  rw [ofIndex, if_pos h]

theorem ofIndex_of_le (h : bound ≤ n) : ofIndex n = ⟨bound - 2⟩ := by
  rw [ofIndex, if_neg (Nat.not_lt.mpr h)]

theorem ofIndex_eq_invalid_iff : ofIndex n = invalid ↔ n = bound - 1 := by
  have hbound : bound = 4294967296 := rfl
  rcases Nat.lt_or_ge n bound with h | h
  · rw [ofIndex_of_lt h, invalid, mk.injEq]
  · rw [ofIndex_of_le h, invalid, mk.injEq]
    omega

theorem exists_ofIndex_eq_iff : (∃ i < n, ofIndex i = ofIndex n) ↔ bound ≤ n := by
  have hbound : bound = 4294967296 := rfl
  constructor
  · rintro ⟨i, hi, heq⟩
    refine Nat.le_of_not_lt fun hn => ?_
    rw [ofIndex_of_lt hn, ofIndex_of_lt (Nat.lt_trans hi hn), mk.injEq] at heq
    omega
  · intro hn
    exact ⟨bound - 2, by omega, by rw [ofIndex_of_lt (by omega), ofIndex_of_le hn]⟩

end Symbol

namespace Interner

variable {t : Interner} {words : List String} {text : String} {s : Symbol} {calls : List Call}

/-- The symbol was handed out for the text: the table started with it, or it was the answer to one
of the calls. -/
def Given (t : Interner) (calls : List Call) (text : String) (s : Symbol) : Prop :=
  t.get? text = some s ∨
    ∃ front back, calls = front ++ .intern text :: back ∧ ((t.after front).intern text).1 = s

/-! ## Symbols by place -/

theorem get?_eq_some_iff_place (hnodup : t.texts.toList.Nodup) :
    t.get? text = some s ↔ ∃ i, t.texts.toList[i]? = some text ∧ Symbol.ofIndex i = s := by
  have hplace : ∀ i, t.texts.findIdx? (· == text) = some i ↔ t.texts.toList[i]? = some text := by
    intro i
    rw [Array.findIdx?_eq_some_iff_getElem, Array.getElem?_toList, Array.getElem?_eq_some_iff]
    constructor
    · rintro ⟨hi, htext, -⟩
      exact ⟨hi, eq_of_beq htext⟩
    · rintro ⟨hi, rfl⟩
      -- The search stops at the first place of the text, and there is no second.
      refine ⟨hi, beq_self_eq_true _, fun j hj htext => ?_⟩
      have hsame : t.texts.toList[j]? = t.texts.toList[i]? := by
        simp [hi, Nat.lt_trans hj hi, eq_of_beq htext]
      have hji : j = i := (List.getElem?_inj (by simpa using Nat.lt_trans hj hi) hnodup).mp hsame
      omega
  rw [t.coherent text]
  simp only [Option.map_eq_some_iff, hplace]

theorem after_append (t : Interner) (front back : List Call) :
    t.after (front ++ back) = (t.after front).after back :=
  List.foldl_append

/-- The answer to a call stays the symbol of its text. -/
theorem get?_after_intern (t : Interner) (front back : List Call) (text : String) :
    (t.after (front ++ .intern text :: back)).get? text = some ((t.after front).intern text).1 := by
  rw [after_append]
  exact within_after ((t.after front).insert text) back (get?_intern _ _)

theorem New.get?_after_iff (h : New words t) :
    (t.after calls).get? text = some s ↔ ∃ i, (entered words calls).eraseDups[i]? = some text ∧
      Symbol.ofIndex i = s := by
  have htexts := h.toList_after calls
  rw [get?_eq_some_iff_place (htexts ▸ nodup_eraseDups _), htexts]

theorem New.intern_eq_iff (h : New words t) : ((t.after calls).intern text).1 = s ↔
    ∃ i, (entered words calls ++ [text]).eraseDups[i]? = some text ∧ Symbol.ofIndex i = s := by
  have hentered : entered words (calls ++ [.intern text]) = entered words calls ++ [text] := by
    simp [entered, Call.entered?]
  rw [← hentered, ← h.get?_after_iff, get?_after_intern, Option.some.injEq]

/-- What was handed out is still in use. -/
theorem New.given_iff (h : New words t) :
    t.Given calls text s ↔ (t.after calls).get? text = some s := by
  constructor
  · rintro (hstart | ⟨front, back, rfl, rfl⟩)
    · exact within_after t calls hstart
    · exact get?_after_intern t front back text
  · intro hget
    have hmem : text ∈ entered words calls := by
      rw [← List.mem_eraseDups, ← h.toList_after, ← isSome_get?_iff, hget]
      rfl
    rcases List.mem_append.mp hmem with hword | hcall
    · exact .inl (h.get?_after hword calls ▸ hget)
    · obtain ⟨call, hcall, htext⟩ := List.mem_filterMap.mp hcall
      obtain rfl : call = .intern text := by
        cases call with
        | intern => exact congrArg Call.intern (Option.some.inj htext)
        | get | resolve => cases htext
      -- Any call that entered the text will do, since all of them had the same answer.
      obtain ⟨front, back, rfl⟩ := List.append_of_mem hcall
      rw [get?_after_intern] at hget
      exact .inr ⟨front, back, rfl, Option.some.inj hget⟩

/-! ## The limit -/

theorem New.intern_eq_invalid_iff (h : New words t) : ((t.after calls).intern text).1 = .invalid ↔
    (entered words calls ++ [text]).eraseDups[Symbol.bound - 1]? = some text := by
  rw [h.intern_eq_iff]
  simp only [Symbol.ofIndex_eq_invalid_iff, exists_eq_right]

theorem New.intern_of_notMem (h : New words t) (htext : text ∉ entered words calls) :
    ((t.after calls).intern text).1 = .ofIndex (entered words calls).eraseDups.length := by
  refine h.intern_eq_iff.mpr ⟨_, ?_, rfl⟩
  rw [eraseDups_concat, if_neg htext, List.getElem?_concat_length]

theorem New.given_before_iff (h : New words t) (htext : text ∉ entered words calls) :
    (∃ other, t.Given calls other ((t.after calls).intern text).1) ↔
      Symbol.bound ≤ (entered words calls).eraseDups.length := by
  rw [h.intern_of_notMem htext, ← Symbol.exists_ofIndex_eq_iff]
  simp only [h.given_iff, h.get?_after_iff]
  constructor
  · rintro ⟨other, i, hi, heq⟩
    exact ⟨i, (List.getElem?_eq_some_iff.mp hi).1, heq⟩
  · rintro ⟨i, hi, heq⟩
    exact ⟨_, i, List.getElem?_eq_getElem hi, heq⟩

/-- **Symbols run out.** Entering a text gives the symbol for no text just if it is, among all texts
that were entered, the last that a word can number. Entering a new text gives a symbol that was
handed out before just if there are at least as many texts as words. -/
theorem symbols_run_out_at_last_word (words : List String) (t : Interner) (hnew : New words t)
    (calls : List Call) (text : String) :
    (((t.after calls).intern text).1 = .invalid ↔
      (entered words calls ++ [text]).eraseDups[Symbol.bound - 1]? = some text) ∧
    (text ∉ entered words calls →
      ((∃ other, t.Given calls other ((t.after calls).intern text).1) ↔
        Symbol.bound ≤ (entered words calls).eraseDups.length)) :=
  ⟨hnew.intern_eq_invalid_iff, hnew.given_before_iff⟩

/-- A third name in a table that started with two gets a symbol of its own. -/
theorem third_name_has_own_symbol :
    New ["class", "fn"] (seed ["class", "fn"]) ∧
      "y" ∉ entered ["class", "fn"] [.intern "x", .get "y"] ∧
      (((seed ["class", "fn"]).after [.intern "x", .get "y"]).intern "y").1 ≠ .invalid ∧
      ¬ ∃ other, (seed ["class", "fn"]).Given [.intern "x", .get "y"] other
        (((seed ["class", "fn"]).after [.intern "x", .get "y"]).intern "y").1 := by
  have hnotMem : "y" ∉ entered ["class", "fn"] [.intern "x", .get "y"] := by decide
  obtain ⟨hinvalid, hgiven⟩ :=
    symbols_run_out_at_last_word _ _ (.seed ["class", "fn"]) [.intern "x", .get "y"] "y"
  refine ⟨.seed _, hnotMem, fun h => ?_, fun h => ?_⟩
  · have hlast := (List.getElem?_eq_some_iff.mp (hinvalid.mp h)).1
    revert hlast
    decide +kernel
  · have hlimit := (hgiven hnotMem).mp h
    revert hlimit
    decide +kernel

/-! ## As many names as words -/

theorem eraseDups_eq_self {as : List String} (h : as.Nodup) : as.eraseDups = as := by
  induction as using List.reverseRecOn with
  | nil => rfl
  | append_singleton as a ih =>
    obtain ⟨has, -, hne⟩ := List.nodup_append.mp h
    rw [eraseDups_concat, if_neg fun ha => hne a ha a (List.mem_singleton_self a) rfl, ih has]

/-- The numerals below `n` are entered, from 0 on. -/
def enterNumerals (n : Nat) : List Call :=
  (List.range n).map fun i => .intern (toString i)

theorem entered_enterNumerals (n : Nat) :
    entered [] (enterNumerals n) = (List.range n).map toString := by
  simp [entered, enterNumerals, List.filterMap_map, Function.comp_def, Call.entered?]

theorem eq_of_toString_eq {i j : Nat} (h : toString i = toString j) : i = j := by
  rw [Nat.toString_eq_repr, Nat.toString_eq_repr, Nat.repr_eq_ofList_toDigits,
    Nat.repr_eq_ofList_toDigits, String.ofList_inj] at h
  rw [← Nat.ofDigitChars_ten_toDigits (n := i), h, Nat.ofDigitChars_ten_toDigits]

theorem numeral_notMem (n : Nat) : toString n ∉ entered [] (enterNumerals n) := by
  rw [entered_enterNumerals, List.mem_map]
  rintro ⟨i, hi, heq⟩
  exact Nat.ne_of_lt (List.mem_range.mp hi) (eq_of_toString_eq heq)

theorem length_enterNumerals (n : Nat) : (entered [] (enterNumerals n)).eraseDups.length = n := by
  have hnodup : ((List.range n).map (toString : Nat → String)).Nodup :=
    List.pairwise_map.mpr (List.nodup_range.imp fun hne heq => hne (eq_of_toString_eq heq))
  rw [entered_enterNumerals, eraseDups_eq_self hnodup, List.length_map, List.length_range]

/-- When the numerals from 0 on are entered, 4294967295 gets the symbol that stands for no text, and
4294967296 gets one that was handed out before. -/
theorem numerals_use_up_symbols :
    ((empty.after (enterNumerals (Symbol.bound - 1))).intern (toString (Symbol.bound - 1))).1 =
      .invalid ∧ toString Symbol.bound ∉ entered [] (enterNumerals Symbol.bound) ∧
      ∃ other, empty.Given (enterNumerals Symbol.bound) other
        ((empty.after (enterNumerals Symbol.bound)).intern (toString Symbol.bound)).1 := by
  refine ⟨?_, numeral_notMem _, ?_⟩
  · rw [New.empty.intern_of_notMem (numeral_notMem _), length_enterNumerals]
    exact Symbol.ofIndex_eq_invalid_iff.mpr rfl
  · exact (New.empty.given_before_iff (numeral_notMem _)).mpr
      (Nat.le_of_eq (length_enterNumerals _).symm)

end Interner

end TreeWalk
