import TreeWalk.Printer.Sexp
import TreeWalk.Proofs.Scan.ReadBack

/-!
# The text of atoms and lists

Parenthesised text can be taken apart in one way only, if each atom shows where it ends: either it
is in quotes and has none inside, or it has no blanks, parentheses and quotes at all
(`Clear.append_inj`).
-/

namespace TreeWalk.Sexp

/-- The characters that an atom without quotes is made of. -/
def isPlain (c : Char) : Bool :=
  c != ' ' && c != '\n' && c != '(' && c != ')' && c != '"'

/-- The text of an atom that shows where it ends. -/
inductive Delimited : List Char → Prop
  | plain (hne : cs ≠ []) (h : ∀ c ∈ cs, isPlain c = true) : Delimited cs
  | quoted (h : '"' ∉ cs) : Delimited ('"' :: (cs ++ ['"']))

/-- All atoms show where they end. -/
inductive Clear : Sexp → Prop
  | atom (h : Delimited t.toList) : Clear (.atom t)
  | list (h : ∀ x ∈ items, Clear x) : Clear (.list items)

/-- Whether an atom that is not in quotes ends in front of the text. -/
def Stops (rest : List Char) : Prop :=
  ∀ c ∈ rest.head?, isPlain c = false

/-! ## Texts of lists -/

theorem texts_eq_map (items : List Sexp) : texts items = items.map text := by
  induction items with
  | nil => rfl
  | cons x xs ih => rw [texts, ih, List.map_cons]

/-- The items of a list but the first, each behind a blank, and the end of the list. -/
def tail (items : List Sexp) (rest : List Char) : List Char :=
  items.flatMap (fun x => ' ' :: x.text.toList) ++ ')' :: rest

theorem tail_cons (x : Sexp) (items : List Sexp) (rest : List Char) :
    tail (x :: items) rest = ' ' :: (x.text.toList ++ tail items rest) := by
  simp [tail]

theorem stops_tail (items : List Sexp) (rest : List Char) : Stops (tail items rest) := by
  cases items with
  | nil => rintro _ ⟨⟩; rfl
  | cons x items => rintro _ ⟨⟩; rfl

theorem toList_text_list_nil (rest : List Char) :
    (list []).text.toList ++ rest = '(' :: ')' :: rest := by
  simp [text, texts]

theorem intercalate_cons (sep first : List Char) (more : List (List Char)) :
    sep.intercalate (first :: more) = first ++ more.flatMap (sep ++ ·) := by
  induction more generalizing first with
  | nil => simp
  | cons second more ih =>
    rw [List.intercalate_cons_cons, ih, List.flatMap_cons, List.append_assoc, List.append_assoc]

theorem toList_text_list_cons (x : Sexp) (items : List Sexp) (rest : List Char) :
    (list (x :: items)).text.toList ++ rest = '(' :: (x.text.toList ++ tail items rest) := by
  simp [text, texts_eq_map, String.toList_intercalate, intercalate_cons, tail, List.flatMap_map]

/-! ## Unique reading -/

variable {cs cs' rest rest' : List Char}

theorem ne_quote (h : '"' ∉ cs) : ∀ c ∈ cs, (c != '"') = true := by
  intro c hc
  rw [bne_iff_ne]
  rintro rfl
  exact h hc

/-- A plain atom does not start with a quote. -/
theorem not_quoted (hne : cs ≠ []) (hcs : ∀ c ∈ cs, isPlain c = true) :
    cs ++ rest ≠ '"' :: rest' := by
  obtain ⟨c, cs, rfl⟩ := List.exists_cons_of_ne_nil hne
  intro heq
  obtain rfl := List.head_eq_of_cons_eq heq
  cases hcs _ List.mem_cons_self

theorem Delimited.append_inj (h : Delimited cs) (h' : Delimited cs') (hrest : Stops rest)
    (hrest' : Stops rest') (heq : cs ++ rest = cs' ++ rest') : cs = cs' ∧ rest = rest' := by
  cases h with
  | plain hne hcs =>
    cases h' with
    | plain hne' hcs' =>
      obtain ⟨htake, hdrop⟩ := Lexeme.takeWhile_append_stop rest hcs hrest
      obtain ⟨htake', hdrop'⟩ := Lexeme.takeWhile_append_stop rest' hcs' hrest'
      rw [heq] at htake hdrop
      exact ⟨htake.symm.trans htake', hdrop.symm.trans hdrop'⟩
    | quoted => exact absurd heq (not_quoted hne hcs)
  | @quoted cs hcs =>
    cases h' with
    | plain hne' hcs' => exact absurd heq.symm (not_quoted hne' hcs')
    | @quoted cs' hcs' =>
      have hinner : cs ++ '"' :: rest = cs' ++ '"' :: rest' := by simpa using heq
      obtain ⟨htake, hdrop⟩ := Lexeme.takeWhile_append_stop ('"' :: rest) (ne_quote hcs) (by simp)
      obtain ⟨htake', hdrop'⟩ :=
        Lexeme.takeWhile_append_stop ('"' :: rest') (ne_quote hcs') (by simp)
      rw [hinner] at htake hdrop
      obtain rfl := htake.symm.trans htake'
      exact ⟨rfl, List.tail_eq_of_cons_eq (hdrop.symm.trans hdrop')⟩

theorem Delimited.head (h : Delimited cs) : ∃ c cs', cs = c :: cs' ∧ c ≠ '(' ∧ c ≠ ')' := by
  cases h with
  | plain hne hcs =>
    obtain ⟨c, cs, rfl⟩ := List.exists_cons_of_ne_nil hne
    refine ⟨c, cs, rfl, ?_⟩
    constructor
    all_goals
      rintro rfl
      cases hcs _ List.mem_cons_self
  | quoted => exact ⟨'"', _, rfl, by decide⟩

/-- No item starts with the end of a list. -/
theorem Clear.not_rparen (h : Clear x) : x.text.toList ++ rest ≠ ')' :: rest' := by
  cases h with
  | atom h =>
    obtain ⟨c, cs, htext, -, hne⟩ := h.head
    rw [text, htext]
    exact fun heq => hne (List.head_eq_of_cons_eq heq)
  | @list items _ =>
    cases items with
    | nil => rw [toList_text_list_nil]; simp
    | cons x items => rw [toList_text_list_cons]; simp

/-- No atom starts with the start of a list. -/
theorem Delimited.not_list (h : Delimited cs) (items : List Sexp) :
    cs ++ rest ≠ (list items).text.toList ++ rest' := by
  obtain ⟨c, cs, rfl, hne, -⟩ := h.head
  intro heq
  refine hne ?_
  cases items with
  | nil => rw [toList_text_list_nil] at heq; exact List.head_eq_of_cons_eq heq
  | cons x items => rw [toList_text_list_cons] at heq; exact List.head_eq_of_cons_eq heq

/-- The text in front of which `x` stands does not matter. -/
def Determined (x : Sexp) : Prop :=
  ∀ ⦃y rest rest'⦄, Clear y → Stops rest → Stops rest' →
    x.text.toList ++ rest = y.text.toList ++ rest' → x = y ∧ rest = rest'

theorem tail_inj (hxs : ∀ x ∈ xs, Determined x) (hys : ∀ y ∈ ys, Clear y)
    (h : tail xs rest = tail ys rest') :
    xs = ys ∧ rest = rest' := by
  induction xs generalizing ys with
  | nil =>
    cases ys with
    | nil => exact ⟨rfl, List.tail_eq_of_cons_eq h⟩
    | cons y ys => rw [tail_cons] at h; cases h
  | cons x xs ih =>
    obtain ⟨hx, hxs⟩ := List.forall_mem_cons.mp hxs
    cases ys with
    | nil => rw [tail_cons] at h; cases h
    | cons y ys =>
      obtain ⟨hy, hmore⟩ := List.forall_mem_cons.mp hys
      rw [tail_cons, tail_cons] at h
      obtain ⟨rfl, htail⟩ :=
        hx hy (stops_tail xs rest) (stops_tail ys rest') (List.tail_eq_of_cons_eq h)
      obtain ⟨rfl, rfl⟩ := ih hxs hmore htail
      exact ⟨rfl, rfl⟩

theorem Clear.determined (h : Clear x) : Determined x := by
  induction h with
  | atom h =>
    intro y rest rest' hy hrest hrest' heq
    cases hy with
    | atom hy =>
      obtain ⟨htext, rfl⟩ := h.append_inj hy hrest hrest' heq
      exact ⟨congrArg Sexp.atom (String.toList_inj.mp htext), rfl⟩
    | list => exact absurd heq (h.not_list _)
  | @list items h ih =>
    intro y rest rest' hy hrest hrest' heq
    cases hy with
    | atom hy => exact absurd heq.symm (hy.not_list _)
    | @list items' hy =>
      cases items with
      | nil =>
        cases items' with
        | nil =>
          rw [toList_text_list_nil, toList_text_list_nil] at heq
          exact ⟨rfl, List.tail_eq_of_cons_eq (List.tail_eq_of_cons_eq heq)⟩
        | cons y items' =>
          rw [toList_text_list_nil, toList_text_list_cons] at heq
          exact absurd (List.tail_eq_of_cons_eq heq).symm (hy y List.mem_cons_self).not_rparen
      | cons x items =>
        cases items' with
        | nil =>
          rw [toList_text_list_nil, toList_text_list_cons] at heq
          exact absurd (List.tail_eq_of_cons_eq heq) (h x List.mem_cons_self).not_rparen
        | cons y items' =>
          obtain ⟨hx, hitems⟩ := List.forall_mem_cons.mp ih
          obtain ⟨hy, hitems'⟩ := List.forall_mem_cons.mp hy
          rw [toList_text_list_cons, toList_text_list_cons] at heq
          obtain ⟨rfl, htail⟩ :=
            hx hy (stops_tail items rest) (stops_tail items' rest') (List.tail_eq_of_cons_eq heq)
          obtain ⟨rfl, rfl⟩ := tail_inj hitems hitems' htail
          exact ⟨rfl, rfl⟩

theorem stops_newline (rest : List Char) : Stops ("\n".toList ++ rest) := by
  rintro _ ⟨⟩
  rfl

/-- Lines of clear text are told apart. -/
theorem lines_inj {xs ys : List Sexp} (hxs : ∀ x ∈ xs, Clear x) (hys : ∀ y ∈ ys, Clear y)
    (h : String.join (xs.map fun x => x.text ++ "\n") =
        String.join (ys.map fun y => y.text ++ "\n")) : xs = ys := by
  induction xs generalizing ys with
  | nil =>
    cases ys with
    | nil => rfl
    | cons y ys => simp at h
  | cons x xs ih =>
    obtain ⟨hx, hxs⟩ := List.forall_mem_cons.mp hxs
    cases ys with
    | nil => simp at h
    | cons y ys =>
      obtain ⟨hy, hmore⟩ := List.forall_mem_cons.mp hys
      have htext := congrArg String.toList h
      simp only [List.map_cons, String.join_cons, String.toList_append, List.append_assoc] at htext
      obtain ⟨rfl, htail⟩ := hx.determined hy (stops_newline _) (stops_newline _) htext
      have hlines := String.toList_inj.mp (List.tail_eq_of_cons_eq htail)
      rw [ih hxs hmore hlines]

end TreeWalk.Sexp
