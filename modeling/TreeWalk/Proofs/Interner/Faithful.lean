import Mathlib.Data.List.Induction
import TreeWalk.Proofs.Interner

/-!
# Tables of names in use

Whatever is asked of a table and whatever is entered, its two sides stay coherent, since each call
on a table is the call on an interner (`toTable_after`). It holds the texts that were entered, each
once, in the order in which they first came (`toList_after`). As long as there are symbols to tell
them apart, the texts and the index are inverse to each other, and nothing that is entered later
changes what they say (`Table.Faithful`).
-/

namespace TreeWalk.Interner

/-! ## Histories -/

/-- One call on a table. -/
inductive Call where
  | intern (text : String)
  | get (text : String)
  | resolve (s : Symbol)

/-- The table after a call. Questions leave it as it is. -/
def Call.next (t : Interner) : Call → Interner
  | intern text => t.insert text
  | get _ | resolve _ => t

def Call.entered? : Call → Option String
  | intern text => some text
  | get _ | resolve _ => none

/-- The table after any number of calls. -/
def after (t : Interner) (calls : List Call) : Interner :=
  calls.foldl Call.next t

/-- A new table that knows some words from the start. -/
inductive New : List String → Interner → Prop
  | empty : New [] empty
  | seed (words : List String) : New words (seed words)

/-- All texts that were entered, from the first word on and with repetitions. -/
def entered (words : List String) (calls : List Call) : List String :=
  words ++ calls.filterMap Call.entered?

namespace Table

/-- What a call leaves of the two sides of a table. -/
def step (t : Table) : Call → Table
  | .intern text => t.insert text
  | .get _ | .resolve _ => t

/-- The two sides of a table after any number of calls. -/
def after (t : Table) (calls : List Call) : Table :=
  calls.foldl step t

/-- The two sides of a new table that knows some words from the start. -/
inductive New : List String → Table → Prop
  | empty : New [] empty
  | seed (words : List String) : New words (seed words)

/-- What a table has to do for its users. It started with `words`, and `texts` have been entered
into it. -/
structure Faithful (words texts : List String) (t : Table) : Prop where
  /-- The array of texts and the index from texts to symbols are inverse to each other. -/
  sides_inverse : ∀ s text, t.texts[s.id]? = some text ↔ t.symbols.get? text = some s
  symbols_eq_iff : ∀ a ∈ texts, ∀ b ∈ texts, t.get? a = t.get? b ↔ a = b
  /-- Just the texts that were entered have a symbol, and it is the one that entering them gives. -/
  get?_eq_some_iff : ∀ text s, t.get? text = some s ↔ text ∈ texts ∧ (t.intern text).1 = s
  intern_known : ∀ text ∈ texts, (t.intern text).2 = t
  /-- A symbol stands for the text it was given for, at once and after any more calls. -/
  resolve?_intern : ∀ text more, ((t.insert text).after more).size < Symbol.bound →
    ((t.insert text).after more).resolve? (t.intern text).1 = some text
  /-- Other symbols stand for nothing. -/
  resolve?_eq_some_iff : ∀ s text, t.resolve? s = some text ↔ t.get? text = some s
  /-- Symbols are counted from 0 in the order in which the texts first came. -/
  get?_eq_index_iff : ∀ i text, t.get? text = some ⟨i⟩ ↔ texts.eraseDups[i]? = some text
  size_eq : t.size = texts.eraseDups.length
  isSeeded_iff : ∀ s, t.isSeeded s = true ↔ ∃ word ∈ words, t.get? word = some s

end Table

/-! ## The two sides -/

/-- A call on an interner is the same call on its two sides. -/
theorem toTable_next (t : Interner) (call : Call) :
    (call.next t).toTable = t.toTable.step call := by
  cases call <;> rfl

theorem toTable_after (t : Interner) (calls : List Call) :
    (t.after calls).toTable = t.toTable.after calls := by
  induction calls generalizing t with
  | nil => rfl
  | cons call calls ih =>
    have hfirst := ih (call.next t)
    rw [toTable_next] at hfirst
    exact hfirst

theorem toTable_foldl_insert (t : Interner) (texts : List String) :
    (texts.foldl insert t).toTable = texts.foldl Table.insert t.toTable := by
  induction texts generalizing t with
  | nil => rfl
  | cons text texts ih => exact ih (t.insert text)

theorem New.toTable {t : Interner} (h : New words t) : t.toTable = .seed words := by
  cases h <;> rfl

theorem Table.New.eq_seed {t : Table} (h : New words t) : t = .seed words := by
  cases h <;> rfl

/-! ## The texts of a table -/

section

variable {α : Type} [BEq α] [LawfulBEq α]

theorem eraseDups_concat (as : List α) (a : α) :
    (as ++ [a]).eraseDups = if a ∈ as then as.eraseDups else as.eraseDups ++ [a] := by
  rw [List.eraseDups_append]
  by_cases h : a ∈ as
  · simp [List.removeAll, h]
  · simp [List.removeAll, h, List.eraseDups_cons]

theorem nodup_eraseDups (as : List α) : as.eraseDups.Nodup := by
  induction as using List.reverseRecOn with
  | nil => exact List.nodup_nil
  | append_singleton as a ih =>
    rw [eraseDups_concat]
    split
    · exact ih
    · next h =>
      rw [List.nodup_append]
      refine ⟨ih, by simp, fun b hb c hc => ?_⟩
      rw [List.mem_singleton.mp hc]
      rintro rfl
      exact h (List.mem_eraseDups.mp hb)

end

variable {t : Interner} {words texts : List String} {text other : String} {s : Symbol}

theorem get?_eq_none_iff : t.get? text = none ↔ text ∉ t.texts.toList := by
  rw [t.coherent text, Option.map_eq_none_iff, Array.findIdx?_eq_none_iff]
  constructor
  · intro h hmem
    simpa using h text (Array.mem_toList_iff.mp hmem)
  · intro h x hx
    rw [beq_eq_false_iff_ne]
    rintro rfl
    exact h (Array.mem_toList_iff.mpr hx)

theorem toList_insert (t : Interner) (text : String) :
    (t.insert text).texts.toList = if text ∈ t.texts.toList then t.texts.toList
      else t.texts.toList ++ [text] := by
  rw [insert]
  cases h : t.get? text with
  | none =>
    rw [toTable_intern_of_get? h]
    simp [get?_eq_none_iff.mp h]
  | some s =>
    have hmem : text ∈ t.texts.toList := by
      refine Decidable.byContradiction fun hnot => ?_
      rw [get?_eq_none_iff.mpr hnot] at h
      cases h
    rw [intern_of_get? h, if_pos hmem]

theorem toList_insert_of_eq (h : t.texts.toList = texts.eraseDups) (text : String) :
    (t.insert text).texts.toList = (texts ++ [text]).eraseDups := by
  rw [toList_insert, eraseDups_concat, h]
  simp only [List.mem_eraseDups]

theorem toList_foldl_insert (h : t.texts.toList = texts.eraseDups) (more : List String) :
    (more.foldl insert t).texts.toList = (texts ++ more).eraseDups := by
  induction more generalizing t texts with
  | nil => rw [List.append_nil]; exact h
  | cons text more ih =>
    rw [List.foldl_cons, ih (toList_insert_of_eq h text), List.append_assoc, List.singleton_append]

theorem after_eq_foldl (t : Interner) (calls : List Call) :
    t.after calls = (calls.filterMap Call.entered?).foldl insert t := by
  induction calls generalizing t with
  | nil => rfl
  | cons call calls ih =>
    cases call with
    | intern text => exact ih (t.insert text)
    | get | resolve => exact ih t

theorem New.toList (h : New words t) : t.texts.toList = words.eraseDups := by
  have hempty : Interner.empty.texts.toList = ([] : List String).eraseDups := rfl
  have hwords := toList_foldl_insert hempty words
  rw [toTable_foldl_insert] at hwords
  rw [h.toTable]
  exact hwords

theorem New.seeded (h : New words t) :
    t.seeded = min words.eraseDups.length (Symbol.bound - 1) := by
  rw [← h.toList, h.toTable]
  rfl

theorem New.toList_after (h : New words t) (calls : List Call) :
    (t.after calls).texts.toList = (entered words calls).eraseDups := by
  rw [after_eq_foldl]
  exact toList_foldl_insert h.toList _

theorem seeded_after (t : Interner) (calls : List Call) : (t.after calls).seeded = t.seeded := by
  have hinsert : ∀ (t : Interner) text, (t.insert text).seeded = t.seeded := by
    intro t text
    rw [insert]
    cases h : t.get? text with
    | none => rw [toTable_intern_of_get? h]
    | some s => rw [intern_of_get? h]
  induction calls generalizing t with
  | nil => rfl
  | cons call calls ih =>
    cases call with
    | intern text => exact (ih _).trans (hinsert t text)
    | get | resolve => exact ih t

/-! ## Texts and symbols -/

theorem resolve?_eq_getElem? (t : Interner) (s : Symbol) :
    t.resolve? s = t.texts.toList[s.id]? := by
  rw [Table.resolve?, Array.getElem?_toList]

theorem isSome_get?_iff : (t.get? text).isSome = true ↔ text ∈ t.texts.toList := by
  rw [← not_iff_not, Bool.not_eq_true, Option.isSome_eq_false_iff, Option.isNone_iff_eq_none,
    get?_eq_none_iff]

/-- Where no text stands twice and there are symbols for all, looking up and resolving undo each
other. -/
theorem resolve?_eq_some_iff_get? (hnodup : t.texts.toList.Nodup) (hsize : t.size ≤ Symbol.bound) :
    t.resolve? s = some text ↔ t.get? text = some s := by
  refine ⟨fun h => ?_, fun h => resolve?_of_get? h hsize⟩
  have hindex := (resolve?_eq_getElem? t s).symm.trans h
  obtain ⟨s', hs'⟩ :=
    Option.isSome_iff_exists.mp (isSome_get?_iff.mpr (List.mem_of_getElem? hindex))
  have hindex' := (resolve?_eq_getElem? t s').symm.trans (resolve?_of_get? hs' hsize)
  have hid : s.id = s'.id :=
    (List.getElem?_inj (List.getElem?_eq_some_iff.mp hindex).1 hnodup).mp
      (hindex.trans hindex'.symm)
  rw [hs', show s = s' from congrArg Symbol.mk hid]

theorem intern_fst_of_get? (h : t.get? text = some s) : (t.intern text).1 = s := by
  rw [intern_of_get? h]

theorem within_after (t : Interner) (calls : List Call) : t.Within (t.after calls) := by
  induction calls generalizing t with
  | nil => exact .refl t
  | cons call calls ih =>
    cases call with
    | intern text => exact (within_intern t text).trans (ih (t.insert text))
    | get | resolve => exact ih t

/-- The words of the start come first, so that theirs are the least symbols. -/
theorem lt_seeded_iff (more : List String) {i : Nat} :
    i < words.eraseDups.length ↔ ∃ word ∈ words, (words ++ more).eraseDups[i]? = some word := by
  have hfront : ∀ j < words.eraseDups.length,
      (words ++ more).eraseDups[j]? = words.eraseDups[j]? := by
    intro j hj
    rw [List.eraseDups_append, List.getElem?_append_left hj]
  constructor
  · intro hi
    exact ⟨_, List.mem_eraseDups.mp (List.getElem_mem hi),
      (hfront i hi).trans (List.getElem?_eq_getElem hi)⟩
  · rintro ⟨word, hword, hindex⟩
    obtain ⟨j, hj, heq⟩ := List.getElem_of_mem (List.mem_eraseDups.mpr hword)
    have hindex' : (words ++ more).eraseDups[j]? = some word := by
      rw [hfront j hj, List.getElem?_eq_getElem hj, heq]
    have hij : i = j :=
      (List.getElem?_inj (List.getElem?_eq_some_iff.mp hindex).1 (nodup_eraseDups _)).mp
        (hindex.trans hindex'.symm)
    exact hij ▸ hj

/-- What a table answers is told by the texts that were entered. -/
theorem faithful_of_toList {more : List String}
    (htexts : t.texts.toList = (words ++ more).eraseDups)
    (hseeded : t.seeded = words.eraseDups.length) (hsize : t.size < Symbol.bound) :
    t.toTable.Faithful words (words ++ more) := by
  have hle := Nat.le_of_lt hsize
  have hmem : ∀ text, text ∈ words ++ more ↔ (t.get? text).isSome = true := fun text => by
    rw [isSome_get?_iff, htexts, List.mem_eraseDups]
  have hknown : ∀ text ∈ words ++ more, ∃ s, t.get? text = some s := fun text htext =>
    Option.isSome_iff_exists.mp ((hmem text).mp htext)
  have hiff : ∀ s text, t.resolve? s = some text ↔ t.get? text = some s := fun s text =>
    resolve?_eq_some_iff_get? (htexts ▸ nodup_eraseDups _) hle
  have hindex : ∀ i text, t.get? text = some ⟨i⟩ ↔ (words ++ more).eraseDups[i]? = some text := by
    intro i text
    rw [← hiff, resolve?_eq_getElem?, htexts]
  refine ⟨hiff, ?_, ?_, ?_, ?_, hiff, hindex, ?_, ?_⟩
  · intro a ha b hb
    refine ⟨fun heq => ?_, fun heq => heq ▸ rfl⟩
    obtain ⟨s, hs⟩ := hknown a ha
    exact text_unique hle hs (heq ▸ hs)
  · intro text s
    constructor
    · exact fun h => ⟨(hmem text).mpr (h ▸ rfl), intern_fst_of_get? h⟩
    · rintro ⟨htext, rfl⟩
      obtain ⟨s, hs⟩ := hknown text htext
      exact hs.trans (congrArg some (intern_fst_of_get? hs).symm)
  · intro text htext
    obtain ⟨s, hs⟩ := hknown text htext
    exact congrArg (·.2.toTable) (intern_of_get? hs)
  · intro text later hlater
    have hlater' := toTable_after (t.insert text) later
    rw [show (t.toTable.insert text).after later = _ from hlater'.symm] at hlater ⊢
    exact resolve?_of_get? (within_after _ later (get?_intern t text)) (Nat.le_of_lt hlater)
  · rw [Table.size, ← Array.length_toList, htexts]
  · intro s
    rw [Table.isSeeded, decide_eq_true_iff, hseeded, lt_seeded_iff more]
    simp only [← hindex]

/-! ## Tables in use -/

theorem New.get?_after (h : New words t) (hword : word ∈ words) (calls : List Call) :
    (t.after calls).get? word = t.get? word := by
  have hsome : (t.get? word).isSome = true := by
    rw [isSome_get?_iff, h.toList, List.mem_eraseDups]
    exact hword
  obtain ⟨s, hs⟩ := Option.isSome_iff_exists.mp hsome
  rw [hs]
  exact within_after t calls hs

theorem New.seeded_after_of_lt (h : New words t) (hsize : (t.after calls).size < Symbol.bound) :
    (t.after calls).seeded = words.eraseDups.length := by
  have hwords : words.eraseDups.length ≤ (t.after calls).size := by
    rw [Table.size, ← Array.length_toList, h.toList_after, entered, List.eraseDups_append,
      List.length_append]
    exact Nat.le_add_right _ _
  rw [seeded_after, h.seeded]
  omega

/-- **Tables are faithful.** A table of texts and an index is faithful after any calls, as long as
it holds fewer texts than there are symbols. Tables that started with the same words agree on the
symbols of these, whatever each was used for. An interner that started with the same words has the
same two sides after the same calls. -/
theorem tables_are_faithful (words : List String) (t : Table) (hnew : Table.New words t)
    (calls : List Call) (hsize : (t.after calls).size < Symbol.bound) :
    (t.after calls).Faithful words (entered words calls) ∧
      (∀ t' calls', Table.New words t' →
        (∀ word ∈ words, (t'.after calls').get? word = (t.after calls).get? word) ∧
        ∀ s, (t'.after calls').isSeeded s = (t.after calls).isSeeded s) ∧
      ∀ names : Interner, New words names → (names.after calls).toTable = t.after calls := by
  have hseed := New.seed words
  obtain rfl := hnew.eq_seed
  have hafter : ∀ calls, (Table.seed words).after calls = ((seed words).after calls).toTable :=
    fun calls => (toTable_after (seed words) calls).symm
  rw [hafter] at hsize ⊢
  refine ⟨faithful_of_toList (hseed.toList_after calls) (hseed.seeded_after_of_lt hsize) hsize,
    ?_, ?_⟩
  · intro t' calls' hnew'
    rw [hnew'.eq_seed, hafter]
    refine ⟨fun word hword => ?_, fun s => ?_⟩
    · rw [hseed.get?_after hword, hseed.get?_after hword]
    · rw [Table.isSeeded, Table.isSeeded, seeded_after, seeded_after]
  · intro names hnames
    rw [← hafter, toTable_after, hnames.toTable]

/-- One word is given twice, and a text is entered between two questions. -/
theorem table_with_repeated_word_is_faithful :
    Table.New ["let", "in", "let"] (.seed ["let", "in", "let"]) ∧
      ((Table.seed ["let", "in", "let"]).after
        [.get "x", .intern "x", .resolve ⟨2⟩, .intern "in"]).size < Symbol.bound ∧
      ((Table.seed ["let", "in", "let"]).after
        [.get "x", .intern "x", .resolve ⟨2⟩, .intern "in"]).Faithful
        ["let", "in", "let"] ["let", "in", "let", "x", "in"] := by
  have hsize : ((Table.seed ["let", "in", "let"]).after
      [.get "x", .intern "x", .resolve ⟨2⟩, .intern "in"]).size < Symbol.bound := by
    decide +kernel
  exact ⟨.seed _, hsize, (tables_are_faithful _ _ (.seed _) _ hsize).1⟩

end TreeWalk.Interner
