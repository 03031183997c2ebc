import Mathlib.Data.List.DropRight
import TreeWalk.Text

/-!
# Lines of a text

A line starts where the text does or behind a line feed, and ends where the text does or in front of
a line feed. A carriage return right in front of that line feed is not part of the line.
`Text.lines` gives the lines in this sense by their numbers, which are the line feeds in front of
them, except for an empty line that ends with the text.
-/

namespace TreeWalk.Text

/-- `line` ends where `back` follows. -/
inductive EndsLine (line : List Char) : List Char → Prop where
  | finish : EndsLine line []
  | crlf : EndsLine line ('\r' :: '\n' :: more)
  | lf : line.getLast? ≠ some '\r' → EndsLine line ('\n' :: more)

/-- `front` goes up to the start of a line. -/
def StartsLine (front : List Char) : Prop :=
  front = [] ∨ front.getLast? = some '\n'

/-- `line` is the line of `cs` that stands between `front` and `back`. -/
structure LineAt (cs front line back : List Char) : Prop where
  split : cs = front ++ line ++ back
  start : StartsLine front
  inner : '\n' ∉ line
  stop : EndsLine line back

/-! ## The first line -/

theorem EndsLine.append (h : EndsLine line back) (hne : line ≠ []) (lead : List Char) :
    EndsLine (lead ++ line) back := by
  cases h with
  | finish => exact .finish
  | crlf => exact .crlf
  | lf hlast => exact .lf (by rwa [List.getLast?_append_of_ne_nil _ hne])

/-- Every text starts with a line. -/
theorem exists_line (cs : List Char) :
    ∃ line back, cs = line ++ back ∧ '\n' ∉ line ∧ EndsLine line back := by
  induction cs with
  | nil => exact ⟨[], [], rfl, List.not_mem_nil, .finish⟩
  | cons c cs ih =>
    by_cases hlf : c = '\n'
    · subst hlf
      exact ⟨[], _, rfl, List.not_mem_nil, .lf (by simp)⟩
    by_cases hcrlf : c = '\r' ∧ cs.head? = some '\n'
    · obtain ⟨rfl, hhead⟩ := hcrlf
      obtain ⟨more, rfl⟩ := List.head?_eq_some_iff.mp hhead
      exact ⟨[], _, rfl, List.not_mem_nil, .crlf⟩
    obtain ⟨line, back, rfl, hinner, hends⟩ := ih
    refine ⟨c :: line, back, rfl, List.not_mem_cons_of_ne_of_not_mem (Ne.symm hlf) hinner, ?_⟩
    cases line with
    | cons d line => exact hends.append (List.cons_ne_nil d line) [c]
    | nil =>
      cases hends with
      | finish => exact .finish
      | crlf => exact .crlf
      | lf _ => exact .lf fun hlast => hcrlf ⟨Option.some.inj hlast, rfl⟩

theorem head?_lines (hinner : '\n' ∉ line) (hends : EndsLine line back) (hne : line ++ back ≠ []) :
    (lines '\n' '\r' (line ++ back)).head? = some line := by
  induction line with
  | nil =>
    cases hends with
    | finish => exact absurd rfl hne
    | crlf => rfl
    | lf _ => rfl
  | cons c line ih =>
    have hc := List.ne_of_not_mem_cons hinner
    have hinner := List.not_mem_of_not_mem_cons hinner
    have hcrlf : (c == '\r' && (line ++ back).head? == some '\n') = false := by
      cases line with
      | cons d line =>
        simp [Ne.symm (List.ne_of_not_mem_cons hinner)]
      | nil =>
        cases hends with
        | finish => simp
        | crlf => simp
        | lf hlast => simpa using hlast
    have hlf : (c == '\n') = false := beq_eq_false_iff_ne.mpr (Ne.symm hc)
    rw [List.cons_append, lines, hlf, hcrlf]
    by_cases hempty : line ++ back = []
    · obtain ⟨rfl, rfl⟩ := List.append_eq_nil_iff.mp hempty
      rfl
    · have hrest : EndsLine line back := by
        cases hends with
        | finish => exact .finish
        | crlf => exact .crlf
        | lf hlast =>
          cases line with
          | nil => exact .lf (by simp)
          | cons d line => exact .lf hlast
      obtain ⟨more, hmore⟩ := List.head?_eq_some_iff.mp (ih hinner hrest hempty)
      simp [hmore]

/-! ## Lines by number -/

theorem length_lines_concat (front : List Char) :
    (lines '\n' '\r' (front ++ ['\n'])).length = (front ++ ['\n']).count '\n' := by
  induction front with
  | nil => rfl
  | cons c front ih =>
    rw [List.cons_append, lines]
    split
    · next hc => rw [eq_of_beq hc, List.count_cons_self, ← ih]; rfl
    · next hc =>
      rw [List.count_cons_of_ne (by simpa using hc), ← ih]
      split
      · rfl
      · split
        · next hnil => simp [hnil] at ih
        · next hcons => rw [hcons]; rfl

theorem lines_append_lf (front rest : List Char) :
    lines '\n' '\r' (front ++ '\n' :: rest) = lines '\n' '\r' (front ++ ['\n']) ++
      lines '\n' '\r' rest := by
  induction front with
  | nil => rfl
  | cons c front ih =>
    have hhead : (front ++ '\n' :: rest).head? = (front ++ ['\n']).head? := by cases front <;> rfl
    rw [List.cons_append, List.cons_append, lines, lines, hhead, ih]
    split
    · rfl
    · split
      · rfl
      · have hlength := length_lines_concat front
        generalize lines '\n' '\r' (front ++ ['\n']) = found at hlength
        cases found with
        | nil => simp at hlength
        | cons line found => rfl

/-- The line behind `front` has the number of line feeds in `front`. -/
theorem getElem?_lines (hstart : StartsLine front) (rest : List Char) :
    (lines '\n' '\r' (front ++ rest))[front.count '\n']? = (lines '\n' '\r' rest).head? := by
  rcases hstart with rfl | hlast
  · exact List.head?_eq_getElem?.symm
  · obtain ⟨front, rfl⟩ := List.getLast?_eq_some_iff.mp hlast
    rw [List.append_assoc, List.singleton_append, lines_append_lf, ← length_lines_concat,
      List.getElem?_append_right (Nat.le_refl _), Nat.sub_self, List.head?_eq_getElem?]

/-- A line is found by its number, unless it is empty and ends with the text. -/
theorem LineAt.getElem?_lines (h : LineAt cs front line back) :
    (lines '\n' '\r' cs)[front.count '\n']? = if line ++ back = [] then none else some line := by
  rw [h.split, List.append_assoc, Text.getElem?_lines h.start]
  split
  · next hempty => rw [hempty]; rfl
  · next hne => exact head?_lines h.inner h.stop hne

/-! ## The line of a place -/

/-- What stands in front of a place is cut at the start of its line. -/
theorem exists_startsLine (before : List Char) :
    ∃ front lead, before = front ++ lead ∧ StartsLine front ∧ '\n' ∉ lead ∧
      before.count '\n' = front.count '\n' ∧
      (before.rtakeWhile (· != '\n')).length = lead.length := by
  induction before using List.reverseRecOn with
  | nil => exact ⟨[], [], rfl, .inl rfl, List.not_mem_nil, rfl, rfl⟩
  | append_singleton cs c ih =>
    by_cases hc : c = '\n'
    · subst hc
      rw [List.rtakeWhile_concat_neg _ _ _ (by simp)]
      exact ⟨cs ++ ['\n'], [], (List.append_nil _).symm, .inr List.getLast?_concat,
        List.not_mem_nil, rfl, rfl⟩
    · obtain ⟨front, lead, rfl, hstart, hlead, hcount, hlength⟩ := ih
      refine ⟨front, lead ++ [c], List.append_assoc .., hstart, ?_, ?_, ?_⟩
      · simpa [hlead] using Ne.symm hc
      · rw [List.count_append, hcount, List.count_singleton, if_neg (by simpa using hc),
          Nat.add_zero]
      · rw [List.rtakeWhile_concat_pos _ _ _ (by simpa using hc), List.length_append, hlength,
          List.length_append]

end TreeWalk.Text
