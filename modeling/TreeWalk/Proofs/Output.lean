import TreeWalk.Output

/-!
# Outputs with limits

An output that refuses a text keeps the bytes for which there was room, and nothing that is written
later goes through (`Output.writeAll_refused`). Up to the first refusal it holds what an output
without limits holds (`Output.writeAll_taken`), and then a part of it (`Output.Continues`).
-/

namespace TreeWalk

namespace Text

theorem utf8_append (cs ds : List Char) : utf8 (cs ++ ds) = utf8 cs ++ utf8 ds :=
  List.flatMap_append

/-- The characters that are whole and the bytes of the torn one are the first bytes. -/
theorem utf8_takeBytes (n : Nat) (cs : List Char) :
    utf8 (takeBytes n cs).1 ++ (takeBytes n cs).2 = (utf8 cs).take n := by
  induction cs generalizing n with
  | nil => simp [takeBytes, utf8]
  | cons c cs ih =>
    have hlength := String.length_utf8EncodeChar c
    have hcons : ∀ ds, utf8 (c :: ds) = String.utf8EncodeChar c ++ utf8 ds := fun ds =>
      List.flatMap_cons
    rw [takeBytes, hcons]
    split
    · next hfits =>
      have hall : (String.utf8EncodeChar c).take n = String.utf8EncodeChar c :=
        List.take_of_length_le (hlength ▸ hfits)
      rw [hcons, List.append_assoc, ih, List.take_append, hlength, hall]
    · next htorn =>
      have hle : n ≤ (String.utf8EncodeChar c).length := by omega
      rw [List.take_append_of_le_length hle]
      rfl

theorem takeBytes_prefix (n : Nat) (cs : List Char) : (takeBytes n cs).1 <+: cs := by
  induction cs generalizing n with
  | nil => exact List.prefix_rfl
  | cons c cs ih =>
    rw [takeBytes]
    split
    · exact List.prefix_cons_inj c |>.mpr (ih _)
    · exact List.nil_prefix

end Text

namespace Output

variable {o o' o₁ o₂ o₃ : Output} {text : String} {texts : List String}

/-! ## More and more written -/

/-- Everything that was written stays written, and refusals are answered alike. -/
structure Continues (o o' : Output) : Prop where
  text : ∃ more, o'.text = o.text ++ more
  bytes : o.bytes <+: o'.bytes
  refusal : o'.refusal = o.refusal

theorem Continues.refl (o : Output) : o.Continues o :=
  ⟨⟨"", String.append_empty.symm⟩, List.prefix_rfl, rfl⟩

theorem Continues.of_eq (h : o' = o) : o.Continues o' :=
  h ▸ .refl o

theorem Continues.trans (h : o₁.Continues o₂) (h' : o₂.Continues o₃) : o₁.Continues o₃ := by
  obtain ⟨more, htext⟩ := h.text
  obtain ⟨more', htext'⟩ := h'.text
  refine ⟨⟨more ++ more', ?_⟩, h.bytes.trans h'.bytes, h'.refusal.trans h.refusal⟩
  rw [htext', htext, String.append_assoc]

theorem bytes_append (o : Output) (text : String) :
    (o.append text).bytes = o.bytes ++ Text.utf8 text.toList := by
  unfold append
  split
  · next htorn => simp [bytes, Text.utf8_append, List.isEmpty_iff.mp htorn]
  · simp [bytes]

theorem text_append (o : Output) (text : String) :
    (o.append text).text = o.text ++ if o.torn.isEmpty then text else "" := by
  unfold append
  split <;> simp

@[simp] theorem refusal_append (o : Output) (text : String) :
    (o.append text).refusal = o.refusal := by
  unfold append
  split <;> rfl

theorem bytes_push (o : Output) (text : String) :
    (o.push text).bytes = o.bytes ++ Text.utf8 text.toList :=
  o.bytes_append text

/-- A text is torn at the byte behind which there is no room. -/
theorem bytes_tear (o : Output) (text : String) :
    (o.tear text).bytes = o.bytes ++ (Text.utf8 text.toList).take (o.room.getD 0) := by
  have happend := o.bytes_append (String.ofList (Text.takeBytes (o.room.getD 0) text.toList).1)
  rw [← Text.utf8_takeBytes, ← List.append_assoc,
    ← String.toList_ofList (l := (Text.takeBytes _ _).1), ← happend]
  exact (List.append_assoc ..).symm

theorem continues_push (o : Output) (text : String) : o.Continues (o.push text) where
  text := ⟨_, o.text_append text⟩
  bytes := o.bytes_push text ▸ List.prefix_append ..
  refusal := o.refusal_append text

theorem continues_tear (o : Output) (text : String) : o.Continues (o.tear text) where
  text := ⟨_, o.text_append _⟩
  bytes := o.bytes_tear text ▸ List.prefix_append ..
  refusal := o.refusal_append _

/-- With more room, the torn text goes on. -/
theorem tear_continues_push (o : Output) (text : String) :
    (o.tear text).Continues (o.push text) where
  text := by
    obtain ⟨rest, hrest⟩ := Text.takeBytes_prefix (o.room.getD 0) text.toList
    have hwhole := o.text_append (String.ofList (Text.takeBytes (o.room.getD 0) text.toList).1)
    refine ⟨if o.torn.isEmpty then String.ofList rest else "", ?_⟩
    change (o.append text).text = (o.append (String.ofList _)).text ++ _
    rw [hwhole, o.text_append, String.append_assoc]
    split
    · rw [← String.ofList_append, hrest, String.ofList_toList]
    · rfl
  bytes := by
    rw [bytes_tear, bytes_push]
    exact (List.prefix_append_right_inj _).mpr (List.take_prefix _ _)
  refusal := (o.refusal_append _).trans (o.refusal_append _).symm

/-! ## Without limits -/

/-- The output with its limits lifted. -/
def freed (o : Output) : Output :=
  { o with quota := none, writes := none, room := none }

theorem freed_push (o : Output) (text : String) : (o.push text).freed = o.freed.push text := by
  by_cases h : o.torn.isEmpty = true <;> simp [freed, push, append, h]

theorem Continues.freed (h : o.Continues o') : o.Continues o'.freed :=
  ⟨h.text, h.bytes, h.refusal⟩

theorem write_empty (o : Output) : o.write "" = (true, o) :=
  rfl

/-- An output that has reached a limit refuses every text. -/
theorem write_of_isClosed (h : o.isClosed = true) (text : String) :
    o.write text = (text.isEmpty, o) := by
  unfold write
  rw [if_pos h]
  split
  · next hempty => rw [hempty]
  · next hempty => rw [Bool.eq_false_iff.mpr hempty]

theorem write_freed (o : Output) (h : text.isEmpty = false) :
    o.freed.write text = (true, (o.push text).freed) := by
  have hopen : o.freed.isClosed = false := rfl
  have hfits : o.freed.fits text = true := rfl
  rw [write, h, hopen, hfits, freed_push]
  rfl

theorem write_taken (h : o.write text = (true, o')) :
    o.freed.write text = (true, o'.freed) ∧ o.Continues o' := by
  unfold write at h
  split at h
  · next hempty =>
    cases h
    exact ⟨if_pos hempty, .refl o⟩
  · next hempty =>
    split at h
    · cases h
    · split at h
      · cases h
        exact ⟨write_freed o (Bool.eq_false_iff.mpr hempty), continues_push o text⟩
      · cases h

/-- A refused text may have been taken in part, but nothing more will be. -/
theorem write_refused (h : o.write text = (false, o')) :
    (∃ all, o.freed.write text = (true, freed all) ∧ o'.Continues all) ∧ o.Continues o' ∧
      o'.isClosed = true := by
  unfold write at h
  split at h
  · cases h
  · next hempty =>
    have hfreed := write_freed o (Bool.eq_false_iff.mpr hempty)
    split at h
    · next hclosed =>
      cases h
      exact ⟨⟨o.push text, hfreed, continues_push o text⟩, .refl o, hclosed⟩
    · split at h
      · cases h
      · cases h
        exact ⟨⟨o.push text, hfreed, tear_continues_push o text⟩, continues_tear o text, by
          simp [isClosed, tear]⟩

/-! ## Texts in a row -/

theorem writeAll_cons_of_taken (h : o.write text = (true, o')) :
    o.writeAll (text :: texts) = o'.writeAll texts := by
  rw [writeAll, h]
  rfl

theorem writeAll_cons_of_refused (h : o.write text = (false, o')) :
    o.writeAll (text :: texts) = (false, o') := by
  rw [writeAll, h]
  rfl

/-- Without limits all texts are taken. -/
theorem exists_writeAll_freed (o : Output) (texts : List String) :
    ∃ o', o.freed.writeAll texts = (true, o') ∧ o.Continues o' := by
  induction texts generalizing o with
  | nil => exact ⟨o.freed, rfl, (Continues.refl o).freed⟩
  | cons text texts ih =>
    cases hempty : text.isEmpty with
    | true =>
      rw [String.isEmpty_iff.mp hempty, writeAll_cons_of_taken o.freed.write_empty]
      exact ih o
    | false =>
      obtain ⟨o', ho', hmore⟩ := ih (o.push text)
      rw [writeAll_cons_of_taken (write_freed o hempty)]
      exact ⟨o', ho', (continues_push o text).trans hmore⟩

theorem writeAll_taken (h : o.writeAll texts = (true, o')) :
    o.freed.writeAll texts = (true, o'.freed) ∧ o.Continues o' := by
  induction texts generalizing o with
  | nil =>
    cases h
    exact ⟨rfl, .refl _⟩
  | cons text texts ih =>
    rcases hwrite : o.write text with ⟨taken, o₁⟩
    cases taken with
    | true =>
      rw [writeAll_cons_of_taken hwrite] at h
      obtain ⟨hfreed₁, hmore₁⟩ := write_taken hwrite
      obtain ⟨hfreed, hmore⟩ := ih h
      rw [writeAll_cons_of_taken hfreed₁]
      exact ⟨hfreed, hmore₁.trans hmore⟩
    | false =>
      rw [writeAll_cons_of_refused hwrite] at h
      cases h

/-- Where a text is refused, part of what was to be written is there and nothing more will be. -/
theorem writeAll_refused (h : o.writeAll texts = (false, o')) :
    (∃ all, o.freed.writeAll texts = (true, all) ∧ o'.Continues all) ∧ o.Continues o' ∧
      ∀ text, o'.write text = (text.isEmpty, o') := by
  induction texts generalizing o with
  | nil => cases h
  | cons text texts ih =>
    rcases hwrite : o.write text with ⟨taken, o₁⟩
    cases taken with
    | true =>
      rw [writeAll_cons_of_taken hwrite] at h
      obtain ⟨hfreed₁, hmore₁⟩ := write_taken hwrite
      obtain ⟨⟨all, hall, hpart⟩, hmore, hclosed⟩ := ih h
      refine ⟨⟨all, ?_, hpart⟩, hmore₁.trans hmore, hclosed⟩
      rw [writeAll_cons_of_taken hfreed₁]
      exact hall
    | false =>
      rw [writeAll_cons_of_refused hwrite] at h
      cases h
      obtain ⟨⟨first, hfirst, hpart⟩, hmore, hclosed⟩ := write_refused hwrite
      obtain ⟨all, hall, hrest⟩ := exists_writeAll_freed first texts
      refine ⟨⟨all, ?_, hpart.trans hrest⟩, hmore, write_of_isClosed hclosed⟩
      rw [writeAll_cons_of_taken hfirst]
      exact hall

end Output

end TreeWalk
