import TreeWalk.Proofs.Parser.Alike
import TreeWalk.Proofs.Printer.Words

/-!
# Reading laid out forms again

`Replays V A B p r W` says that whatever `p` reads without errors has laid out forms, given by `W`,
which `r` reads as the same value. What comes next matters on both sides. `A` relates the token next
to what was read to the token next to the laid out form, and is needed; `B` relates the token with
which reading started to the first one of the laid out form, and is shown. So a sequence is put
together from its end. All tokens are from a vocabulary `V`.
-/

namespace TreeWalk.Parser

variable {α β : Type}

/-- The kind of the next token. -/
def nextKind (ks : List TokenKind) : TokenKind :=
  ks.headD .eof

@[simp]
theorem nextKind_cons (k : TokenKind) (ks : List TokenKind) : nextKind (k :: ks) = k := rfl

@[simp]
theorem next_words (ks : List TokenKind) :
    Context.next default (words ks) = ⟨nextKind ks, default⟩ := by
  cases ks <;> rfl

/-- Kinds of tokens among which are all marks and reserved words, and no number with a sign. -/
structure Vocabulary where
  Has : TokenKind → Prop
  eof : ¬ Has .eof
  punct : ∀ m, Has (.punct m)
  keyword : ∀ k, Has (.keyword k)
  unsigned : ∀ x, Has (.number x) → x.isNegative = false ∧ x.isNaN = false

theorem Vocabulary.nextKind_eq_eof (V : Vocabulary) (h : ∀ k ∈ ks, V.Has k) :
    nextKind ks = .eof ↔ ks = [] := by
  cases ks with
  | nil => simp [nextKind]
  | cons k ks =>
    have hk : k ≠ .eof := fun hk => V.eof (hk ▸ h k (by simp))
    simp [hk]

/-- Between the next token in one text and the next token in another. -/
abbrev Follow := TokenKind → TokenKind → Prop

/-- The same token, or `nil` where `()` was read. -/
def Starts : Follow := fun k k' =>
  k' = k ∨ k = .punct .lparen ∧ k' = .keyword .nil

theorem Starts.eq_of_ne (h : Starts k k') (hk : k' ≠ .keyword .nil) : k' = k :=
  h.resolve_right fun h => hk h.2

theorem Starts.back (h : Starts k k') (hk : k' = m) (hm : m ≠ .keyword .nil) : k = m :=
  (h.eq_of_ne (hk ▸ hm)).symm.trans hk

def Replays (V : Vocabulary) (A B : Follow) (p r : Parser α)
    (W : α → List TokenKind → Prop) : Prop :=
  ∀ ks a rest, (∀ k ∈ ks, V.Has k) → p.quiet default (words ks) = some (a, rest) →
    ∃ ks₁ w, rest = words ks₁ ∧ ks₁ <:+ ks ∧ W a w ∧ (∀ k ∈ w, V.Has k) ∧
      ∀ ks', (∀ k ∈ ks', V.Has k) → A (nextKind ks₁) (nextKind ks') →
        B (nextKind ks) (nextKind (w ++ ks')) ∧
          r.quiet default (words (w ++ ks')) = some (a, words ks')

variable {V : Vocabulary} {A B C : Follow} {p r : Parser α} {W : α → List TokenKind → Prop}

namespace Replays

theorem mono {A' B' : Follow} {W' : α → List TokenKind → Prop} (h : Replays V A B p r W)
    (hA : ∀ k k', A' k k' → A k k') (hB : ∀ k k', B k k' → B' k k') (hW : ∀ a w, W a w → W' a w) :
    Replays V A' B' p r W' := by
  intro ks a rest hks hp
  obtain ⟨ks₁, w, hrest, hsuf, hw, hhas, hagain⟩ := h ks a rest hks hp
  refine ⟨ks₁, w, hrest, hsuf, hW a w hw, hhas, fun ks' hks' hA' => ?_⟩
  obtain ⟨hB', hr⟩ := hagain ks' hks' (hA _ _ hA')
  exact ⟨hB _ _ hB', hr⟩

theorem pre {A' : Follow} (h : Replays V A B p r W) (hA : ∀ k k', A' k k' → A k k') :
    Replays V A' B p r W :=
  h.mono hA (fun _ _ h => h) fun _ _ h => h

theorem post {B' : Follow} (h : Replays V A B p r W) (hB : ∀ k k', B k k' → B' k k') :
    Replays V A B' p r W :=
  h.mono (fun _ _ h => h) hB fun _ _ h => h

theorem fail {e : String → Span → ParseError} : Replays V A B (failHere e) r W :=
  fun _ _ _ _ hp => nomatch hp

theorem pure (h : W a []) : Replays V A A (Pure.pure a) (Pure.pure a) W := by
  intro ks b rest hks hp
  cases hp
  exact ⟨ks, [], rfl, List.suffix_refl ks, h, fun _ hk => absurd hk List.not_mem_nil,
    fun ks' _ hA => ⟨hA, rfl⟩⟩

/-- Only what the second parser does on tokens without places matters. -/
theorem congr_right {r' : Parser α} (h : Replays V A B p r W)
    (heq : ∀ ks, r'.quiet default (words ks) = r.quiet default (words ks)) :
    Replays V A B p r' W := by
  intro ks a rest hks hp
  obtain ⟨ks₁, w, hrest, hsuf, hw, hhas, hagain⟩ := h ks a rest hks hp
  refine ⟨ks₁, w, hrest, hsuf, hw, hhas, fun ks' hks' hA => ?_⟩
  rw [heq]
  exact hagain ks' hks' hA

theorem bind {f g : α → Parser β} {W' : β → List TokenKind → Prop} (hp : Replays V A B p r W)
    (hf : ∀ a w, W a w → Replays V C A (f a) (g a) fun b w' => W' b (w ++ w')) :
    Replays V C B (p >>= f) (r >>= g) W' := by
  intro ks b rest hks h
  rw [quiet_bind, Option.bind_eq_some_iff] at h
  obtain ⟨⟨a, mid⟩, ha, hb⟩ := h
  obtain ⟨ks₁, w, rfl, hsuf, hw, hhas, hagain⟩ := hp ks a mid hks ha
  obtain ⟨ks₂, w', rfl, hsuf', hw', hhas', hagain'⟩ :=
    hf a w hw ks₁ b rest (fun k hk => hks k (hsuf.mem hk)) hb
  refine ⟨ks₂, w ++ w', rfl, hsuf'.trans hsuf, hw', List.forall_mem_append.mpr ⟨hhas, hhas'⟩,
    fun ks' hks' hC => ?_⟩
  · obtain ⟨hA, hg⟩ := hagain' ks' hks' hC
    obtain ⟨hB, hr⟩ := hagain (w' ++ ks') (List.forall_mem_append.mpr ⟨hhas', hks'⟩) hA
    rw [List.append_assoc]
    exact ⟨hB, by rw [quiet_bind, hr, Option.bind_some]; exact hg⟩

/-! ## Single tokens -/

/-- One token and what is read behind it, where the same is read behind it again. -/
theorem token {forms : Token → Option (Parser α)} {U : α → List TokenKind → Prop} (hk : V.Has k)
    (hforms : forms ⟨k, default⟩ = some r) (hB : B k k) (h : Replays V A C p r U)
    (hW : ∀ a w, U a w → W a (k :: w)) :
    Replays V A (fun _ k' => B k k') p (branch forms q) W := by
  intro ks a rest hks hp
  obtain ⟨ks₁, w, hrest, hsuf, hw, hhas, hagain⟩ := h ks a rest hks hp
  refine ⟨ks₁, k :: w, hrest, hsuf, hW a w hw, ?_, fun ks' hks' hA => ⟨hB, ?_⟩⟩
  · exact List.forall_mem_cons.mpr ⟨hk, hhas⟩
  · rw [quiet_branch, next_words, List.cons_append, nextKind_cons, hforms]
    exact (hagain ks' hks' hA).2

theorem branch_as {forms : Token → Option (Parser α)} (hend : forms ⟨.eof, default⟩ = none)
    (hforms : ∀ k q, V.Has k → forms ⟨k, default⟩ = some q → Replays V A (fun _ k' => B k k') q r W)
    (ho : Replays V A B p r W) : Replays V A B (branch forms p) r W := by
  intro ks a rest hks h
  rw [quiet_branch, next_words] at h
  split at h
  · next q hq =>
    cases ks with
    | nil => exact absurd (hend.symm.trans hq) (by simp)
    | cons k ks =>
      rw [nextKind_cons] at hq
      obtain ⟨hk, hks⟩ := List.forall_mem_cons.mp hks
      obtain ⟨ks₁, w, hrest, hsuf, hagain⟩ := hforms k q hk hq ks a rest hks h
      exact ⟨ks₁, w, hrest, hsuf.trans (List.suffix_cons k ks), hagain⟩
  · exact ho ks a rest hks h

theorem onKind_as {f : Token → Parser α} (hk : kind ≠ .eof)
    (hf : V.Has kind → Replays V A (fun _ k' => B kind k') (f ⟨kind, default⟩) r W)
    (ho : Replays V A B p r W) : Replays V A B (Parser.onKind kind f p) r W := by
  refine branch_as (if_neg (by simpa using Ne.symm hk)) (fun k q hhas hq => ?_) ho
  split at hq
  · next heq =>
    cases hq
    obtain rfl := eq_of_beq heq
    exact hf hhas
  · cases hq

theorem branch {forms forms' : Token → Option (Parser α)} (hend : forms ⟨.eof, default⟩ = none)
    (hforms : ∀ k q, V.Has k → forms ⟨k, default⟩ = some q →
      Replays V A (fun _ k' => B k k') q (branch forms' r) W)
    (ho : Replays V A B p r W)
    (hnone : ∀ k k', B k k' → forms ⟨k, default⟩ = none → forms' ⟨k', default⟩ = none) :
    Replays V A B (Parser.branch forms p) (Parser.branch forms' r) W := by
  intro ks a rest hks h
  cases hnext : forms ⟨nextKind ks, default⟩ with
  | some q => exact branch_as (p := failHere default) hend hforms .fail ks a rest hks (by
      rw [quiet_branch, next_words, hnext] at h ⊢; exact h)
  | none =>
    rw [quiet_branch, next_words, hnext] at h
    obtain ⟨ks₁, w, hrest, hsuf, hw, hhas, hagain⟩ := ho ks a rest hks h
    refine ⟨ks₁, w, hrest, hsuf, hw, hhas, fun ks' hks' hA => ?_⟩
    obtain ⟨hB, hr⟩ := hagain ks' hks' hA
    refine ⟨hB, ?_⟩
    rw [quiet_branch, next_words, hnone _ _ hB hnext]
    exact hr

theorem onKind {f g : Token → Parser α} (hk : kind ≠ .eof)
    (hf : V.Has kind →
      Replays V A (fun _ k' => B kind k') (f ⟨kind, default⟩) (Parser.onKind kind g r) W)
    (ho : Replays V A B p r W) (hnone : ∀ k k', B k k' → k' = kind → k = kind) :
    Replays V A B (Parser.onKind kind f p) (Parser.onKind kind g r) W := by
  refine branch (if_neg (by simpa using Ne.symm hk)) (fun k q hhas hq => ?_) ho fun k k' hB h => ?_
  · split at hq
    · next heq =>
      cases hq
      obtain rfl := eq_of_beq heq
      exact hf hhas
    · cases hq
  · split at h
    · cases h
    · next hne => exact if_neg fun heq => hne (by simpa using hnone k k' hB (eq_of_beq heq))

/-- The second parser passes by a form that cannot start where the words start. -/
theorem otherwise {forms : Token → Option (Parser α)} (h : Replays V A B p r W)
    (hnone : ∀ k k', B k k' → forms ⟨k', default⟩ = none) :
    Replays V A B p (Parser.branch forms r) W := by
  intro ks a rest hks hp
  obtain ⟨ks₁, w, hrest, hsuf, hw, hhas, hagain⟩ := h ks a rest hks hp
  refine ⟨ks₁, w, hrest, hsuf, hw, hhas, fun ks' hks' hA => ?_⟩
  obtain ⟨hB, hr⟩ := hagain ks' hks' hA
  refine ⟨hB, ?_⟩
  rw [quiet_branch, next_words, hnone _ _ hB]
  exact hr

theorem otherwiseOn {f : Token → Parser α} (h : Replays V A B p r W)
    (hne : ∀ k k', B k k' → k' ≠ kind) :
    Replays V A B p (Parser.onKind kind f r) W :=
  otherwise h fun k k' hB => if_neg (by simpa using hne k k' hB)

theorem tokenOn {f : Token → Parser α} {U : α → List TokenKind → Prop} (hk : V.Has kind)
    (hB : B kind kind) (h : Replays V A C p (f ⟨kind, default⟩) U)
    (hW : ∀ a w, U a w → W a (kind :: w)) :
    Replays V A (fun _ k' => B kind k') p (Parser.onKind kind f r) W :=
  token hk (if_pos (beq_self_eq_true kind)) hB h hW

theorem expect (hk : kind ≠ .eof) (hB : B kind kind) :
    Replays V A B (Parser.expect kind context) (Parser.expect kind context) fun _ w =>
      w = [kind] := by
  refine (onKind (B := fun k k' => k = kind ∧ k' = kind) hk (fun hhas => ?_) .fail ?_).mono
    (fun _ _ h => h) ?_ fun _ _ h => h
  · refine tokenOn (B := fun k k' => k = kind ∧ k' = kind) (U := fun _ w => w = []) hhas ⟨rfl, rfl⟩
      (.pure rfl) ?_
    rintro _ _ rfl
    rfl
  · exact fun _ _ h _ => h.1
  · rintro _ _ ⟨rfl, rfl⟩
    exact hB

theorem mark (hB : B (.punct m) (.punct m)) :
    Replays V A B (Parser.mark m context) (Parser.mark m context) fun _ w => w = [.punct m] :=
  expect (by simp) hB

theorem word (hB : B (.keyword k) (.keyword k)) :
    Replays V A B (Parser.word k context) (Parser.word k context) fun _ w => w = [.keyword k] :=
  expect (by simp) hB

theorem ident (hB : ∀ name, B (.ident name) (.ident name)) :
    Replays V A B (Parser.ident context) (Parser.ident context) fun i w => w = [.ident i.name] := by
  refine branch_as rfl (fun k q hk hq => ?_) .fail
  cases k with
  | ident name =>
    cases hq
    exact token hk rfl (hB name) (.pure (W := fun i w => i.name = name ∧ w = []) ⟨rfl, rfl⟩)
      fun i w h => by rw [h.1, h.2]
  | _ => cases hq

/-! ## Repetition -/

/-- Words of a list, from words of its items as they were read one by one. -/
inductive ItemWords (W : Item α → List TokenKind → Prop) : List α → List TokenKind → Prop
  | none : W .none w → ItemWords W [] w
  | last : W (.last a) w → ItemWords W [a] w
  | more : W (.more a) w → ItemWords W as w' → ItemWords W (a :: as) (w ++ w')

theorem collect {step step' : Nat → Parser (Item α)} {W : Item α → List TokenKind → Prop}
    (h : ∀ n, Replays V A B (step n) (step' n) W) (hBA : ∀ k k', B k k' → A k k')
    (hmore : ∀ a w, W (.more a) w → w ≠ []) (n : Nat) :
    Replays V A B (Parser.collect step n) (Parser.collect step' n) (ItemWords W) := by
  intro ks as rest hks hc
  induction hm : ks.length using Nat.strongRecOn generalizing ks n as rest with
  | ind m ih =>
    rw [quiet_collect] at hc
    cases hstep : (step n).quiet default (words ks) with
    | none => rw [hstep] at hc; cases hc
    | some r =>
      obtain ⟨item, mid⟩ := r
      obtain ⟨ks₁, w, rfl, hsuf, hw, hhas, hagain⟩ := h n ks item mid hks hstep
      rw [hstep] at hc
      cases item with
      | none =>
        cases hc
        refine ⟨ks₁, w, rfl, hsuf, .none hw, hhas, fun ks' hks' hA => ?_⟩
        obtain ⟨hB, hr⟩ := hagain ks' hks' hA
        exact ⟨hB, by rw [quiet_collect, hr]⟩
      | last a =>
        cases hc
        refine ⟨ks₁, w, rfl, hsuf, .last hw, hhas, fun ks' hks' hA => ?_⟩
        obtain ⟨hB, hr⟩ := hagain ks' hks' hA
        exact ⟨hB, by rw [quiet_collect, hr]⟩
      | more a =>
        dsimp only at hc
        split at hc
        · next hlt =>
          obtain ⟨⟨as', rest'⟩, hc', heq⟩ := Option.map_eq_some_iff.mp hc
          cases heq
          have hlt : ks₁.length < m := by simpa [words, hm] using hlt
          obtain ⟨ks₂, w', rfl, hsuf', hw', hhas', hagain'⟩ :=
            ih _ hlt (n + 1) ks₁ as' rest' (fun k hk => hks k (hsuf.mem hk)) hc' rfl
          refine ⟨ks₂, w ++ w', rfl, hsuf'.trans hsuf, .more hw hw',
            List.forall_mem_append.mpr ⟨hhas, hhas'⟩, fun ks' hks' hA => ?_⟩
          obtain ⟨hB', hr'⟩ := hagain' ks' hks' hA
          obtain ⟨hB, hr⟩ :=
            hagain (w' ++ ks') (List.forall_mem_append.mpr ⟨hhas', hks'⟩) (hBA _ _ hB')
          rw [List.append_assoc]
          refine ⟨hB, ?_⟩
          have hpos := List.length_pos_iff.mpr (hmore a w hw)
          rw [quiet_collect, hr]
          simp only [words, List.length_map, List.length_append]
          rw [if_pos (by omega), ← words, hr']
          rfl
        · cases hc

theorem fix {ι : Type} {step : (ι → Parser α) → ι → Parser α} {R : α → α → Prop} {v : α → α}
    {A B : ι → Follow} {W : ι → α → List TokenKind → Prop} (hv : ∀ a b, R a b → b = v a)
    (hlike : ∀ n self self', (∀ j, Alike (.bare default) n c R (self j) (self' j)) →
      ∀ i, Alike (.bare default) (n + 1) c R (step self i) (step self' i))
    (h : ∀ self, (∀ j, Replays V (A j) (B j) (self j) (Parser.fix step j) (W j)) →
      ∀ i, Replays V (A i) (B i) (step self i) (step (Parser.fix step) i) (W i)) (i : ι) :
    Replays V (A i) (B i) (Parser.fix step i) (Parser.fix step i) (W i) := by
  have hunrolled : ∀ n i, Replays V (A i) (B i) (unrolled step (fun _ => stuck) n i)
      (Parser.fix step i) (W i) := by
    intro n
    induction n with
    | zero => exact fun i => .fail
    | succ n ih => exact fun i => (h _ ih i).congr_right fun ks => quiet_fix_unfold hv hlike ks i
  intro ks a rest hks hp
  exact hunrolled _ i ks a rest hks
    (quiet_fix_eq_unrolled hv hlike (Nat.lt_succ_self ks.length) i ▸ hp)

/-! ## Optional parts -/

theorem eat (hk : kind ≠ .eof) (hB : B kind kind)
    (hA : ∀ k k', A k k' → B k k' ∧ (k' = kind → k = kind)) :
    Replays V A B (Parser.eat kind) (Parser.eat kind) fun b w => w = if b then [kind] else [] := by
  refine (onKind (B := fun k k' => B k k' ∧ (k' = kind → k = kind)) hk (fun hhas => ?_) ?_ ?_).mono
    (fun _ _ h => h) (fun _ _ h => h.1) fun _ _ h => h
  · exact tokenOn (B := fun k k' => B k k' ∧ (k' = kind → k = kind)) hhas ⟨hB, fun _ => rfl⟩
      (.pure (W := fun b w => b = true ∧ w = []) ⟨rfl, rfl⟩) fun b w h => by simp [h.1, h.2]
  · exact (Replays.pure (by simp)).mono (fun _ _ h => h) hA fun _ _ h => h
  · exact fun k k' h => h.2

/-- A mark that may be missing is always laid out. -/
theorem optionalMark (hB : ∀ k, B k (.punct m)) (hW : W a [.punct m]) :
    Replays V A B (do let _ ← Parser.eat (.punct m); return a)
      (do let _ ← Parser.eat (.punct m); return a)
      W := by
  intro ks b rest hks hp
  have hagain : ∀ ks', (do let _ ← Parser.eat (.punct m); return a : Parser α).quiet default
      (words ([.punct m] ++ ks')) = some (a, words ks') := by
    intro ks'
    simp [quiet_eat]
  have hhas : ∀ k ∈ [TokenKind.punct m], V.Has k := by simp [V.punct]
  simp only [quiet_bind, quiet_eat, next_words, quiet_pure, Option.bind_some] at hp
  cases ks with
  | nil =>
    cases hp
    exact ⟨[], [.punct m], rfl, List.suffix_refl [], hW, hhas, fun ks' _ _ => ⟨hB _, hagain ks'⟩⟩
  | cons k ks =>
    split at hp
    · cases hp
      exact ⟨ks, [.punct m], rfl, List.suffix_cons k ks, hW, hhas, fun ks' _ _ =>
        ⟨hB _, hagain ks'⟩⟩
    · cases hp
      exact ⟨k :: ks, [.punct m], rfl, List.suffix_refl _, hW, hhas, fun ks' _ _ =>
        ⟨hB _, hagain ks'⟩⟩

/-- Words of an optional part with a token in front. -/
def Led (kind : TokenKind) (W : α → List TokenKind → Prop) : Option α → List TokenKind → Prop
  | none, w => w = []
  | some a, w => ∃ w', W a w' ∧ w = kind :: w'

theorem behind {D : Follow} (hk : kind ≠ .eof) (h : Replays V A D p r W) (hB : B kind kind)
    (hA : ∀ k k', A k k' → B k k' ∧ (k' = kind → k = kind)) :
    Replays V A B (Parser.behind kind p) (Parser.behind kind r) (Led kind W) := by
  refine (onKind (B := fun k k' => B k k' ∧ (k' = kind → k = kind)) hk (fun hhas => ?_) ?_ ?_).mono
    (fun _ _ h => h) (fun _ _ h => h.1) fun _ _ h => h
  · refine tokenOn (B := fun k k' => B k k' ∧ (k' = kind → k = kind))
      (U := fun o w => ∃ a, o = some a ∧ W a w)
      hhas ⟨hB, fun _ => rfl⟩ (.bind h fun a w hw => .pure ⟨a, rfl, by simpa using hw⟩) ?_
    rintro _ w ⟨a, rfl, hw⟩
    exact ⟨w, hw, rfl⟩
  · exact (Replays.pure (W := Led kind W) (a := none) rfl).mono (fun _ _ h => h) hA fun _ _ h => h
  · exact fun k k' h => h.2

/-- Words of an optional part. -/
def Given (W : α → List TokenKind → Prop) : Option α → List TokenKind → Prop
  | none, w => w = []
  | some a, w => W a w

theorem unlessAt (h : Replays V A B p r W) (hA : ∀ k, A k k) (hB : B kind kind)
    (hne : ∀ k k', B k k' → k' = kind → k = kind) :
    Replays V (fun k k' => k' = k) B (Parser.unlessAt kind p) (Parser.unlessAt kind r)
      (Given W) := by
  intro ks o rest hks hp
  simp only [Parser.unlessAt, quiet_bind, quiet_check, next_words, Option.bind_some] at hp
  by_cases hnext : nextKind ks = kind
  · simp only [hnext, beq_self_eq_true, if_true, quiet_pure] at hp
    cases hp
    refine ⟨ks, [], rfl, List.suffix_refl ks, rfl, fun _ hk => absurd hk List.not_mem_nil, ?_⟩
    intro ks' _ hA'
    have hnext' : nextKind ks' = kind := hA'.trans hnext
    refine ⟨by rw [hnext, List.nil_append, hnext']; exact hB, ?_⟩
    simp [Parser.unlessAt, hnext']
  · simp only [beq_eq_false_iff_ne.mpr hnext, Bool.false_eq_true, if_false, quiet_bind] at hp
    obtain ⟨⟨a, mid⟩, ha, ho⟩ := Option.bind_eq_some_iff.mp hp
    cases ho
    obtain ⟨ks₁, w, hrest, hsuf, hw, hhas, hagain⟩ := h ks a mid hks ha
    refine ⟨ks₁, w, hrest, hsuf, hw, hhas, fun ks' hks' hA' => ?_⟩
    obtain ⟨hB', hr⟩ := hagain ks' hks' (by rw [hA']; exact hA _)
    have hnext' : nextKind (w ++ ks') ≠ kind := fun heq => hnext (hne _ _ hB' heq)
    refine ⟨hB', ?_⟩
    simp [Parser.unlessAt, hnext', hr]

/-! ## Lists -/

/-- Words of an item with a separator behind it, or of the last item. -/
def Separated (sep : Punct) (W : α → List TokenKind → Prop) : Item α → List TokenKind → Prop
  | .none, _ => False
  | .last a, w => W a w
  | .more a, w => ∃ w', W a w' ∧ w = w' ++ [.punct sep]

theorem itemThen (h : Replays V A B p r W) (hA : A (.punct sep) (.punct sep))
    (hC : ∀ k k', C k k' → A k k' ∧ (k' = .punct sep → k = .punct sep)) :
    Replays V C B (Parser.itemThen sep p) (Parser.itemThen sep r) (Separated sep W) := by
  refine .bind h fun a w hw => .bind (eat (by simp) hA hC) fun more w' hw' => .pure ?_
  subst hw'
  cases more with
  | true => exact ⟨w, hw, by simp⟩
  | false => simpa [Separated] using hw

theorem limit : Replays V A A (Parser.limit kind n) (Parser.limit kind n) fun _ w => w = [] := by
  intro ks a rest hks hp
  rw [quiet_limit] at hp
  split at hp
  · cases hp
  · next hn =>
    cases hp
    exact ⟨ks, [], rfl, List.suffix_refl ks, rfl, fun _ hk => absurd hk List.not_mem_nil,
      fun ks' _ hA => ⟨hA, by rw [quiet_limit, if_neg hn]; rfl⟩⟩

theorem joinWords_of_items {pr : α → List TokenKind}
    (h : ItemWords (Separated sep fun a w => w = pr a) as w) :
    as ≠ [] ∧ w = joinWords (.punct sep) (as.map pr) := by
  induction h with
  | none h => cases h
  | last h => exact ⟨by simp, by simpa [Separated, joinWords] using h⟩
  | @more a w as w' h hrest ih =>
    obtain ⟨w, rfl, rfl⟩ := h
    obtain ⟨hne, rfl⟩ := ih
    obtain ⟨b, bs, rfl⟩ := List.exists_cons_of_ne_nil hne
    exact ⟨by simp, by simp [joinWords]⟩

section

variable {pr : α → List TokenKind}
  (hC : ∀ k k', C k k' → A k k' ∧ (k' = .punct .comma → k = .punct .comma))
  (hB : ∀ k k', B k k' → A k k' ∧ (k' = .punct .comma → k = .punct .comma))
include hC hB

/-- One or more items with commas between them. -/
theorem commas {step step' : Nat → Parser (Item α)}
    (hstep : ∀ n,
      Replays V (fun k k' => A k k' ∧ (k' = .punct .comma → k = .punct .comma)) B (step n)
      (step' n) (Separated .comma fun a w => w = pr a)) (n : Nat) :
    Replays V C B (Parser.collect step n) (Parser.collect step' n) fun as w =>
      as ≠ [] ∧ w = joinWords (.punct .comma) (as.map pr) := by
  refine (collect hstep hB (fun a w hw => ?_) n).mono hC (fun _ _ h => h) fun _ _ h =>
    joinWords_of_items h
  obtain ⟨w', -, rfl⟩ := hw
  simp

variable (h : Replays V A B p r fun a w => w = pr a) (hA : A (.punct .comma) (.punct .comma))
include h hA

theorem commaList (n : Nat) :
    Replays V C B (Parser.commaList kind p n) (Parser.commaList kind r n) fun as w =>
      as ≠ [] ∧ w = joinWords (.punct .comma) (as.map pr) := by
  refine commas hC hB (fun n => .bind limit fun _ w hw => ?_) n
  subst hw
  exact itemThen h hA fun _ _ h => h

theorem commaItems (n : Nat) :
    Replays V C B (Parser.collect (fun _ => Parser.itemThen .comma p) n)
      (Parser.collect (fun _ => Parser.itemThen .comma r) n) fun as w =>
      as ≠ [] ∧ w = joinWords (.punct .comma) (as.map pr) :=
  commas hC hB (fun _ => itemThen h hA fun _ _ h => h) n

end

theorem recovering (h : Replays V A B p r W) :
    Replays V A B (Parser.recovering p) (Parser.recovering r) fun o w =>
      ∃ a, o = some a ∧ W a w := by
  intro ks o rest hks hp
  rw [quiet_recovering] at hp
  obtain ⟨⟨a, rest⟩, ha, heq⟩ := Option.map_eq_some_iff.mp hp
  cases heq
  obtain ⟨ks₁, w, hrest, hsuf, hw, hhas, hagain⟩ := h ks a rest hks ha
  refine ⟨ks₁, w, hrest, hsuf, ⟨a, rfl, hw⟩, hhas, fun ks' hks' hA => ?_⟩
  obtain ⟨hB, hr⟩ := hagain ks' hks' hA
  exact ⟨hB, by rw [quiet_recovering, hr]; rfl⟩

/-- Words of a list of items that stand one behind the other. -/
def Listed (W : α → List TokenKind → Prop) : Item α → List TokenKind → Prop
  | .none, w => w = []
  | .last _, _ => False
  | .more a, w => W a w ∧ w ≠ []

theorem flatMap_of_items {pr : α → List TokenKind}
    (h : ItemWords (Listed fun a w => w = pr a) as w) : w = as.flatMap pr := by
  induction h with
  | none h => exact h
  | last h => cases h
  | more h _ ih => rw [ih, List.flatMap_cons, h.1]

/-- A step of reading a list that stops where `stop` says so. The next token alone decides this. -/
theorem listStep {stop : Parser Bool} {b : TokenKind → Bool}
    (hstop : ∀ ks, (∀ k ∈ ks, V.Has k) →
      stop.quiet default (words ks) = some (b (nextKind ks), words ks))
    (hb : ∀ k k', Starts k k' → b k' = b k) (h : Replays V A Starts p r fun a w => W a w ∧ w ≠ [])
    (hA : ∀ k k', Starts k k' → A k k') :
    Replays V Starts Starts (do if ← stop then return .none else return .more (← p))
      (do if ← stop then return .none else return .more (← r)) (Listed W) := by
  intro ks item rest hks hp
  rw [quiet_bind, hstop ks hks, Option.bind_some] at hp
  cases hend : b (nextKind ks) with
  | true =>
    simp only [hend, if_true, quiet_pure] at hp
    cases hp
    refine ⟨ks, [], rfl, List.suffix_refl ks, rfl, fun _ hk => absurd hk List.not_mem_nil, ?_⟩
    intro ks' hks' hstarts
    refine ⟨hstarts, ?_⟩
    rw [List.nil_append, quiet_bind, hstop ks' hks', hb _ _ hstarts, hend]
    rfl
  | false =>
    simp only [hend, Bool.false_eq_true, if_false, quiet_bind] at hp
    obtain ⟨⟨a, mid⟩, ha, hitem⟩ := Option.bind_eq_some_iff.mp hp
    cases hitem
    obtain ⟨ks₁, w, hrest, hsuf, hw, hhas, hagain⟩ := h ks a _ hks ha
    refine ⟨ks₁, w, hrest, hsuf, hw, hhas, fun ks' hks' hstarts => ?_⟩
    obtain ⟨hB, hr⟩ := hagain ks' hks' (hA _ _ hstarts)
    refine ⟨hB, ?_⟩
    rw [quiet_bind, hstop _ (List.forall_mem_append.mpr ⟨hhas, hks'⟩), hb _ _ hB, hend]
    simp [hr]

theorem itemsUntil {pr : α → List TokenKind}
    (h : Replays V A Starts p r fun a w => w = pr a ∧ w ≠ []) (hA : ∀ k k', Starts k k' → A k k')
    (hclose : close ≠ .lparen) :
    Replays V Starts Starts (Parser.itemsUntil close p) (Parser.itemsUntil close r) fun as w =>
      w = as.flatMap pr := by
  refine (collect (fun _ => listStep (b := fun k => k == .punct close || k == .eof) ?_ ?_ h hA)
    (fun _ _ h => h)
    (fun _ _ h => h.2) 0).mono (fun _ _ h => h) (fun _ _ h => h) fun _ _ h => flatMap_of_items h
  · intro ks hks
    have hempty : (words ks).isEmpty = true ↔ (nextKind ks == .eof) = true := by
      rw [beq_iff_eq, V.nextKind_eq_eof hks, List.isEmpty_iff, words, List.map_eq_nil_iff]
    rw [quiet_ends, next_words, Bool.eq_iff_iff.mpr hempty]
  · rintro k k' (rfl | ⟨rfl, rfl⟩)
    · rfl
    · have hne : (TokenKind.punct .lparen == .punct close) = false := by simpa using Ne.symm hclose
      rw [hne]
      rfl

/-! Items up to a closing mark, one step at a time. -/

theorem quiet_itemThen_more (h : p.quiet default ts = some (a, words (.punct sep :: ks))) :
    (Parser.itemThen sep p).quiet default ts = some (.more a, words ks) := by
  simp [Parser.itemThen, quiet_eat, h]

theorem quiet_itemThen_last (h : p.quiet default ts = some (a, words ks))
    (hk : nextKind ks ≠ .punct sep) :
    (Parser.itemThen sep p).quiet default ts = some (.last a, words ks) := by
  simp [Parser.itemThen, quiet_eat, h, hk]

/-- What `Parser.items` reads, from the `n`th item on. -/
def itemsFrom (sep close : Punct) (p : Parser α) (n : Nat) : Parser (List α) :=
  Parser.collect (fun _ => do
    if ← ends close then
      return .none
    else
      Parser.itemThen sep p) n

theorem quiet_itemsFrom_end (h : nextKind ks = .punct close ∨ ks = []) :
    (itemsFrom sep close p n).quiet default (words ks) = some ([], words ks) := by
  have hends : (nextKind ks == .punct close || (words ks).isEmpty) = true := by
    rcases h with h | rfl
    · simp [h]
    · rfl
  rw [itemsFrom, quiet_collect]
  simp [hends]

theorem quiet_itemsFrom (h : nextKind ks ≠ .punct close) (hne : ks ≠ []) :
    (itemsFrom sep close p n).quiet default (words ks) =
      match (Parser.itemThen sep p).quiet default (words ks) with
      | none => none
      | some (.none, rest) => some ([], rest)
      | some (.last a, rest) => some ([a], rest)
      | some (.more a, rest) =>
        if rest.length < (words ks).length then
          ((itemsFrom sep close p (n + 1)).quiet default rest).map fun (as, rest) => (a :: as, rest)
        else none := by
  have hends : (nextKind ks == .punct close || (words ks).isEmpty) = false := by
    simp [h, words, hne]
  rw [itemsFrom, quiet_collect]
  simp only [quiet_bind, quiet_ends, next_words, hends, Option.bind_some]
  rfl

theorem quiet_itemsFrom_last (h : nextKind ks ≠ .punct close) (hne : ks ≠ [])
    (ha : p.quiet default (words ks) = some (a, words ks')) (hsep : nextKind ks' ≠ .punct sep) :
    (itemsFrom sep close p n).quiet default (words ks) = some ([a], words ks') := by
  rw [quiet_itemsFrom h hne, quiet_itemThen_last ha hsep]

theorem quiet_itemsFrom_more (h : nextKind ks ≠ .punct close) (hne : ks ≠ [])
    (ha : p.quiet default (words ks) = some (a, words (.punct sep :: ks'))) :
    (itemsFrom sep close p n).quiet default (words ks) = some (as, rest) ↔
      ks'.length < ks.length ∧ ∃ as', as = a :: as' ∧
        (itemsFrom sep close p (n + 1)).quiet default (words ks') = some (as', rest) := by
  rw [quiet_itemsFrom h hne, quiet_itemThen_more ha]
  simp only [words, List.length_map]
  split
  · next hlt =>
    rw [Option.map_eq_some_iff]
    constructor
    · rintro ⟨⟨as', _⟩, hrest, ⟨⟩⟩
      exact ⟨hlt, as', rfl, hrest⟩
    · rintro ⟨-, as', rfl, hrest⟩
      exact ⟨(as', rest), hrest, rfl⟩
  · next hlt => simp [hlt]

/-- Items up to a closing mark; a separator in front of the mark is not laid out. -/
theorem items {pr : α → List TokenKind} (h : Replays V A B p r fun a w => w = pr a)
    (hAclose : ∀ k, A k (.punct close)) (hAsep : A (.punct sep) (.punct sep)) (hne : close ≠ sep)
    (hB : ∀ k k', B k k' → k' = .punct close → k = .punct close) :
    Replays V (fun _ k' => k' = .punct close) (fun _ _ => True) (Parser.items sep close p)
      (Parser.items sep close r) fun as w => w = joinWords (.punct sep) (as.map pr) := by
  suffices ∀ n, Replays V (fun _ k' => k' = .punct close) (fun _ _ => True)
    (itemsFrom sep close p n)
      (itemsFrom sep close r n) fun as w => w = joinWords (.punct sep) (as.map pr) from this 0
  intro n ks as rest hks hc
  induction hm : ks.length using Nat.strongRecOn generalizing ks n as rest with
  | ind m ih =>
    by_cases hend : nextKind ks = .punct close ∨ ks = []
    · rw [quiet_itemsFrom_end hend] at hc
      cases hc
      exact ⟨ks, [], rfl, List.suffix_refl ks, rfl, fun _ hk => absurd hk List.not_mem_nil,
        fun ks' _ hclose => ⟨trivial, quiet_itemsFrom_end (.inl hclose)⟩⟩
    obtain ⟨hclosing, hnil⟩ := not_or.mp hend
    cases ha : p.quiet default (words ks) with
    | none =>
      rw [quiet_itemsFrom hclosing hnil] at hc
      simp [Parser.itemThen, ha] at hc
    | some found =>
      obtain ⟨a, mid⟩ := found
      obtain ⟨ks₁, w, rfl, hsuf, rfl, hhas, hagain⟩ := h ks a mid hks ha
      -- Wherever the item stands, it is not taken for the end.
      have hstart : ∀ ks', (∀ k ∈ ks', V.Has k) → A (nextKind ks₁) (nextKind ks') →
          nextKind (pr a ++ ks') ≠ .punct close :=
        fun ks' hks' hA hk => hclosing (hB _ _ (hagain ks' hks' hA).1 hk)
      have hlast : ∀ ks', (∀ k ∈ ks', V.Has k) → nextKind ks' = .punct close →
          (itemsFrom sep close r n).quiet default (words (pr a ++ ks')) =
            some ([a], words ks') := by
        intro ks' hks' hclose
        have hA : A (nextKind ks₁) (nextKind ks') := hclose ▸ hAclose _
        have hne' : ks' ≠ [] := by rintro rfl; cases hclose
        exact quiet_itemsFrom_last (hstart ks' hks' hA) (List.append_ne_nil_of_right_ne_nil _ hne')
          (hagain ks' hks' hA).2 (by simp [hclose, hne])
      by_cases hsep : nextKind ks₁ = .punct sep
      · cases ks₁ with
        | nil => cases hsep
        | cons k ks₁ =>
          obtain rfl : k = .punct sep := hsep
          obtain ⟨hlt, as', rfl, hc'⟩ := (quiet_itemsFrom_more hclosing hnil ha).mp hc
          have hks₁ : ∀ k ∈ ks₁, V.Has k := fun k hk => hks k (hsuf.mem (List.mem_cons_of_mem _ hk))
          obtain ⟨ks₂, w', hrest, hsuf', hw', hhas', hagain'⟩ :=
            ih _ (hm ▸ hlt) (n + 1) ks₁ as' _ hks₁ hc' rfl
          have hsuf'' : ks₂ <:+ ks := hsuf'.trans ((List.suffix_cons _ _).trans hsuf)
          cases as' with
          | nil =>
            exact ⟨ks₂, pr a, hrest, hsuf'', rfl, hhas, fun ks' hks' hclose =>
              ⟨trivial, hlast ks' hks' hclose⟩⟩
          | cons b bs =>
            have hhas'' : ∀ k ∈ pr a ++ .punct sep :: w', V.Has k := by
              rw [List.forall_mem_append, List.forall_mem_cons]
              exact ⟨hhas, V.punct sep, hhas'⟩
            refine ⟨ks₂, pr a ++ .punct sep :: w', hrest,
              hsuf'', by simp [joinWords, hw'], hhas'', ?_⟩
            intro ks' hks' hclose
            have htail : ∀ k ∈ .punct sep :: (w' ++ ks'), V.Has k := by
              rw [List.forall_mem_cons, List.forall_mem_append]
              exact ⟨V.punct sep, hhas', hks'⟩
            rw [List.append_assoc, List.cons_append]
            refine ⟨trivial,
              (quiet_itemsFrom_more (hstart _ htail hAsep) (by simp)
                (hagain _ htail hAsep).2).mpr ?_⟩
            exact ⟨by simp; omega, b :: bs, rfl, (hagain' ks' hks' hclose).2⟩
      · rw [quiet_itemsFrom_last hclosing hnil ha hsep] at hc
        cases hc
        exact ⟨ks₁, pr a, rfl, hsuf, rfl, hhas, fun ks' hks' hclose =>
          ⟨trivial, hlast ks' hks' hclose⟩⟩

section

variable {pr : α → List TokenKind} (h : Replays V A B p r fun a w => w = pr a)
  (hAclose : ∀ k, A k (.punct close)) (hAsep : A (.punct sep) (.punct sep)) (hne : close ≠ sep)
  (hB : ∀ k k', B k k' → k' = .punct close → k = .punct close)
include h hAclose hAsep hne hB

theorem closed :
    Replays V C (fun _ _ => True) (Parser.closed sep close context p)
      (Parser.closed sep close context r)
      fun as w => w = joinWords (.punct sep) (as.map pr) ++ [.punct close] := by
  refine .bind (items h hAclose hAsep hne hB) fun as w hw =>
    .bind (mark rfl) fun _ w' hw' => .pure ?_
  rw [hw, hw', List.append_nil]

theorem delimited {B' : Follow} (hB' : B' (.punct opening) (.punct opening)) :
    Replays V C B' (Parser.delimited opening sep close context p)
      (Parser.delimited opening sep close context r)
      fun as w => w = .punct opening :: (joinWords (.punct sep) (as.map pr) ++ [.punct close]) := by
  refine .bind (mark hB') fun _ w hw =>
    (closed h hAclose hAsep hne hB).mono (fun _ _ h => h) (fun _ _ h => h) ?_
  intro as w' hw'
  rw [hw, hw']
  rfl

end

end Replays

end TreeWalk.Parser
