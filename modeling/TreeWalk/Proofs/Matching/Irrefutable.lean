import TreeWalk.Proofs.Equality
import TreeWalk.Proofs.Matching

/-!
# Patterns that match everything

A name and `_` match every value, and so does each of them behind any number of names for the whole.
No other pattern does: a NaN is refused by all of them. What the program calls irrefutable is a bare
name or `_`, and that is exact but for the names (`Pattern.matchesAll_iff`).

A `case` tries its arms from the first on and raises an error behind the last
(`Eval.firstArm_eq_foldr`). With an arm that has no guard and a pattern that matches everything it
never gets there.
-/

namespace TreeWalk

namespace Pattern

/-- Every value is matched, whatever the table of names and whatever was bound before. -/
def MatchesAll (p : Pattern) : Prop :=
  ∀ names v bound, (p.tryMatch names v bound).1 = true

/-- The pattern without its names for the whole. -/
def unnamed : Pattern → Pattern
  | named _ p => p.unnamed
  | p => p

variable {names : Interner} {v : Value} {p : Pattern} {x : Number}

theorem tryMatch_fst_iff (p : Pattern) (bound : List Binding) :
    (p.tryMatch names v bound).1 = true ↔ p.Fits names v := by
  obtain ⟨matched, added, h⟩ := p.answers names v
  rw [h.eq, h.matched_iff]

theorem fits_unnamed : p.unnamed.Fits names v ↔ p.Fits names v := by
  fun_induction unnamed p with
  | case1 _ p ih => exact ih.trans fits_named.symm
  | case2 => exact Iff.rfl

theorem fits_of_isIrrefutable (h : p.isIrrefutable = true) : p.Fits names v := by
  cases p with
  | var => exact .var
  | wild => exact .wild
  | unit | literal | named | tuple | vector => cases h

/-- A NaN equals no constant, and it is neither `nil` nor a tuple nor a vector. -/
theorem isIrrefutable_of_fits_nan (hx : x.isNaN = true) (h : p.Fits names (.number x)) :
    p.unnamed.isIrrefutable = true := by
  fun_induction unnamed p with
  | case1 _ p ih => exact ih (fits_named.mp h)
  | case2 p hp =>
    cases h with
    | wild | var => rfl
    | named => exact absurd rfl (hp _ _)
    | literal hequal =>
      -- Only a number equals a number, and none equals a NaN.
      have hsame := Value.same_of_equal hequal
      generalize Value.ofLiteral names _ = w at hsame
      cases hsame with
      | number hequal => rw [(Number.equal_iff.mp hequal).2.1] at hx; cases hx

theorem matchesAll_iff : p.MatchesAll ↔ p.unnamed.isIrrefutable = true := by
  constructor
  · intro h
    have hnan : Number.isNaN ⟨0x7ff8000000000000⟩ = true := by decide
    exact isIrrefutable_of_fits_nan hnan ((p.tryMatch_fst_iff []).mp (h .empty _ []))
  · intro h names v bound
    exact (p.tryMatch_fst_iff bound).mpr (fits_unnamed.mp (fits_of_isIrrefutable h))

theorem not_fits_nan (hp : ¬ p.MatchesAll) (hx : x.isNaN = true) : ¬ p.Fits names (.number x) :=
  fun h => hp (matchesAll_iff.mpr (isIrrefutable_of_fits_nan hx h))

theorem isIrrefutable_iff : p.isIrrefutable = true ↔ p.MatchesAll ∧ ∀ x q, p ≠ named x q := by
  constructor
  · intro h
    refine ⟨fun names v bound => (p.tryMatch_fst_iff bound).mpr (fits_of_isIrrefutable h), ?_⟩
    rintro x q rfl
    cases h
  · rintro ⟨h, hp⟩
    have hsame : p.unnamed = p := by
      rw [unnamed]
      exact hp
    rw [← hsame]
    exact matchesAll_iff.mp h

end Pattern

/-! ## In a case -/

namespace Eval

variable {eval : Expr → Eval Value} {v : Value} {arm : CaseArm} {arms : List CaseArm}

/-- Tries an arm, and does something else where the arm does not take the value. -/
def armOr (eval : Expr → Eval Value) (v : Value) (arm : CaseArm) (otherwise : Eval Value) :
    Eval Value := fun names m =>
  if (arm.pattern.tryMatch names v []).1 then
    (armIn eval arm (arm.pattern.tryMatch names v []).2 >>= fun r => r.elim otherwise pure) names m
  else
    otherwise names m

/-- The error stands behind the last arm. -/
theorem firstArm_eq_foldr (eval : Expr → Eval Value) (v : Value) (span : Span)
    (arms : List CaseArm) :
    firstArm eval v span arms = arms.foldr (armOr eval v) (firstArm eval v span []) := by
  induction arms with
  | nil => rfl
  | cons arm arms ih =>
    funext names m
    rw [List.foldr_cons, ← ih, armOr]
    cases hmatch : (arm.pattern.tryMatch names v []).1 with
    | false => rw [firstArm_of_fails hmatch, if_neg Bool.false_ne_true]
    | true => rw [if_pos rfl, firstArm_of_matches (Prod.ext hmatch rfl)]

theorem armOr_of_not_fits (h : ∀ names, ¬ arm.pattern.Fits names v) (otherwise : Eval Value) :
    armOr eval v arm otherwise = otherwise := by
  funext names m
  have hfails : ¬ (arm.pattern.tryMatch names v []).1 = true :=
    fun hmatch => h names ((arm.pattern.tryMatch_fst_iff []).mp hmatch)
  rw [armOr, if_neg hfails]

/-- Without a guard, an arm that is entered gives its value. -/
theorem armIn_bind_elim (h : arm.guard = none) (bound : List Binding)
    (otherwise otherwise' : Eval Value) :
    (armIn eval arm bound >>= fun r => r.elim otherwise pure) =
      armIn eval arm bound >>= fun r => r.elim otherwise' pure := by
  funext names m
  simp only [armIn, armValue, h, Bind.bind]
  cases eval arm.body names (m.nest m.current bound) <;> rfl

theorem armOr_of_matchesAll (hguard : arm.guard = none) (hp : arm.pattern.MatchesAll)
    (otherwise otherwise' : Eval Value) :
    armOr eval v arm otherwise = armOr eval v arm otherwise' := by
  funext names m
  rw [armOr, armOr, if_pos (hp names v []), if_pos (hp names v []),
    armIn_bind_elim hguard _ otherwise otherwise']

/-- What stands behind an arm that takes every value is never done. -/
theorem foldr_armOr_of_matchesAll (h : ∃ arm ∈ arms, arm.guard = none ∧ arm.pattern.MatchesAll)
    (otherwise otherwise' : Eval Value) :
    arms.foldr (armOr eval v) otherwise = arms.foldr (armOr eval v) otherwise' := by
  obtain ⟨arm, harm, hguard, hp⟩ := h
  obtain ⟨front, back, rfl⟩ := List.append_of_mem harm
  rw [List.foldr_append, List.foldr_append, List.foldr_cons, List.foldr_cons]
  exact congrArg (front.foldr (armOr eval v)) (armOr_of_matchesAll hguard hp _ _)

theorem foldr_armOr_of_not_fits (h : ∀ arm ∈ arms, ∀ names, ¬ arm.pattern.Fits names v)
    (otherwise : Eval Value) :
    arms.foldr (armOr eval v) otherwise = otherwise := by
  induction arms with
  | nil => rfl
  | cons arm arms ih =>
    obtain ⟨harm, harms⟩ := List.forall_mem_cons.mp h
    rw [List.foldr_cons, ih harms, armOr_of_not_fits harm]

theorem evaluate_case (fuel : Nat) (scrutinee : Expr) (arms : List CaseArm) (span : Span) :
    evaluate (fuel + 1) (.case scrutinee arms span) =
      evaluate fuel scrutinee >>= fun v =>
        arms.foldr (armOr (evaluate fuel) v) (firstArm (evaluate fuel) v span []) := by
  simp only [← firstArm_eq_foldr]
  rfl

end Eval

/-- **Irrefutability is exact but for names.** A pattern is called irrefutable just if it matches
every value and is not a name for the whole before another pattern; it matches every value just if
what is left without such names is called irrefutable. A `case` with an arm without a guard whose
pattern matches every value never raises the error that no arm takes the value: it is the same
computation whatever is put in the place of that error. Where no pattern matches every value the
error is raised, for a NaN at the latest. -/
theorem irrefutability_is_exact_but_for_names (p : Pattern) (arms : List CaseArm) (scrutinee : Expr)
    (span : Span) (fuel : Nat) :
    (p.isIrrefutable = true ↔ p.MatchesAll ∧ ∀ x q, p ≠ .named x q) ∧
    (p.MatchesAll ↔ p.unnamed.isIrrefutable = true) ∧
    ((∃ arm ∈ arms, arm.guard = none ∧ arm.pattern.MatchesAll) → ∀ otherwise : Value → Eval Value,
      Eval.evaluate (fuel + 1) (.case scrutinee arms span) =
        Eval.evaluate fuel scrutinee >>= fun v =>
          arms.foldr (Eval.armOr (Eval.evaluate fuel) v) (otherwise v)) ∧
    ((∀ arm ∈ arms, ¬ arm.pattern.MatchesAll) → ∀ names m x m', x.isNaN = true →
      Eval.evaluate fuel scrutinee names m = .ok (.number x) m' →
      Eval.evaluate (fuel + 1) (.case scrutinee arms span) names m =
        .fault (.nonExhaustiveMatch (m'.store.printed (.number x)) span) m') := by
  refine ⟨p.isIrrefutable_iff, p.matchesAll_iff, ?_, ?_⟩
  · intro hall otherwise
    rw [Eval.evaluate_case]
    exact congrArg _ (funext fun v => Eval.foldr_armOr_of_matchesAll hall _ _)
  · intro hnone names m x m' hx hvalue
    have hfits : ∀ arm ∈ arms, ∀ names, ¬ arm.pattern.Fits names (.number x) :=
      fun arm harm _ => Pattern.not_fits_nan (hnone arm harm) hx
    rw [Eval.evaluate_case]
    simp only [Bind.bind, hvalue, Eval.foldr_armOr_of_not_fits hfits]
    rfl

/-- The pattern `x @ _` matches everything, but is not called irrefutable. -/
theorem named_wildcard_is_not_called_irrefutable :
    (Pattern.named ⟨⟨24⟩, default⟩ (.wild default)).MatchesAll ∧
      (Pattern.named ⟨⟨24⟩, default⟩ (.wild default)).isIrrefutable = false :=
  ⟨Pattern.matchesAll_iff.mpr rfl, rfl⟩

/-- The arms `true then nil, x @ y @ _ then x` take a NaN, so that their error is never raised,
although no pattern of theirs is called irrefutable. The arms `x @ () then x, [] if false then x` do
not take it. -/
theorem doubly_named_wildcard_takes_nan :
    let x : Ident := ⟨⟨24⟩, default⟩
    let y : Ident := ⟨⟨25⟩, default⟩
    let nan : Expr := .literal (.number ⟨0x7ff8000000000000⟩) default
    let wide : List CaseArm := [⟨.literal (.bool true) default, none, .literal .nil default⟩,
      ⟨.named x (.named y (.wild default)), none, .var x⟩]
    let narrow : List CaseArm := [⟨.named x (.unit default), none, .var x⟩,
      ⟨.vector [] default, some (.literal (.bool false) default), .var x⟩]
    wide.any (·.pattern.isIrrefutable) = false ∧
      (Eval.evaluate 2 (.case nan wide default) =
        Eval.evaluate 1 nan >>= fun v =>
          wide.foldr (Eval.armOr (Eval.evaluate 1) v) Eval.exhausted) ∧
      (Eval.evaluate 2 (.case nan wide default) .empty default).value? =
        some (.number ⟨0x7ff8000000000000⟩) ∧
      Eval.evaluate 2 (.case nan narrow default) .empty default =
        .fault (.nonExhaustiveMatch "NaN" default) default := by
  intro x y nan wide narrow
  have hbare (p : Pattern) : p.MatchesAll ↔ p.unnamed.isIrrefutable = true :=
    (irrefutability_is_exact_but_for_names p [] nan default 0).2.1
  have hwide : ∃ arm ∈ wide, arm.guard = none ∧ arm.pattern.MatchesAll :=
    ⟨_, List.mem_cons_of_mem _ (List.mem_singleton_self _), rfl, (hbare _).mpr rfl⟩
  have hnarrow : ∀ arm ∈ narrow, ¬ arm.pattern.MatchesAll := by
    intro arm harm hall
    have hirrefutable := (hbare _).mp hall
    rcases List.mem_pair.mp harm with rfl | rfl <;> cases hirrefutable
  have hnan : Number.isNaN ⟨0x7ff8000000000000⟩ = true := by decide
  obtain ⟨-, -, htaken, -⟩ := irrefutability_is_exact_but_for_names default wide nan default 1
  obtain ⟨-, -, -, hrefused⟩ := irrefutability_is_exact_but_for_names default narrow nan default 1
  refine ⟨rfl, htaken hwide _, ?_, (hrefused hnarrow .empty default _ default hnan rfl).trans ?_⟩
  · with_unfolding_all rfl
  · with_unfolding_all rfl

end TreeWalk
