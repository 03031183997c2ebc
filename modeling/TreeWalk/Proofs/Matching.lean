import Mathlib.Data.List.Forall2
import TreeWalk.Proofs.Eval.Chains
import TreeWalk.Proofs.Eval.Regime

/-!
# What a pattern matches

`Pattern.Fits` says which values a pattern matches, and `Pattern.binders` which names it binds, in
order and each with its position in the value. Trying a pattern decides the first and gives the
second. It only adds to the bindings that it finds, and where it fails it has added the first few of
its names. A name may stand in a pattern twice; in the frame of an arm it has the value that was
added last.
-/

namespace TreeWalk

namespace Value

/-- The part of a value at a position: the places of elements, from the outside in. -/
def at? : Value → List Nat → Option Value
  | v, [] => some v
  | v, i :: position => v.items[i]?.bind fun w => w.at? position

end Value

namespace Pattern

/-- The pattern has the shape of the value. -/
inductive Fits (names : Interner) : Pattern → Value → Prop
  | wild : Fits names (.wild s) v
  | var : Fits names (.var x) v
  | unit : Fits names (.unit s) .nil
  | literal : (Value.ofLiteral names c).equal v = true → Fits names (.literal c s) v
  | named : Fits names p v → Fits names (.named x p) v
  | tuple : List.Forall₂ (Fits names) ps vs → Fits names (.tuple ps s) (.tuple vs)
  | vector : List.Forall₂ (Fits names) ps vs → Fits names (.vector ps s) (.vector vs)

mutual

/-- The names that a pattern binds, from left to right and that of a whole after those inside it,
with their positions. -/
def binders : Pattern → List (Symbol × List Nat)
  | .var x => [(x.name, [])]
  | .named x p => p.binders ++ [(x.name, [])]
  | .tuple ps _ | .vector ps _ => bindersFrom 0 ps
  | .unit _ | .literal _ _ | .wild _ => []

/-- The names that the elements of a pattern bind, where the first has place `i`. -/
def bindersFrom (i : Nat) : List Pattern → List (Symbol × List Nat)
  | [] => []
  | p :: ps => p.binders.map (fun x => (x.1, i :: x.2)) ++ bindersFrom (i + 1) ps

end

/-- Names at positions, with what is there in a value. -/
def targets (v : Value) (xs : List (Symbol × List Nat)) : List (Symbol × Option Value) :=
  xs.map fun x => (x.1, v.at? x.2)

/-- Whatever bindings there are before, the answer is `matched` and `added` comes behind them. It
tells whether `fits` holds; then `added` is all that should be bound, and otherwise a first part of
it. -/
structure Answers (fits : Prop) (all : List (Symbol × Option Value))
    (answer : List Binding → Bool × List Binding) (matched : Bool)
    (added : List Binding) : Prop where
  eq : ∀ bound, answer bound = (matched, bound ++ added)
  matched_iff : matched = true ↔ fits
  begins : added.map (fun b => (b.1, some b.2)) <+: all
  complete : matched = true → added.map (fun b => (b.1, some b.2)) = all

variable {names : Interner} {v w : Value} {answer : List Binding → Bool × List Binding}

/-! ## One pattern, and all elements of one -/

/-- The names of an element, seen from the whole. -/
theorem targets_element (h : v.items[i]? = some w) (xs : List (Symbol × List Nat)) :
    targets v (xs.map fun x => (x.1, i :: x.2)) = targets w xs := by
  simp [targets, Value.at?, h]

theorem fits_named {x : Ident} {p : Pattern} : (named x p).Fits names v ↔ p.Fits names v := by
  constructor
  · intro h
    cases h with
    | named h => exact h
  · exact .named

theorem Answers.of_true (h : fits) (heq : ∀ bound, answer bound = (true, bound ++ added))
    (hadded : added.map (fun b => (b.1, some b.2)) = all) : Answers fits all answer true added :=
  ⟨heq, iff_of_true rfl h, hadded ▸ List.prefix_rfl, fun _ => hadded⟩

theorem Answers.of_false (h : ¬ fits) (heq : ∀ bound, answer bound = (false, bound)) :
    Answers fits all answer false [] where
  eq bound := by rw [heq, List.append_nil]
  matched_iff := iff_of_false Bool.false_ne_true h
  begins := List.nil_prefix
  complete h := absurd h Bool.false_ne_true

/-- The first element fails, and with it the whole. -/
theorem Answers.cons_of_false {p : Pattern} {ps : List Pattern} {v w : Value}
    {ws : List Value} {i : Nat} (hw : v.items[i]? = some w)
    (h : Answers (p.Fits names w) (targets w p.binders) (p.tryMatch names w) false added) :
    Answers (List.Forall₂ (Fits names) (p :: ps) (w :: ws)) (targets v (bindersFrom i (p :: ps)))
      (tryMatchAll names (p :: ps) (w :: ws)) false added where
  eq bound := by simp [tryMatchAll, h.eq]
  matched_iff := by
    refine iff_of_false Bool.false_ne_true fun hfits => ?_
    exact Bool.false_ne_true (h.matched_iff.mpr (List.forall₂_cons.mp hfits).1)
  begins := by
    rw [bindersFrom, targets, List.map_append, ← targets, targets_element hw]
    exact h.begins.trans (List.prefix_append _ _)
  complete h := absurd h Bool.false_ne_true

/-- The first element matches, and the others decide. -/
theorem Answers.cons_of_true {p : Pattern} {ps : List Pattern} {v w : Value}
    {ws : List Value} {i : Nat} (hw : v.items[i]? = some w)
    (h : Answers (p.Fits names w) (targets w p.binders) (p.tryMatch names w) true added)
    (hs : Answers (List.Forall₂ (Fits names) ps ws) (targets v (bindersFrom (i + 1) ps))
      (tryMatchAll names ps ws)
      matched rest) :
    Answers (List.Forall₂ (Fits names) (p :: ps) (w :: ws)) (targets v (bindersFrom i (p :: ps)))
      (tryMatchAll names (p :: ps) (w :: ws)) matched (added ++ rest) := by
  have hall : targets v (bindersFrom i (p :: ps)) =
      added.map (fun b => (b.1, some b.2)) ++ targets v (bindersFrom (i + 1) ps) := by
    rw [bindersFrom, targets, List.map_append, ← targets, targets_element hw,
      h.complete rfl, ← targets]
  refine ⟨fun bound => ?_, ?_, ?_, fun hmatched => ?_⟩
  · simp [tryMatchAll, h.eq, hs.eq]
  · rw [hs.matched_iff, List.forall₂_cons, and_iff_right (h.matched_iff.mp rfl)]
  · rw [hall, List.map_append]
    exact (List.prefix_append_right_inj _).mpr hs.begins
  · rw [hall, List.map_append, hs.complete hmatched]

/-- A pattern with elements, tried against a value with elements. -/
theorem answers_elements {fits : Prop} {ps : List Pattern} {vs : List Value}
    (hanswer : ∀ bound, answer bound = if ps.length = vs.length then tryMatchAll names ps vs bound
      else (false, bound))
    (hfits : fits ↔ List.Forall₂ (Fits names) ps vs)
    (hall : ps.length = vs.length → ∃ matched added,
      Answers (List.Forall₂ (Fits names) ps vs) all (tryMatchAll names ps vs) matched added) :
    ∃ matched added, Answers fits all answer matched added := by
  by_cases hlength : ps.length = vs.length
  · obtain ⟨matched, added, h⟩ := hall hlength
    refine ⟨matched, added, fun bound => ?_, h.matched_iff.trans hfits.symm, h.begins, h.complete⟩
    rw [hanswer, if_pos hlength, h.eq]
  · refine ⟨false, [], .of_false (fun h => hlength (hfits.mp h).length_eq) fun bound => ?_⟩
    rw [hanswer, if_neg hlength]

mutual

theorem answers (names : Interner) : ∀ (p : Pattern) (v : Value), ∃ matched added,
    Answers (p.Fits names v) (targets v p.binders) (p.tryMatch names v) matched added
  | .wild _, v => ⟨true, [], .of_true .wild (fun bound => by simp [tryMatch]) rfl⟩
  | .var x, v => ⟨true, [(x.name, v)], .of_true .var (fun bound => by simp [tryMatch]) rfl⟩
  | .unit _, v => by
    cases v with
    | nil => exact ⟨true, [], .of_true .unit (fun bound => by simp [tryMatch]) rfl⟩
    | _ => exact ⟨false, [], .of_false (by rintro ⟨⟩) fun bound => by simp [tryMatch]⟩
  | .literal c span, v => by
    refine ⟨(Value.ofLiteral names c).equal v, [], fun bound => by simp [tryMatch], ?_,
      List.nil_prefix, fun _ => rfl⟩
    constructor
    · exact .literal
    · intro h
      cases h with
      | literal h => exact h
  | .named x p, v => by
    obtain ⟨matched, added, h⟩ := answers names p v
    cases matched with
    | true =>
      refine ⟨true, added ++ [(x.name, v)],
        .of_true (.named (h.matched_iff.mp rfl)) (fun bound => ?_) ?_⟩
      · simp [tryMatch, h.eq]
      · rw [List.map_append, h.complete rfl, binders, targets, targets, List.map_append]
        rfl
    | false =>
      refine ⟨false, added, fun bound => by simp [tryMatch, h.eq],
        h.matched_iff.trans fits_named.symm, ?_, fun h => ?_⟩
      · rw [binders, targets, List.map_append]
        exact h.begins.trans (List.prefix_append _ _)
      · exact absurd h Bool.false_ne_true
  | .tuple ps span, v => by
    cases v with
    | tuple vs =>
      refine answers_elements (fun bound => by simp [tryMatch]) ?_ fun hlength =>
        answersAll names ps vs (.tuple vs) 0 hlength rfl
      exact ⟨fun h => by cases h; assumption, .tuple⟩
    | _ => exact ⟨false, [], .of_false (by rintro ⟨⟩) fun bound => by simp [tryMatch]⟩
  | .vector ps span, v => by
    cases v with
    | vector vs =>
      refine answers_elements (fun bound => by simp [tryMatch]) ?_ fun hlength =>
        answersAll names ps vs (.vector vs) 0 hlength rfl
      exact ⟨fun h => by cases h; assumption, .vector⟩
    | _ => exact ⟨false, [], .of_false (by rintro ⟨⟩) fun bound => by simp [tryMatch]⟩

/-- The elements from place `i` on. -/
theorem answersAll (names : Interner) :
    ∀ (ps : List Pattern) (vs : List Value) (v : Value) (i : Nat), ps.length = vs.length →
    v.items.drop i = vs → ∃ matched added,
      Answers (List.Forall₂ (Fits names) ps vs) (targets v (bindersFrom i ps))
        (tryMatchAll names ps vs) matched added
  | [], vs, v, i, hlength, _ => by
    obtain rfl : vs = [] := List.length_eq_zero_iff.mp hlength.symm
    exact ⟨true, [], .of_true .nil (fun bound => by simp [tryMatchAll]) rfl⟩
  | p :: ps, vs, v, i, hlength, hdrop => by
    cases vs with
    | nil => cases hlength
    | cons w ws =>
      have hw : v.items[i]? = some w := by
        rw [← List.head?_drop, hdrop]
        rfl
      obtain ⟨matched, added, h⟩ := answers names p w
      cases matched with
      | false => exact ⟨false, added, h.cons_of_false hw⟩
      | true =>
        have hrest : v.items.drop (i + 1) = ws := by rw [← List.tail_drop, hdrop, List.tail_cons]
        obtain ⟨matched, rest, hs⟩ := answersAll names ps ws v (i + 1) (Nat.succ.inj hlength) hrest
        exact ⟨matched, added ++ rest, h.cons_of_true hw hs⟩

end

end Pattern

/-! ## In an arm -/

theorem Bindings.get?_foldl_of_notMem {pairs : List (Symbol × α)} (h : ∀ p ∈ pairs, p.1 ≠ x)
    (b : Bindings α) :
    (pairs.foldl (fun b (name, value) => b.insert name value) b).get? x = b.get? x := by
  induction pairs generalizing b with
  | nil => rfl
  | cons p pairs ih =>
    obtain ⟨hp, hpairs⟩ := List.forall_mem_cons.mp h
    rw [List.foldl_cons, ih hpairs, get?_insert, if_neg hp.symm]

/-- A name has the last value that it was bound to. -/
theorem Bindings.get?_ofList_last {back : List (Symbol × α)} (h : ∀ p ∈ back, p.1 ≠ x)
    (front : List (Symbol × α)) :
    (Bindings.ofList (front ++ (x, a) :: back)).get? x = some a := by
  rw [ofList, List.foldl_append, List.foldl_cons, get?_foldl_of_notMem h, get?_insert, if_pos rfl]

/-- What a frame binds is what is seen from it. -/
theorem Store.lookup?_of_get? {S : Store} (h : (S.bindingsOf f).get? x = some v) :
    S.lookup? f x = some v := by
  have hchain : ∃ outer, S.chain f = f :: outer := by
    rw [chain]
    cases S.parentOf? f with
    | none => exact ⟨[], rfl⟩
    | some p =>
      by_cases hlt : p < f
      · exact ⟨S.chain p, if_pos hlt⟩
      · exact ⟨[], if_neg hlt⟩
  obtain ⟨outer, houter⟩ := hchain
  rw [lookup?_eq_findSome?, houter, List.findSome?_cons, h]

theorem Machine.bindingsOf_nest (m : Machine) (scope : FrameId) (pairs : List (Symbol × Value)) :
    (m.nest scope pairs).store.bindingsOf (m.nest scope pairs).current = .ofList pairs :=
  Store.bindingsOf_eq (m.store.frame_extend_new scope pairs)

/-- The value of an arm, in a new frame with some names bound in it. -/
def Eval.armIn (eval : Expr → Eval Value) (arm : CaseArm) (bound : List Binding) :
    Eval (Option Value) := fun names m =>
  backTo m.current (armValue eval arm names (m.nest m.current bound))

theorem Eval.firstArm_of_fails {arm : CaseArm} (h : (arm.pattern.tryMatch names v []).1 = false)
    (eval : Expr → Eval Value) (span : Span) (arms : List CaseArm) (m : Machine) :
    firstArm eval v span (arm :: arms) names m = firstArm eval v span arms names m := by
  simp only [firstArm, matching, Bind.bind]
  rw [← Prod.eta (arm.pattern.tryMatch names v []), h]

theorem Eval.firstArm_of_matches {arm : CaseArm}
    (h : arm.pattern.tryMatch names v [] = (true, bound)) (eval : Expr → Eval Value) (span : Span)
    (arms : List CaseArm) (m : Machine) :
    firstArm eval v span (arm :: arms) names m =
      (armIn eval arm bound >>= fun r => r.elim (firstArm eval v span arms) pure) names m := by
  have hnested : nested bound (armValue eval arm) = armIn eval arm bound := rfl
  simp only [firstArm, matching, Bind.bind, h, hnested]
  cases armIn eval arm bound names m with
  | ok r m' => cases r <;> rfl
  | fault e m' => rfl
  | exhausted => rfl

/-- **Matching meets its meaning.** Trying a pattern against a value tells whether the value has its
shape, and adds the pattern's names in order, each with the part of the value at its position, to
whatever was bound before. In an arm whose pattern does not match nothing happens; guard and body of
one that does run in a frame where each name has the value that was added last. -/
theorem matching_meets_meaning (names : Interner) (p : Pattern) (v : Value) : ∃ matched added,
    (∀ bound, p.tryMatch names v bound = (matched, bound ++ added)) ∧
    (matched = true ↔ p.Fits names v) ∧
    (matched = true → added.map (fun b => (b.1, some b.2)) = p.binders.map fun x =>
        (x.1, v.at? x.2)) ∧
    added.map (fun b => (b.1, some b.2)) <+: p.binders.map (fun x => (x.1, v.at? x.2)) ∧
    ∀ eval span arm arms m, arm.pattern = p →
      (matched = false → Eval.firstArm eval v span (arm :: arms) names m =
          Eval.firstArm eval v span arms names m) ∧
      (matched = true →
        (Eval.firstArm eval v span (arm :: arms) names m =
          (Eval.armIn eval arm added >>= fun r => r.elim (Eval.firstArm eval v span arms) pure)
            names m) ∧
        ∀ front x w back, added = front ++ (x, w) :: back → (∀ b ∈ back, b.1 ≠ x) →
          (m.nest m.current added).store.lookup? (m.nest m.current added).current x = some w) := by
  obtain ⟨matched, added, h⟩ := p.answers names v
  refine ⟨matched, added, h.eq, h.matched_iff, h.complete, h.begins, ?_⟩
  rintro eval span arm arms m rfl
  have heq : arm.pattern.tryMatch names v [] = (matched, added) := h.eq []
  refine ⟨fun hfails => Eval.firstArm_of_fails (heq ▸ hfails) eval span arms m, fun hmatches => ?_⟩
  refine ⟨Eval.firstArm_of_matches (hmatches ▸ heq) eval span arms m, ?_⟩
  rintro front x w back rfl hback
  apply Store.lookup?_of_get?
  rw [Machine.bindingsOf_nest]
  exact Bindings.get?_ofList_last hback front

/-- The pattern `(x, y @ [x])` takes the value `(true, ["b"])`: it binds `x` twice, and in the arm
`x` is `"b"`. It does not take `(true, [])`, and has then bound the first `x`. -/
theorem repeated_name_has_its_last_value :
    let x : Symbol := ⟨24⟩
    let y : Symbol := ⟨25⟩
    let p : Pattern :=
      .tuple [.var ⟨x, default⟩, .named ⟨y, default⟩ (.vector [.var ⟨x, default⟩] default)] default
    let v : Value := .tuple [.bool true, .vector [.str "b"]]
    let added : List Binding := [(x, .bool true), (x, .str "b"), (y, .vector [.str "b"])]
    let m : Machine := (default : Machine).nest 0 added
    p.Fits .empty v ∧ (∀ bound, p.tryMatch .empty v bound = (true, bound ++ added)) ∧
      m.store.lookup? m.current x = some (.str "b") ∧
      ¬ p.Fits .empty (.tuple [.bool true, .vector []]) ∧
      p.tryMatch .empty (.tuple [.bool true, .vector []]) [] = (false, [(x, .bool true)]) := by
  intro x y p v added m
  have htried : p.tryMatch .empty v [] = (true, added) := by with_unfolding_all rfl
  have hfailed : p.tryMatch .empty (.tuple [.bool true, .vector []]) [] =
      (false, [(x, .bool true)]) := by
    with_unfolding_all rfl
  obtain ⟨matched, found, heq, hiff, -, -, harm⟩ := matching_meets_meaning .empty p v
  obtain ⟨matched', found', heq', hiff', -⟩ :=
    matching_meets_meaning .empty p (.tuple [.bool true, .vector []])
  obtain ⟨rfl, rfl⟩ : true = matched ∧ added = found := Prod.mk.inj (htried.symm.trans (heq []))
  obtain ⟨rfl, -⟩ : false = matched' ∧ _ = found' := Prod.mk.inj (hfailed.symm.trans (heq' []))
  have hlast : ∀ b ∈ [(y, Value.vector [.str "b"])], b.1 ≠ x := by
    intro b hb
    cases List.mem_singleton.mp hb
    decide
  obtain ⟨-, hnames⟩ :=
    (harm (fun _ => pure .nil) default ⟨p, none, .literal .nil default⟩ [] default rfl).2 rfl
  refine ⟨hiff.mp rfl, heq,
    hnames [(x, .bool true)] x (.str "b") [(y, .vector [.str "b"])] rfl hlast, ?_, hfailed⟩
  exact fun hfits => Bool.false_ne_true (hiff'.mpr hfits)

end TreeWalk
