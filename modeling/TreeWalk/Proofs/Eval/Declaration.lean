import TreeWalk.Proofs.Eval.Scope
import TreeWalk.Proofs.Parser.Shape

/-!
# Declarations stay where they are made

Evaluating an expression and calling a function declare names only in frames made on the way. A
statement adds at most the one name it declares, to the frame that was current. Names never go away,
and the frames around a frame stay the same.
-/

namespace TreeWalk

namespace Store

/-- Whether a frame itself binds a name. -/
def binds (S : Store) (f : FrameId) (x : Symbol) : Bool :=
  (S.bindingsOf f).contains x

theorem binds_owner {S : Store} (h : S.owner? f x = some g) : S.binds g x := by
  unfold owner? at h
  exact (List.find?_eq_some_iff_append.mp h).1

theorem binds_define (S : Store) (h : g < S.frames.size) :
    (S.define f x v).binds g y = (S.binds g y || (decide (f = g) && decide (y = x))) := by
  by_cases hfg : f = g
  · subst hfg
    by_cases hxy : y = x <;> simp [binds, Bindings.contains, bindingsOf_define_self S h, hxy]
  · simp [binds, bindingsOf_define_of_ne S hfg, hfg]

/-- The frames of `S` are in `T` what they were, except that `new` tells which names were added to
them. -/
structure Redeclared (S T : Store) (new : FrameId → Symbol → Prop) : Prop where
  size_le : S.frames.size ≤ T.frames.size
  parent : ∀ f < S.frames.size, T.parentOf? f = S.parentOf? f
  binds : ∀ f < S.frames.size, ∀ x, T.binds f x ↔ S.binds f x ∨ new f x

end Store

/-- The discipline of a program that declares nothing in the first `n` frames. -/
def Discipline.sparing (n : Nat) : Discipline where
  Good S := n ≤ S.frames.size
  Grows S T := ∀ f < n, T.parentOf? f = S.parentOf? f ∧ ∀ x, T.binds f x = S.binds f x
  Holds _ _ := True
  Scope _ _ := True
  Own _ f := n ≤ f
  grows_refl _ _ := ⟨rfl, fun _ => rfl⟩
  grows_trans h h' f hf :=
    ⟨(h' f hf).1.trans (h f hf).1, fun x => ((h' f hf).2 x).trans ((h f hf).2 x)⟩
  holds_mono _ _ := trivial
  scope_mono _ _ := trivial
  own_mono _ h := h
  scope_of_own _ := trivial
  holds_plain _ := trivial
  holds_tuple := true_iff_all _
  holds_vector := true_iff_all _
  lookup _ _ _ := trivial
  assign {S f g x v} hS _ ho _ := by
    refine ⟨by simpa using hS, fun f hf => ⟨by simp, fun y => ?_⟩⟩
    rw [Store.binds_define S (Nat.lt_of_lt_of_le hf hS)]
    by_cases h : g = f ∧ y = x
    · obtain ⟨rfl, rfl⟩ := h
      rw [Store.binds_owner ho, Bool.true_or]
    · rw [← Bool.decide_and, decide_eq_false h, Bool.or_false]
  define {S f x v} hS hf _ := by
    refine ⟨by simpa using hS, fun g hg => ⟨by simp, fun y => ?_⟩⟩
    have hne : f ≠ g := Nat.ne_of_gt (Nat.lt_of_lt_of_le hg hf)
    simp [Store.binds, Store.bindingsOf_define_of_ne S hne]
  extend {S f pairs} hS _ _ := by
    refine ⟨by simp; omega, fun g hg => ?_, hS⟩
    have hframe := S.frame_extend_of_lt (Nat.lt_of_lt_of_le hg hS) f pairs
    exact ⟨by simp [Store.parentOf?, hframe], fun x => by
      simp [Store.binds, Store.bindingsOf, hframe]⟩
  function _ _ _ := trivial
  method _ _ _ := trivial
  objectClass _ _ _ := trivial
  field _ _ _ := trivial
  setField hS _ _ := ⟨hS, fun _ _ => ⟨rfl, fun _ => rfl⟩⟩
  addFunction hS _ := ⟨hS, fun _ _ => ⟨rfl, fun _ => rfl⟩, trivial⟩
  addClass _ hS _ _ := ⟨hS, fun _ _ => ⟨rfl, fun _ => rfl⟩, trivial⟩
  addObject hS _ := ⟨hS, fun _ _ => ⟨rfl, fun _ => rfl⟩, trivial⟩

namespace Eval

open Discipline

/-- A computation that spares the frames there were leaves their names as they were. -/
theorem redeclared_of_sound {act : Eval α} {V : Store → α → Prop} (st : Stance)
    (h : (sparing m.store.frames.size).Sound st m.store act V)
    (hst : (sparing m.store.frames.size).Stands st m.store m.current)
    (hm : (act names m).machine? = some m') : m.store.Redeclared m'.store fun _ _ => False := by
  have hf := (h names m (sparing _).grows_refl (Nat.le_refl _) hst).follows hm
  exact ⟨hf.good, fun f hlt => (hf.grows f hlt).1, fun f hlt x => by simp [(hf.grows f hlt).2 x]⟩

/-- Declaring the value of a computation that spares the frames there were: the name is added to the
current frame, if there is a value. -/
theorem redeclared_define {act : Eval Value} {V : Store → Value → Prop} {m : Machine}
    (h : (sparing m.store.frames.size).Sound .reading m.store act V)
    (hm : ((do define x (← act); return Flow.normal) names m).machine? = some m') :
    m.store.Redeclared m'.store fun f y =>
      f = m.current ∧ ((do define x (← act); return Flow.normal) names m).value?.isSome ∧
        some x = some y := by
  have hact := h names m (sparing _).grows_refl (Nat.le_refl _) trivial
  simp only [bind, Eval.define, pure] at hm ⊢
  revert hm hact
  cases act names m with
  | ok v m₁ =>
    rintro hm ⟨hf, -⟩
    cases hm
    have hsize : m.store.frames.size ≤ m₁.store.frames.size := hf.good
    refine ⟨by simpa using hsize, fun f hlt => ?_, fun f hlt y => ?_⟩
    · rw [Store.parentOf?_define, (hf.grows f hlt).1]
    · rw [Store.binds_define m₁.store (Nat.lt_of_lt_of_le hlt hsize),
        (hf.grows f hlt).2 y, hf.current]
      simp [Outcome.value?, eq_comm (a := m.current), eq_comm (a := y)]
  | fault e m₁ =>
    intro hm hf
    cases hm
    exact ⟨hf.good, fun f hlt => (hf.grows f hlt).1, fun f hlt y => by
      simp [(hf.grows f hlt).2 y, Outcome.value?]⟩
  | exhausted => intro hm; cases hm

/-- A statement that is settled adds the name it declares to the current frame, if it succeeds, and
nothing else. -/
theorem execute_redeclared {s : Stmt} (hs : s.Settled)
    (hm : (execute fuel s names m).machine? = some m') :
    m.store.Redeclared m'.store fun f x =>
      f = m.current ∧ (execute fuel s names m).value?.isSome ∧ s.declared? = some x := by
  cases fuel with
  | zero => cases hm
  | succ n =>
    cases hd : s.declared? with
    | none =>
      have h := redeclared_of_sound .reading
        (execute_quiet (sparing m.store.frames.size) (n + 1) (hs hd) m.store) trivial hm
      exact ⟨h.size_le, h.parent, fun f hf x => by simp [h.binds f hf x]⟩
    | some x =>
      cases s with
      | varDecl y e =>
        cases hd
        exact redeclared_define ((sparing _).optional n e _) hm
      | fnDecl decl =>
        cases hd
        simp only [execute, declareFunction, bind_assoc] at hm ⊢
        exact redeclared_define ((sparing _).functionHere decl _) hm
      | classDecl y sup methods =>
        cases hd
        simp only [execute, declareClass, bind_assoc] at hm ⊢
        exact redeclared_define ((sparing _).newClass y sup methods _) hm
      | _ => cases hd

end Eval

/-- Expressions and calls add no name to a frame there was. A statement of a program that was read
from tokens adds the name it declares to the current frame if it succeeds, and nothing else. No
frame loses a name or gets another frame around it. This holds in every state, and however the
computation ends. -/
theorem declarations_stay_in_frame :
    (∀ fuel e names m m', (Eval.evaluate fuel e names m).machine? = some m' →
      m.store.Redeclared m'.store fun _ _ => False) ∧
    (∀ fuel callee args span names m m',
      (Eval.call fuel callee args span names m).machine? = some m' →
      m.store.Redeclared m'.store fun _ _ => False) ∧
    (∀ source tokens s, (parse source tokens).program.Contains s →
      ∀ fuel names m m', (Eval.execute fuel s names m).machine? = some m' →
        m.store.Redeclared m'.store fun f x =>
          f = m.current ∧ (Eval.execute fuel s names m).value?.isSome ∧ s.declared? = some x) := by
  refine ⟨fun fuel e names m m' hm => ?_, fun fuel callee args span names m m' hm => ?_,
    fun source tokens s hs fuel names m m' hm => Eval.execute_redeclared (.of_parse hs) hm⟩
  · exact Eval.redeclared_of_sound .reading (Discipline.evaluate _ fuel e m.store) trivial hm
  · exact Eval.redeclared_of_sound .anywhere
      (Discipline.call _ fuel trivial fun _ _ => trivial) trivial hm

/-- The statement `var x;`, read from its tokens, adds `x` to the outermost frame and nothing
else. -/
theorem var_statement_adds_its_name :
    (parse "var x;" [⟨.keyword .var, default⟩, ⟨.ident ⟨24⟩, default⟩,
      ⟨.punct .semicolon, default⟩]).program.Contains
        (.varDecl ⟨⟨24⟩, default⟩ none) ∧
      ∃ m', (Eval.execute 3 (.varDecl ⟨⟨24⟩, default⟩ none) .initial {}).machine? = some m' ∧
        ∀ x, m'.store.binds Machine.globals x ↔ x = ⟨24⟩ := by
  have hread : (parse "var x;" [⟨.keyword .var, default⟩, ⟨.ident ⟨24⟩, default⟩,
      ⟨.punct .semicolon, default⟩]).program.statements = [.varDecl ⟨⟨24⟩, default⟩ none] := by
    with_unfolding_all rfl
  have hmem : (parse "var x;" [⟨.keyword .var, default⟩, ⟨.ident ⟨24⟩, default⟩,
      ⟨.punct .semicolon, default⟩]).program.Contains (.varDecl ⟨⟨24⟩, default⟩ none) :=
    ⟨_, by rw [hread]; exact List.mem_singleton_self _, .refl⟩
  refine ⟨hmem, _, rfl, fun x => ?_⟩
  have h := (declarations_stay_in_frame.2.2 _ _ _ hmem 3 .initial {} _ rfl).binds Machine.globals
    Nat.one_pos x
  refine ⟨fun hx => ?_, fun hx => h.mpr (.inr ⟨rfl, rfl, by rw [hx]; rfl⟩)⟩
  rcases h.mp hx with hold | ⟨-, -, hnew⟩
  · exact absurd hold Bool.false_ne_true
  · exact (Option.some.inj hnew).symm

end TreeWalk
