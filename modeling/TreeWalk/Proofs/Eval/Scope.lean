import Mathlib.Logic.Relation
import TreeWalk.Proofs.Eval.Discipline
import TreeWalk.Session

/-!
# Scope discipline

Every construct that enters a frame leaves it again, whether it ends with a value, on the way out of
a function or with an error. So a computation ends in the frame in which it started
(`Eval.ComesBack`), and between the steps of a session the current frame is always the outermost
one.
-/

namespace TreeWalk

/-- However the computation ends, the current frame is then the one in which it started. -/
def Eval.ComesBack (act : Eval α) : Prop :=
  ∀ names m m', (act names m).machine? = some m' → m'.current = m.current

theorem Discipline.true_iff_all (vs : List Value) : True ↔ ∀ v ∈ vs, True :=
  ⟨fun _ _ _ => trivial, fun _ => trivial⟩

/-- The discipline that asks for nothing. -/
def Discipline.lax : Discipline where
  Good _ := True
  Grows _ _ := True
  Holds _ _ := True
  Scope _ _ := True
  Own _ _ := True
  grows_refl := trivial
  grows_trans _ _ := trivial
  holds_mono _ _ := trivial
  scope_mono _ _ := trivial
  own_mono _ _ := trivial
  scope_of_own _ := trivial
  holds_plain _ := trivial
  holds_tuple := true_iff_all _
  holds_vector := true_iff_all _
  lookup _ _ _ := trivial
  assign _ _ _ _ := ⟨trivial, trivial⟩
  define _ _ _ := ⟨trivial, trivial⟩
  extend _ _ _ := ⟨trivial, trivial, trivial⟩
  function _ _ _ := trivial
  method _ _ _ := trivial
  objectClass _ _ _ := trivial
  field _ _ _ := trivial
  setField _ _ _ := ⟨trivial, trivial⟩
  addFunction _ _ := ⟨trivial, trivial, trivial⟩
  addClass _ _ _ _ := ⟨trivial, trivial, trivial⟩
  addObject _ _ := ⟨trivial, trivial, trivial⟩

namespace Discipline

variable {D : Discipline} {α : Type} {V : Store → α → Prop}

theorem Ends.follows {o : Outcome α} (h : D.Ends m V o) (hm : o.machine? = some m') :
    D.Follows m m' := by
  cases o with
  | ok a m' => cases hm; exact h.1
  | fault e m' => cases hm; exact h
  | exhausted => cases hm

theorem Ends.value {o : Outcome α} (h : D.Ends m V o) (hm : o.machine? = some m')
    (ha : o.value? = some a) : V m'.store a := by
  cases o with
  | ok a m' => cases hm; cases ha; exact h.2
  | fault e m' => cases ha
  | exhausted => cases hm

end Discipline

namespace Eval

/-- Any discipline shows that a computation comes back; the one that asks for nothing shows it
everywhere. -/
theorem ComesBack.of_sound (st : Stance) {act : Eval α} {V : Store → α → Prop}
    (h : ∀ S, Discipline.lax.Sound st S act V) : act.ComesBack := by
  intro names m m' hm
  have hstands : Discipline.lax.Stands st m.store m.current := by cases st <;> trivial
  exact ((h m.store names m trivial trivial hstands).follows hm).current

theorem evaluate_comesBack (n : Nat) (e : Expr) : (evaluate n e).ComesBack :=
  .of_sound .reading (Discipline.lax.evaluate n e)

theorem execute_comesBack (n : Nat) (s : Stmt) : (execute n s).ComesBack :=
  .of_sound .declaring (Discipline.lax.execute n s)

theorem call_comesBack (n : Nat) (callee : Value) (args : List Value) (span : Span) :
    (call n callee args span).ComesBack :=
  .of_sound .anywhere fun _ => Discipline.lax.call n trivial fun _ _ => trivial

theorem executeBlock_comesBack (n : Nat) (ss : List Stmt) (f : FrameId) :
    (executeBlock n ss f).ComesBack := by
  intro names m m' hm
  unfold executeBlock inFrame at hm
  cases hrun : executeAll (execute n) ss names { m with current := f } with
  | ok flow m₁ => rw [hrun] at hm; cases hm; rfl
  | fault e m₁ => rw [hrun] at hm; cases hm; rfl
  | exhausted => rw [hrun] at hm; cases hm

theorem executeProgram_comesBack (n : Nat) (ss : List Stmt) : (executeProgram n ss).ComesBack :=
  .of_sound .declaring (Discipline.lax.executeProgram n ss)

end Eval

/-! ## Sessions -/

namespace Session

/-- One use of a session by its host, whatever comes of it: errors of every kind included. -/
inductive Step : Session → Session → Prop
  | read : Step s (s.read source).2
  | run : s.run fuel source = some s' → Step s s'
  | evaluate : s.evaluate fuel source = some (v, s') → Step s s'
  | interpret : s.interpret fuel p = some s' → Step s s'
  | call : s.call fuel callee args span = some (v, s') → Step s s'

/-- A session that has just been opened, with some output. -/
def opened (output : Output) : Session :=
  { machine := { output } }

/-- A session after any number of steps. -/
def Reachable (s : Session) : Prop :=
  ∃ output, Relation.ReflTransGen Step (opened output) s

theorem perform_current {s : Session} {act : Eval α} (hact : act.ComesBack)
    (h : s.perform act = some (r, s')) : s'.machine.current = s.machine.current := by
  have hact := hact s.names s.machine
  unfold perform at h
  split at h
  · next a m hm => cases h; exact hact m (by rw [hm]; rfl)
  · next e m hm => cases h; exact hact m (by rw [hm]; rfl)
  · cases h

theorem interpret_current {s : Session} (h : s.interpret fuel p = some s') :
    s'.machine.current = s.machine.current := by
  obtain ⟨⟨r, s₁⟩, hp, h⟩ := Option.bind_eq_some_iff.mp h
  have hs₁ := perform_current (Eval.executeProgram_comesBack fuel p.statements) hp
  cases r with
  | ok a => cases h; exact hs₁
  | error e => cases h; exact hs₁

theorem settle_current {s : Session} {act : Eval α} (hact : act.ComesBack)
    (h : (s.perform act).map settle = some (v, s')) : s'.machine.current = s.machine.current := by
  obtain ⟨⟨r, s₁⟩, hp, h⟩ := Option.map_eq_some_iff.mp h
  have hs₁ := perform_current hact hp
  cases r with
  | ok a => cases h; exact hs₁
  | error e => cases h; exact hs₁

theorem Step.current {s s' : Session} (h : Step s s') : s'.machine.current = s.machine.current := by
  cases h with
  | read => rfl
  | run h =>
    unfold Session.run at h
    dsimp only at h
    split at h
    · cases h; rfl
    · exact (interpret_current h).trans rfl
  | evaluate h =>
    unfold Session.evaluate at h
    dsimp only at h
    split at h
    · cases h; rfl
    · exact (settle_current (Eval.evaluate_comesBack _ _) h).trans rfl
  | interpret h => exact interpret_current h
  | call h => exact settle_current (Eval.call_comesBack _ _ _ _) h

theorem Reachable.current {s : Session} (h : s.Reachable) :
    s.machine.current = Machine.globals := by
  obtain ⟨output, h⟩ := h
  induction h with
  | refl => rfl
  | tail _ hstep ih => exact hstep.current.trans ih

end Session

/-- Evaluations, executions of statements, blocks and programs, and calls all end in the frame in
which they started, whatever the state and however they end. So does every step of a session, and
after any steps the current frame is the outermost one. -/
theorem computations_come_back :
    (∀ fuel e, (Eval.evaluate fuel e).ComesBack) ∧
    (∀ fuel s, (Eval.execute fuel s).ComesBack) ∧
    (∀ fuel ss frame, (Eval.executeBlock fuel ss frame).ComesBack) ∧
    (∀ fuel ss, (Eval.executeProgram fuel ss).ComesBack) ∧
    (∀ fuel callee args span, (Eval.call fuel callee args span).ComesBack) ∧
    (∀ s s', Session.Step s s' → s'.machine.current = s.machine.current) ∧
    (∀ s, Session.Reachable s → s.machine.current = Machine.globals) :=
  ⟨Eval.evaluate_comesBack, Eval.execute_comesBack, Eval.executeBlock_comesBack,
    Eval.executeProgram_comesBack, Eval.call_comesBack, fun _ _ h =>
      h.current, fun _ h => h.current⟩

/-- An unbound name inside a `let` inside two blocks: three frames are made, and all of them are
left. -/
theorem unbound_name_in_blocks_comes_back :
    ∃ m', (Eval.execute 9 (.block [.varDecl ⟨⟨24⟩, default⟩ none,
        .block [.expr
          (.letIn ⟨⟨25⟩, default⟩ (.literal .nil default) (.var ⟨⟨26⟩, default⟩) default)]
          default] default) .initial {}).machine? = some m' ∧
      m'.store.frames.size = 4 ∧ m'.current = Machine.globals := by
  have hsize : (Eval.execute 9 (.block [.varDecl ⟨⟨24⟩, default⟩ none,
      .block [.expr (.letIn ⟨⟨25⟩, default⟩ (.literal .nil default) (.var ⟨⟨26⟩, default⟩) default)]
        default] default) .initial {}).machine?.map (·.store.frames.size) = some 4 := by
    decide +kernel
  obtain ⟨m', hm, hsize⟩ := Option.map_eq_some_iff.mp hsize
  exact ⟨m', hm, hsize, computations_come_back.2.1 9 _ _ _ m' hm⟩

end TreeWalk
