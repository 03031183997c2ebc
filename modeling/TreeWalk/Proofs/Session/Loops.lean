import TreeWalk.Proofs.Eval.Fuel
import TreeWalk.Proofs.Eval.PaddedRuns
import TreeWalk.Proofs.Session.Heap

/-!
# Loops and their `while` forms

A `loop` is a `while` whose condition is true, and a `for` is a block with a `while` in it. The
`while` form of a `for` goes round in a frame of its own each time, in which nothing is declared,
and functions made in the body keep it. So the two runs differ in empty frames, and in nothing else.
-/

namespace TreeWalk

/-- The loop written with `while`, where new nodes stand at `place`. -/
def Stmt.whileForm? (place : Span) : Stmt → Option Stmt
  | .forever body _ => some (.whileLoop (.literal (.bool true) place) (.block body place) place)
  | .forLoop init c inc body _ =>
    some (.block (init.toList ++ [.whileLoop (c.getD (.literal (.bool true) place))
      (.block (body :: (inc.map .expr).toList) place) place]) place)
  | _ => none

/-- With enough fuel, executing the statement ends so. -/
def Machine.Ends (names : Interner) (m : Machine) (s : Stmt) (o : Outcome Flow) : Prop :=
  o ≠ .exhausted ∧ ∃ n, Eval.execute n s names m = o

/-- Both outcomes have the same flow or the same error, the same output and the same log, in stores
that differ from the frames of `before` on by empty frames only. The frames of `before` and all
objects are the same in both. -/
structure Outcome.AgreesFrom (before : Machine) (o o' : Outcome Flow) : Prop where
  padded : Outcome.Padded (List.range before.store.frames.size) before.current before.current
    (fun _ a b => a = b) o o'
  frames : ∀ m m', o.machine? = some m → o'.machine? = some m' →
    ∀ f < before.store.frames.size, m.store.frames[f]? = m'.store.frames[f]?
  objects : ∀ m m', o.machine? = some m → o'.machine? = some m' → m.store.objects = m'.store.objects

/-- Loops that are executed here end as their `while` forms do. -/
structure Machine.LoopsAgree (names : Interner) (m : Machine) : Prop where
  forever : ∀ body span place w, (Stmt.forever body span).whileForm? place = some w →
    ∀ o, m.Ends names (.forever body span) o ↔ m.Ends names w o
  terminates : ∀ (p : Program) (s : Stmt) place w, p.IsRead → p.Contains s →
    s.whileForm? place = some w → ((∃ o, m.Ends names s o) ↔ ∃ o, m.Ends names w o)
  agrees : ∀ (p : Program) (s : Stmt) place w, p.IsRead → p.Contains s →
    s.whileForm? place = some w → ∀ o o', m.Ends names s o → m.Ends names w o' → o.AgreesFrom m o'

theorem Machine.Ends.unique {m : Machine} (h : m.Ends names s o) (h' : m.Ends names s o') :
    o = o' := by
  obtain ⟨hne, n, rfl⟩ := h
  obtain ⟨hne', n', rfl⟩ := h'
  have hmax := (Eval.below_of_le (Nat.le_max_left n n')).execute s names m hne
  exact hmax.symm.trans ((Eval.below_of_le (Nat.le_max_right n n')).execute s names m hne')

namespace Eval

/-! ## The body and the step as one -/

/-- The body of a loop, and then its step unless the body returns. -/
def thenStep (body : Eval Flow) (step : Eval Unit) : Eval Flow := do
  match ← body with
  | .normal => do
    step
    return .normal
  | .returned v span => return .returned v span

/-- A loop in a new frame, each round of it in a further one. -/
def turns (init : Eval Unit) (test : Eval Bool) (body : Eval Flow) (step : Eval Unit) (n : Nat) :
    Eval Flow :=
  nested [] do
    init
    repeatWhile test (nested [] (thenStep body step)) (return ()) n

theorem repeatWhile_thenStep (test : Eval Bool) (body : Eval Flow) (step : Eval Unit) (n : Nat) :
    repeatWhile test body step n = repeatWhile test (thenStep body step) (return ()) n := by
  induction n with
  | zero => rfl
  | succ n ih =>
    rw [repeatWhile, repeatWhile, ih]
    refine congrArg (test >>= ·) (funext fun b => ?_)
    cases b with
    | false => rfl
    | true =>
      simp only [if_true, thenStep, bind_assoc]
      refine congrArg (body >>= ·) (funext fun flow => ?_)
      cases flow with
      | normal => simp only [bind_assoc]; rfl
      | returned v span => rfl

theorem Below.thenStep {body body' : Eval Flow} {step step' : Eval Unit} (hb : Below body body')
    (hs : Below step step') : Below (Eval.thenStep body step) (Eval.thenStep body' step') := by
  refine .bind hb fun flow => ?_
  cases flow with
  | normal => exact .bind hs fun _ => .refl _
  | returned v span => exact .refl _

theorem Below.turns {init init' : Eval Unit} {test test' : Eval Bool} {body body' : Eval Flow}
    {step step' : Eval Unit} (hi : Below init init') (ht : Below test test') (hb : Below body body')
    (hs : Below step step') (hn : n ≤ n') :
    Below (Eval.turns init test body step n) (Eval.turns init' test' body' step' n') :=
  .nested (.bind hi fun _ => .repeatWhile ht ((hb.thenStep hs).nested []) (.refl _) hn) []

theorem Pads.thenStep {σ : List FrameId} {f f' : FrameId} {body body' : Eval Flow}
    {step step' : Eval Unit} (hb : Pads σ f f' Same body body') (hs : Pads σ f f' Same step step') :
    Pads σ f f' Same (Eval.thenStep body step) (Eval.thenStep body' step') := by
  refine .next hb fun τ flow hτ => ?_
  cases flow with
  | normal => exact .next (hs.mono hτ) fun _ _ _ => .same _
  | returned v span => exact .same _

/-! ## What the forms do -/

/-- A statement that may stand first in a header does not return. -/
theorem executeAll_initializer {s : Stmt} (hs : s.isInitializer = true) (ss : List Stmt) :
    executeAll (execute n) (s :: ss) = (do let _ ← execute n s; executeAll (execute n) ss) := by
  cases n with
  | zero => rfl
  | succ n =>
    cases s with
    | expr e | varDecl x e => simp only [executeAll, execute, bind_assoc]; rfl
    | _ => cases hs

theorem executeAll_singleton (exec : Stmt → Eval Flow) (s : Stmt) :
    executeAll exec [s] = exec s := by
  funext names m
  simp only [executeAll, bind]
  cases exec s names m with
  | ok flow m' => cases flow <;> rfl
  | fault | exhausted => rfl

/-- The first part of the header is executed, and then the rest. -/
theorem executeAll_prepare {init : Option Stmt}
    (hinit : ∀ s, init = some s → s.isInitializer = true) (w : Stmt) :
    executeAll (execute n) (init.toList ++ [w]) = (do prepare (execute n) init; execute n w) := by
  cases init with
  | none => exact executeAll_singleton _ w
  | some s =>
    rw [Option.toList_some, List.singleton_append, executeAll_initializer (hinit s rfl),
      executeAll_singleton, prepare, bind_assoc]
    rfl

theorem executeAll_step (inc : Option Expr) :
    executeAll (execute (n + 1)) (inc.map Stmt.expr).toList =
      (do effect (evaluate n) inc; return .normal) := by
  cases inc with
  | none => rfl
  | some e =>
    rw [Option.map_some, Option.toList_some, executeAll_singleton, effect, bind_assoc]
    rfl

theorem holds_getD (c : Option Expr) (place : Span) :
    holds (evaluate (n + 1)) (c.getD (.literal (.bool true) place)) =
      holdsIfGiven (evaluate (n + 1)) c := by
  cases c <;> rfl

/-- The `while` form of a `for`, with fuel for all its parts. -/
theorem execute_whileForm {init : Option Stmt} (hinit : ∀ s, init = some s → s.isInitializer = true)
    (hw : (Stmt.forLoop init c inc body span).whileForm? place = some w) :
    execute (n + 4) w = turns (prepare (execute (n + 3)) init) (holdsIfGiven (evaluate (n + 2)) c)
      (execute (n + 1) body) (effect (evaluate n) inc) (n + 2) := by
  cases hw
  rw [execute, executeAll_prepare hinit, execute, execute, executeAll, executeAll_step, holds_getD]
  rfl

theorem below_turns {init : Option Stmt} (hinit : ∀ s, init = some s → s.isInitializer = true)
    (hw : (Stmt.forLoop init c inc body span).whileForm? place = some w) :
    Below (execute n w) (turns (prepare (execute (n + 3)) init) (holdsIfGiven (evaluate (n + 3)) c)
      (execute (n + 3) body) (effect (evaluate (n + 3)) inc) (n + 3)) := by
  -- With little fuel the header may still fail before the loop is reached, so the equation needs
  -- some more first.
  refine ((below_of_le (Nat.le_add_right n 4)).execute w).trans ?_
  rw [execute_whileForm hinit hw]
  refine .turns (.refl _) (.holdsIfGiven (below_of_le ?_).evaluate c)
    ((below_of_le ?_).execute body)
    (.effect (below_of_le ?_).evaluate inc) ?_ <;> omega

theorem turns_below {init : Option Stmt} (hinit : ∀ s, init = some s → s.isInitializer = true)
    (hw : (Stmt.forLoop init c inc body span).whileForm? place = some w) :
    Below (turns (prepare (execute n) init) (holdsIfGiven (evaluate n) c) (execute n body)
      (effect (evaluate n) inc) n) (execute (n + 4) w) := by
  rw [execute_whileForm hinit hw]
  refine .turns (.prepare (below_of_le ?_).execute init) (.holdsIfGiven (below_of_le ?_).evaluate c)
    ((below_of_le ?_).execute body) (.refl _) ?_ <;> omega

/-- A `for` does in one frame what `turns` does in a further frame for each round. -/
theorem pads_turns {σ : List FrameId} {f f' : FrameId} (hf : Near σ f f')
    (hbody : body.declares = false) (n : Nat) (init : Option Stmt) (c inc : Option Expr)
    (span : Span) :
    Pads σ f f' Pads.Same (execute (n + 1) (.forLoop init c inc body span))
      (turns (prepare (execute n) init)
      (holdsIfGiven (evaluate n) c) (execute n body) (effect (evaluate n) inc) n) := by
  have hev := @(padsWith n).evaluate
  have hex := @(padsWith n).execute
  refine .nested hf [] fun τ new new' _ hnew => .next (.prepare hex hnew init) fun υ _ hυ => ?_
  have hnear := hnew.near.mono hυ
  rw [repeatWhile_thenStep]
  -- The body runs in an empty frame here. It stands for the frame of the header, since the body
  -- declares nothing.
  refine .repeatWhile (.holdsIfGiven hev hnear c) (.nested_right hnear fun ω inner _ hinner => ?_)
    (.same ()) n
  exact .thenStep
    (hex body hinner fun hdeclares => absurd (hbody.symm.trans hdeclares) Bool.false_ne_true)
    (.effect hev hinner inc)

theorem forever_below (hw : (Stmt.forever body span).whileForm? place = some w) :
    Below (execute n (.forever body span)) (execute (n + 1) w) := by
  cases hw
  cases n with
  | zero => exact .exhausted _
  | succ n => exact .repeatWhile (.refl _) (.refl _) (.refl _) (Nat.le_succ n)

theorem below_forever (hw : (Stmt.forever body span).whileForm? place = some w) :
    Below (execute n w) (execute (n + 2) (.forever body span)) := by
  cases hw
  refine ((below_of_le (Nat.le_add_right n 2)).execute _).trans ?_
  have hbody := (below_of_le (Nat.le_succ n)).execute
  exact .repeatWhile (.refl _) ((Below.executeAll hbody body).nested []) (.refl _) (Nat.le_refl _)

end Eval

/-! ## Agreement -/

namespace Store.Padded

variable {σ : List FrameId} {S T : Store}

/-- Frames that stood for themselves at the beginning are the same in both stores. -/
theorem frame_eq (h : S.Padded σ T) (hσ : List.range n <+: σ) {f : FrameId} (hf : f < n) :
    S.frames[f]? = T.frames[f]? := by
  obtain ⟨frame, frame', hframe, hframe', hnear⟩ := h.exists_twin ((twin_range hf).mono hσ)
  have hparent : frame.parent = frame'.parent := by
    have hrel := hnear.parent
    have hlt := h.older' f frame' hframe'
    generalize frame.parent = p at hrel
    generalize frame'.parent = p' at hrel hlt
    cases hrel with
    | none => rfl
    | @some q q' hq =>
      have hself := (twin_range (Nat.lt_trans (hlt q' rfl) hf)).near.mono hσ
      rw [hq.eq hself]
  rw [hframe, hframe']
  congr 1
  cases frame
  cases frame'
  cases hnear.bindings
  cases hparent
  rfl

end Store.Padded

theorem Outcome.Padded.agreesFrom {m : Machine} {o o' : Outcome Flow}
    (h : Outcome.Padded (List.range m.store.frames.size) m.current m.current
        (fun _ a b => a = b) o o') :
    o.AgreesFrom m o' := by
  have hstores : ∀ m₁ m₂, o.machine? = some m₁ → o'.machine? = some m₂ →
      ∃ τ, List.range m.store.frames.size <+: τ ∧ m₁.store.Padded τ m₂.store := by
    intro m₁ m₂ h₁ h₂
    cases h with
    | ok hτ _ hm => cases h₁; cases h₂; exact ⟨_, hτ, hm.store⟩
    | fault hτ hm => cases h₁; cases h₂; exact ⟨_, hτ, hm.store⟩
    | exhausted => cases h₁
  refine ⟨h, fun m₁ m₂ h₁ h₂ f hf => ?_, fun m₁ m₂ h₁ h₂ => ?_⟩
  · obtain ⟨τ, hτ, hstore⟩ := hstores m₁ m₂ h₁ h₂
    exact hstore.frame_eq hτ hf
  · obtain ⟨τ, -, hstore⟩ := hstores m₁ m₂ h₁ h₂
    exact hstore.objects

theorem Outcome.Padded.exhausted_iff {V : List FrameId → α → β → Prop}
    (h : Outcome.Padded σ f f' V o o') :
    o = .exhausted ↔ o' = .exhausted := by
  cases h <;> simp

/-- In a program that was read, the header of a `for` does not return and its body declares
nothing. -/
theorem Program.IsRead.forLoop {init : Option Stmt} {p : Program} (hread : p.IsRead)
    (hs : p.Contains (.forLoop init c inc body span)) :
    (∀ s, init = some s → s.isInitializer = true) ∧ body.declares = false := by
  obtain ⟨names, source, -, rfl⟩ := hread
  have hshaped := (Stmt.Proper.of_parse hs).1
  obtain ⟨top, htop, hinside⟩ := hs
  have hbody : body ∈ (Stmt.forLoop init c inc body span).parts :=
    List.mem_append_right _ (List.mem_singleton_self _)
  exact ⟨hshaped.1, Stmt.Settled.of_parse ⟨top, htop, hinside.tail hbody⟩ hshaped.2⟩

namespace Machine

variable {m : Machine} {names : Interner}

theorem ends_forever_iff (hw : (Stmt.forever body span).whileForm? place = some w)
    (o : Outcome Flow) :
    m.Ends names (.forever body span) o ↔ m.Ends names w o := by
  constructor
  · rintro ⟨hne, n, rfl⟩
    exact ⟨hne, n + 1, Eval.forever_below hw names m hne⟩
  · rintro ⟨hne, n, rfl⟩
    exact ⟨hne, n + 2, Eval.below_forever hw names m hne⟩

section

variable (names) (hstore : m.store.Padded (List.range m.store.frames.size) m.store)
include hstore

/-- What code does alike in padded stores it does alike from here on. -/
theorem padded_of_pads {act act' : Eval Flow}
    (h : Eval.Pads (List.range m.store.frames.size) m.current m.current Eval.Pads.Same act act') :
    Outcome.Padded (List.range m.store.frames.size) m.current m.current (fun _ a b => a = b)
      (act names m) (act' names m) :=
  h names _ m m List.prefix_rfl ⟨hstore, rfl, rfl, rfl, rfl⟩

variable (hcurrent : m.current < m.store.frames.size)
include hcurrent

/-- Where a loop ends its `while` form ends too, and alike; and the other way round. -/
theorem ends_whileForm {p : Program} (hread : p.IsRead) (hs : p.Contains s)
    (hw : s.whileForm? place = some w) :
    (∀ o, m.Ends names s o → ∃ o', m.Ends names w o' ∧ o.AgreesFrom m o') ∧
      ∀ o', m.Ends names w o' → ∃ o, m.Ends names s o := by
  have hnear := (twin_range hcurrent).near
  cases s with
  | forever body span =>
    refine ⟨fun o ho => ⟨o, (ends_forever_iff hw o).mp ho, ?_⟩, fun o ho =>
      ⟨o, (ends_forever_iff hw o).mpr ho⟩⟩
    obtain ⟨-, n, rfl⟩ := ho
    exact (padded_of_pads names hstore
      ((Eval.padsWith n).execute (.forever body span) hnear fun _ =>
          twin_range hcurrent)).agreesFrom
  | forLoop init c inc body span =>
    obtain ⟨hinit, hbody⟩ := hread.forLoop hs
    have hpadded :=
      fun n => padded_of_pads names hstore (Eval.pads_turns hnear hbody n init c inc span)
    constructor
    · rintro o ⟨hne, n, rfl⟩
      cases n with
      | zero => exact absurd rfl hne
      | succ n =>
        have hturns := fun heq => hne ((hpadded n).exhausted_iff.mpr heq)
        exact ⟨_, ⟨hturns, n + 4, Eval.turns_below hinit hw names m hturns⟩, (hpadded n).agreesFrom⟩
    · rintro o' ⟨hne, n, rfl⟩
      have hturns := Eval.below_turns hinit hw names m hne
      refine ⟨_, fun heq => hne ?_, n + 4, rfl⟩
      exact hturns.symm.trans ((hpadded (n + 3)).exhausted_iff.mp heq)
  | _ => cases hw

theorem loopsAgree : m.LoopsAgree names where
  forever body span place w hw o := ends_forever_iff hw o
  terminates p s place w hread hs hw := by
    obtain ⟨hthere, hback⟩ := ends_whileForm names hstore hcurrent hread hs hw
    constructor
    · rintro ⟨o, ho⟩
      obtain ⟨o', ho', -⟩ := hthere o ho
      exact ⟨o', ho'⟩
    · rintro ⟨o', ho'⟩
      exact hback o' ho'
  agrees p s place w hread hs hw o o' ho ho' := by
    obtain ⟨o'', ho'', hagrees⟩ := (ends_whileForm names hstore hcurrent hread hs hw).1 o ho
    exact ho''.unique ho' ▸ hagrees

end

end Machine

namespace Session

variable {s : Session}

theorem Moment.lexical {names : Interner} (hs : s.Sound (.parsed False))
    (h : s.Moment (fun _ => True) names k t m) :
    m.store.Lexical m.current := by
  have hpermits : Permits (fun _ => True) False := fun hfalse => hfalse.elim
  obtain ⟨n, t₀, m₀, hstarts, hvisits⟩ := h
  have hstart := Moment.leads hpermits hs ⟨n, t₀, m₀, hstarts, .refl⟩
  have hscope : m₀.store.Lexical m₀.current := by
    cases hstarts with
    | run | interpret | execute => exact hstart.fit.scope
    | evaluate => exact hstart.fit.1
    | call => exact hs.isOpen.lexical
  exact Regime.scope_visits hvisits hstart.good hstart.fit hscope

/-- **Loops agree with their `while` forms.** In every state of a session of texts, between its
steps and at every moment inside them, a `loop` ends exactly as its `while` form does. Any parsed
loop ends if and only if its `while` form does, with the same flow or the same error, and with the
same output, objects and old frames; further frames differ by empty ones only. -/
theorem loops_end_as_their_while_forms (h : s.OfTexts fun _ => True) :
    s.machine.LoopsAgree s.names ∧ ∀ names k t m, s.Moment (fun _ => True) names k t m →
      m.LoopsAgree names := by
  have hpermits : Permits (fun _ => True) False := fun hfalse => hfalse.elim
  have hs := h.sound hpermits
  refine ⟨Machine.loopsAgree s.names hs.store.knit.padded_self hs.isOpen.lexical.lt,
    fun names k t m hm => ?_⟩
  exact Machine.loopsAgree names (hm.leads hpermits hs).good.knit.padded_self (hm.lexical hs).lt

/-- The body makes a function in each of two rounds and calls it. The `while` form makes one frame
more in each round. -/
theorem rounds_of_while_form_have_own_frames :
    let source :=
      "for (var i = 0; i < 2; i = i + 1) \x7b fn g() \x7b return i; \x7d print g(); \x7d"
    let u := ((opened {}).read source).2
    ∃ stmt w o o', (readSource (opened {}).names source).program.Contains stmt ∧
      stmt.whileForm? default = some w ∧ u.machine.Ends u.names stmt o ∧
      u.machine.Ends u.names w o' ∧
      o.machine?.map (·.store.frames.size) = some 6 ∧
      o'.machine?.map (·.store.frames.size) = some 8 ∧
      o.AgreesFrom u.machine o' := by
  intro source u
  have hall : (readSource (opened {}).names source).program.statements.head?.any (fun stmt =>
      (stmt.whileForm? default).any fun w =>
        (Eval.execute 30 stmt u.names u.machine).machine?.map (·.store.frames.size) == some 6 &&
        (Eval.execute 30 w u.names u.machine).machine?.map (·.store.frames.size) ==
          some 8) = true := by
    decide +kernel
  obtain ⟨stmt, hstmt, hall⟩ := (Option.any_eq_true _ _).mp hall
  obtain ⟨w, hw, hall⟩ := (Option.any_eq_true _ _).mp hall
  simp only [Bool.and_eq_true, beq_iff_eq] at hall
  obtain ⟨hsize, hsize'⟩ := hall
  have hends : ∀ {t : Stmt} {k : Nat},
      (Eval.execute 30 t u.names u.machine).machine?.map (·.store.frames.size) = some k →
      u.machine.Ends u.names t (Eval.execute 30 t u.names u.machine) := by
    intro t k hk
    refine ⟨fun hexhausted => ?_, 30, rfl⟩
    rw [hexhausted] at hk
    cases hk
  have htexts : u.OfTexts fun _ => True := ⟨{}, .single (.read source)⟩
  have hcontains : (readSource (opened {}).names source).program.Contains stmt :=
    ⟨stmt, List.mem_of_mem_head? hstmt, .refl⟩
  have hread : (readSource (opened {}).names source).program.IsRead := ⟨_, source, .refl _, rfl⟩
  obtain ⟨hloops, -⟩ := loops_end_as_their_while_forms htexts
  exact ⟨stmt, w, _, _, hcontains, hw, hends hsize, hends hsize', hsize, hsize',
    hloops.agrees _ stmt default w hread hcontains hw _ _ (hends hsize) (hends hsize')⟩

end Session

end TreeWalk
