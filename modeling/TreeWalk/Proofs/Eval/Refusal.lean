import TreeWalk.Proofs.Eval.Moments
import TreeWalk.Proofs.Output

/-!
# Outputs that refuse

The same computation on an output with limits and on one without goes through the same states, but
for the limits, up to the first text that is refused. That text belongs to a `print` statement to
which both runs come, and the refusal ends the run with the limits on the spot (`Tracks`). On its
way out the error meets nothing that takes it in or prints again.
-/

namespace TreeWalk

/-- The machine with the limits of its output lifted. -/
def Machine.freed (m : Machine) : Machine :=
  { m with output := m.output.freed }

/-- Whether a text could not be written. -/
def RuntimeError.isOutput : RuntimeError → Bool
  | .output _ _ => true
  | _ => false

/-- The code tells the errors of the output from all others. -/
theorem RuntimeError.code_eq_output_iff (e : RuntimeError) :
    e.code = "E0313" ↔ e.isOutput = true := by
  cases e <;> simp [code, isOutput]

namespace Eval

/-- With `n` units of fuel, doing the task from `m` on comes to a `print` statement whose text is
refused, and so does doing it without limits, where the text is not refused. -/
inductive Refused (names : Interner) (n : Nat) (t : Task) (m : Machine) :
    RuntimeError → Output → Prop
  | print : Visits names n t m (k + 1) (.execute (.print e span)) p →
      Visits names n t m.freed (k + 1) (.execute (.print e span)) p.freed →
      evaluate k e names p = .ok v q → evaluate k e names p.freed = .ok v q.freed →
      q.output.writeAll (q.store.pieces v ++ ["\n"]) = (false, o) →
      Refused names n t m (.output q.output.refusal span) o

/-- How an outcome on an output with limits and one without go together, where `T` says to which
tasks the computation comes from a state. -/
inductive Tracked (names : Interner) (n : Nat) (T : Machine → Task → Machine → Prop) (m : Machine) :
    Outcome α → Outcome α → Prop
  | ok : Tracked names n T m (.ok a m') (.ok a m'.freed)
  | fault : e.isOutput = false → Tracked names n T m (.fault e m') (.fault e m'.freed)
  | refused {o : Outcome α} : T m t p → T m.freed t p.freed → Refused names n t p e m'.output →
      (∀ m'', o.machine? = some m'' → m'.output.Continues m''.output) →
      Tracked names n T m (.fault e m') o
  | exhausted : Tracked names n T m .exhausted .exhausted

/-- The outcomes leave the output alone, and differ in its limits alone. -/
inductive Silent (m : Machine) : Outcome α → Outcome α → Prop
  | ok : m'.output = m.output → Silent m (.ok a m') (.ok a m'.freed)
  | fault : e.isOutput = false → m'.output = m.output → Silent m (.fault e m') (.fault e m'.freed)

/-- The computation takes back nothing that was written. -/
def Adds (act : Eval α) : Prop :=
  ∀ names m m', (act names m).machine? = some m' → m.output.Continues m'.output

/-- The computation only adds to what was written, and lifting the limits changes nothing before the
first refusal. -/
structure Tracks (T : Interner → Machine → Task → Machine → Prop) (n : Nat)
    (act : Eval α) : Prop where
  adds : Adds act
  tracked : ∀ names m, Tracked names n (T names) m (act names m) (act names m.freed)

variable {T U : Interner → Machine → Task → Machine → Prop} {n : Nat} {α β : Type}

theorem Adds.bind {act : Eval α} {next : α → Eval β} (h : Adds act) (hnext : ∀ a, Adds (next a)) :
    Adds (act >>= next) := by
  intro names m m' hm'
  have hact := h names m
  simp only [Bind.bind] at hm'
  cases hout : act names m with
  | ok a m₁ =>
    rw [hout] at hm' hact
    exact (hact m₁ rfl).trans (hnext a names m₁ m' hm')
  | fault e m₁ =>
    rw [hout] at hm' hact
    exact hact m' hm'
  | exhausted =>
    rw [hout] at hm'
    cases hm'

/-- Also the part of a text that was still taken is added. -/
theorem Adds.print (v : Value) (span : Span) : Adds (Eval.print v span) := by
  intro names m m' hm'
  simp only [Eval.print] at hm'
  generalize hwrite : m.output.writeAll (m.store.pieces v ++ ["\n"]) = written at hm'
  obtain ⟨taken, o⟩ := written
  cases taken with
  | true => cases hm'; exact (Output.writeAll_taken hwrite).2
  | false => cases hm'; exact (Output.writeAll_refused hwrite).2.1

/-- Tracked from a later state, the tasks are found from an earlier one. -/
theorem Tracked.mono {T U : Machine → Task → Machine → Prop} {o o' : Outcome α}
    (h : Tracked names n T m o o') (hT : ∀ t p, T m t p → U m₀ t p)
    (hT' : ∀ t p, T m.freed t p → U m₀.freed t p) : Tracked names n U m₀ o o' := by
  cases h with
  | ok => exact .ok
  | fault he => exact .fault he
  | refused ht ht' hr hmore => exact .refused (hT _ _ ht) (hT' _ _ ht') hr hmore
  | exhausted => exact .exhausted

namespace Tracks

theorem mono {act : Eval α} (h : Tracks T n act)
    (hT : ∀ names m t p, T names m t p → U names m t p) :
    Tracks U n act :=
  ⟨h.adds, fun names m => (h.tracked names m).mono (hT names m) (hT names m.freed)⟩

/-! ## Sequences -/

/-- A computation that prints nothing does the same whatever the output takes. -/
theorem leaf {act : Eval α} (h : ∀ names m, Silent m (act names m) (act names m.freed)) :
    Tracks T n act where
  adds names m m' hm' := by
    have hsilent := h names m
    generalize act names m = o at hsilent hm'
    generalize act names m.freed = o' at hsilent
    cases hsilent with
    | ok hsame => cases hm'; exact .of_eq hsame
    | fault _ hsame => cases hm'; exact .of_eq hsame
  tracked names m := by
    have hsilent := h names m
    generalize act names m = o at hsilent
    generalize act names m.freed = o' at hsilent
    cases hsilent with
    | ok => exact .ok
    | fault he => exact .fault he

theorem pure : Tracks T n (Pure.pure a : Eval α) :=
  .leaf fun _ _ => .ok rfl

/-- What follows a computation has to be tracked from the states alone in which the computation
ends. -/
theorem andThen {act : Eval α} {next : α → Eval β} (h : Tracks T n act) (hadds : ∀ a, Adds (next a))
    (hnext : ∀ names m a m₁, act names m = .ok a m₁ → act names m.freed = .ok a m₁.freed →
      Tracked names n (T names) m (next a names m₁)
        (next a names m₁.freed)) : Tracks T n (act >>= next) where
  adds := h.adds.bind hadds
  tracked names m := by
    have hact := h.tracked names m
    simp only [Bind.bind]
    generalize hlimited : act names m = o at hact
    generalize hfree : act names m.freed = o' at hact
    cases hact with
    | @ok a m₁ => exact hnext names m a m₁ hlimited hfree
    | fault he => exact .fault he
    | refused ht ht' hr hmore =>
      refine .refused ht ht' hr fun m' hm' => ?_
      cases o' with
      | ok a m₁ => exact (hmore m₁ rfl).trans (hadds a names m₁ m' hm')
      | fault e m₁ => cases hm'; exact hmore _ rfl
      | exhausted => cases hm'
    | exhausted => exact .exhausted

/-- If the first part is refused something, the second is not reached. Else it starts from where the
first ended. -/
theorem bind {act : Eval α} {next : α → Eval β} (h : Tracks T n act)
    (hnext : ∀ a,
      Tracks (fun names m₁ t p => ∀ m, act names m = .ok a m₁ → T names m t p) n (next a)) :
    Tracks T n (act >>= next) := by
  refine h.andThen (fun a => (hnext a).adds) fun names m a m₁ hm hm' => ?_
  exact ((hnext a).tracked names m₁).mono (fun t p ht => ht m hm) fun t p ht => ht m.freed hm'

/-- Errors of the program are the same on both sides. -/
theorem raise (h : e.isOutput = false) : Tracks T n (Eval.raise e : Eval α) :=
  .leaf fun _ _ => .fault h rfl

theorem exhausted : Tracks T n (Eval.exhausted : Eval α) where
  adds _ _ _ hm' := by cases hm'
  tracked _ _ := .exhausted

theorem ofExcept {r : Except RuntimeError α} (h : ∀ e, r = .error e → e.isOutput = false) :
    Tracks T n (Eval.ofExcept r) := by
  cases r with
  | ok a => exact .pure
  | error e => exact .raise (h e rfl)

theorem nameOf (x : Symbol) : Tracks T n (Eval.nameOf x) :=
  .leaf fun _ _ => .ok rfl

theorem query (f : Store → α) : Tracks T n (Eval.query f) :=
  .leaf fun _ _ => .ok rfl

theorem update (f : Store → α × Store) : Tracks T n (Eval.update f) :=
  .leaf fun _ _ => .ok rfl

theorem record (event : Event) : Tracks T n (Eval.record event) :=
  .leaf fun _ _ => .ok rfl

/-! ## Names and frames -/

theorem lookup (x : Ident) : Tracks T n (Eval.lookup x) := by
  refine .leaf fun names m => ?_
  have hsame : m.freed.store.lookup? m.freed.current x.name =
    m.store.lookup? m.current x.name := rfl
  simp only [Eval.lookup, hsame]
  cases m.store.lookup? m.current x.name with
  | none => exact .fault rfl rfl
  | some v => exact .ok rfl

theorem define (x : Symbol) (v : Value) : Tracks T n (Eval.define x v) :=
  .leaf fun _ _ => .ok rfl

theorem assign (x : Ident) (v : Value) : Tracks T n (Eval.assign x v) := by
  refine .leaf fun names m => ?_
  have hsame : m.freed.store.owner? m.freed.current x.name = m.store.owner? m.current x.name := rfl
  simp only [Eval.assign, hsame]
  cases m.store.owner? m.current x.name with
  | none => exact .fault rfl rfl
  | some f => exact .ok rfl

/-- Coming back to a frame changes nothing that was written. -/
theorem backTo {T U : Machine → Task → Machine → Prop} {o o' : Outcome α} (f : FrameId)
    (h : Tracked names n T m o o') (hT : ∀ t p, T m t p → U m₀ t p)
    (hT' : ∀ t p, T m.freed t p → U m₀.freed t p) :
    Tracked names n U m₀ (Eval.backTo f o) (Eval.backTo f o') := by
  cases h with
  | ok => exact .ok
  | fault he => exact .fault he
  | refused ht ht' hr hmore =>
    refine .refused (hT _ _ ht) (hT' _ _ ht') hr fun m' hm' => ?_
    cases o' with
    | ok a m₁ => cases hm'; exact hmore m₁ rfl
    | fault e m₁ => cases hm'; exact hmore m₁ rfl
    | exhausted => cases hm'
  | exhausted => exact .exhausted

/-- The frame is left again whether or not something was refused. -/
theorem within {act : Eval α}
    (h : Tracks (fun names m' t p => ∀ m, m' = m.nest scope pairs → T names m t p) n act) :
    Tracks T n (Eval.within scope pairs act) where
  adds names m m' hm' := by
    have hadds := h.adds names (m.nest scope pairs)
    change (Eval.backTo m.current (act names (m.nest scope pairs))).machine? = some m' at hm'
    cases hact : act names (m.nest scope pairs) with
    | ok a m₁ =>
      rw [hact] at hm' hadds
      cases hm'
      exact hadds m₁ rfl
    | fault e m₁ =>
      rw [hact] at hm' hadds
      cases hm'
      exact hadds m₁ rfl
    | exhausted =>
      rw [hact] at hm'
      cases hm'
  tracked names m :=
    backTo m.current (h.tracked names (m.nest scope pairs)) (fun t p ht => ht m rfl) fun t p ht =>
      ht m.freed rfl

theorem nested {act : Eval α}
    (h : Tracks (fun names m' t p => ∀ m, m' = m.nest m.current pairs → T names m t p) n act) :
    Tracks T n (Eval.nested pairs act) := by
  have hwithin : ∀ f, Tracks (fun names m t p => m.current = f → T names m t p) n
      (Eval.within f pairs act) := by
    refine fun f => .within (h.mono fun names m' t p ht m hm hf => ht m ?_)
    rw [hf]
    exact hm
  refine ⟨fun names m => (hwithin m.current).adds names m, fun names m => ?_⟩
  exact ((hwithin m.current).tracked names m).mono (fun t p ht => ht rfl) fun t p ht => ht rfl

/-! ## Functions, classes and objects -/

theorem newFunction (c : Closure) : Tracks T n (Eval.newFunction c) :=
  .bind (.update _) fun _ => .pure

theorem functionHere (decl : FunctionDecl) : Tracks T n (Eval.functionHere decl) :=
  .leaf fun _ _ => .ok rfl

theorem superclass? (x : Option Ident) : Tracks T n (Eval.superclass? x) := by
  cases x with
  | none => exact .pure
  | some x =>
    refine .bind (.bind (.lookup x) fun v => ?_) fun _ => .pure
    cases v with
    | class_ k => exact .pure
    | _ => exact .bind (.nameOf _) fun _ => .raise rfl

theorem methodScope (k : Option ClassId) : Tracks T n (Eval.methodScope k) := by
  cases k with
  | none => exact .leaf fun _ _ => .ok rfl
  | some k => exact .leaf fun _ _ => .ok rfl

theorem methodTable (scope : FrameId) (table : Bindings Closure) (decls : List FunctionDecl) :
    Tracks T n (Eval.methodTable scope table decls) := by
  induction decls generalizing table T with
  | nil => exact .pure
  | cons decl decls ih => exact .bind (.bind (.nameOf _) fun _ => .pure) fun c => ih _

/-- Declaring a class prints nothing. -/
theorem newClass (x : Ident) (sup : Option Ident) (methods : List FunctionDecl) :
    Tracks T n (Eval.newClass x sup methods) := by
  refine .bind (.superclass? sup) fun k => .bind (.methodScope k) fun scope => ?_
  refine .bind (.methodTable scope _ methods) fun table => .bind (.nameOf _) fun shown => ?_
  exact .bind (.record _) fun _ => .bind (.update _) fun _ => .pure

theorem property (v : Value) (x : Ident) : Tracks T n (Eval.property v x) := by
  cases v with
  | object o =>
    refine .bind (.query _) fun found => ?_
    cases found with
    | some w => exact .pure
    | none =>
      refine .bind (.query _) fun found => ?_
      cases found with
      | some c => exact .bind (.update _) fun ready => .newFunction ready
      | none => exact .bind (.nameOf _) fun _ => .raise rfl
  | _ => exact .raise rfl

theorem superMethod (x : Ident) (span : Span) : Tracks T n (Eval.superMethod x span) := by
  refine .bind (.lookup _) fun v => ?_
  cases v with
  | class_ k =>
    refine .bind (.lookup _) fun r => .bind (.query _) fun found => ?_
    cases found with
    | some c => exact .bind (.update _) fun ready => .newFunction ready
    | none => exact .bind (.nameOf _) fun _ => .raise rfl
  | _ => exact .bind (.query _) fun _ => .raise rfl

theorem checkArity (shown : String) (expected found : Nat) (span : Span) :
    Tracks T n (Eval.checkArity shown expected found span) := by
  unfold Eval.checkArity
  split
  · exact .pure
  · exact .raise rfl

end Tracks

/-- Where the number of arguments is right, nothing happens. -/
theorem checkArity_eq {names : Interner} (h : checkArity shown k l span names m = .ok u m') :
    k = l ∧ m = m' := by
  unfold checkArity at h
  split at h
  · next heq => exact ⟨heq, (Outcome.ok.inj h).2⟩
  · cases h

/-! ## Parts in order -/

/-- A loop whose turns are tracked is tracked, however often it goes round. -/
theorem Tracks.repeatWhile {test : Eval Bool} {body : Eval Flow} {step : Eval Unit}
    (htest : Tracks
      (fun names m₁ t p => ∀ m, InLoop names test body step m .test m₁ → T names m t p) n test)
    (hbody : Tracks
      (fun names m₁ t p => ∀ m, InLoop names test body step m .body m₁ → T names m t p) n body)
    (hstep : Tracks (fun names m₁ t p => ∀ m, InLoop names test body step m .step m₁ →
        T names m t p) n step) (k : Nat) :
    Tracks T n (Eval.repeatWhile test body step k) := by
  have hturns : Tracks
    (fun names m₁ t p => ∀ m, InLoop names test body step m .test m₁ → T names m t p) n
      (Eval.repeatWhile test body step k) := by
    induction k with
    | zero => exact .exhausted
    | succ k rest =>
      refine .bind htest fun b => ?_
      cases b with
      | false => exact .pure
      | true =>
        refine .bind (hbody.mono fun names m₂ t p ht m₁ hm₁ m hin => ht m (.body hin hm₁))
          fun flow => ?_
        cases flow with
        | returned v span => exact .pure
        | normal =>
          refine .bind (hstep.mono fun names m₃ t p ht m₂ hm₂ m₁ hm₁ m hin => ?_) fun _ => ?_
          · exact ht m (.step (.body hin hm₁) hm₂)
          · refine rest.mono fun names m₄ t p ht m₃ hm₃ m₂ hm₂ m₁ hm₁ m hin => ?_
            exact ht m (.again (.step (.body hin hm₁) hm₂) hm₃)
  exact hturns.mono fun names m t p ht => ht m .first

/-- The three mutually recursive parts of a run track with `n` units of fuel. -/
structure TracksWith (n : Nat) : Prop where
  evaluate : ∀ {e T}, (∀ names m, T names m (.evaluate e) m) → Tracks T n (evaluate n e)
  execute : ∀ {s T}, (∀ names m, T names m (.execute s) m) → Tracks T n (execute n s)
  call : ∀ {callee args span T}, (∀ names m, T names m (.call callee args span) m) →
    Tracks T n (call n callee args span)

namespace TracksWith

variable (ih : TracksWith n)
include ih

/-- A list of expressions is tracked if each of them is, from where the ones before it ended. -/
theorem evaluateAll (h : ∀ names m d p, InAll names n es m d p → T names m (.evaluate d) p) :
    Tracks T n (Eval.evaluateAll (Eval.evaluate n) es) := by
  induction es generalizing T with
  | nil => exact .pure
  | cons e es rest =>
    refine .bind (ih.evaluate fun names m => h names m e m .here) fun v =>
      .bind (rest ?_) fun vs => .pure
    exact fun names m₁ d p hin m hm => h names m d p (.later hm hin)

theorem evaluateLast (h : ∀ names m d p, InAll names n es m d p → T names m (.evaluate d) p) :
    Tracks T n (Eval.evaluateLast (Eval.evaluate n) v es) := by
  induction es generalizing T v with
  | nil => exact .pure
  | cons e es rest =>
    refine .bind (ih.evaluate fun names m => h names m e m .here) fun v => rest ?_
    exact fun names m₁ d p hin m hm => h names m d p (.later hm hin)

/-- Statements up to the first that does not end as usual. -/
theorem executeAll (h : ∀ names m s p, InStmts names n ss m s p → T names m (.execute s) p) :
    Tracks T n (Eval.executeAll (Eval.execute n) ss) := by
  induction ss generalizing T with
  | nil => exact .pure
  | cons s ss rest =>
    refine .bind (ih.execute fun names m => h names m s m .here) fun flow => ?_
    cases flow with
    | normal => exact rest fun names m₁ t p hin m hm => h names m t p (.later hm hin)
    | returned v span => exact .pure

/-- The statements of a program one by one. -/
theorem executeProgram (h : ∀ names m s p, InStmts names n ss m s p → T names m (.execute s) p) :
    Tracks T n (Eval.executeProgram n ss) := by
  induction ss generalizing T with
  | nil => exact .pure
  | cons s ss rest =>
    refine .bind (ih.execute fun names m => h names m s m .here) fun flow => ?_
    cases flow with
    | normal => exact rest fun names m₁ t p hin m hm => h names m t p (.later hm hin)
    | returned v span => exact .raise rfl

theorem optional (h : ∀ d, e = some d → ∀ names m, T names m (.evaluate d) m) :
    Tracks T n (Eval.optional (Eval.evaluate n) e) := by
  cases e with
  | none => exact .pure
  | some d => exact ih.evaluate (h d rfl)

theorem holds (h : ∀ names m, T names m (.evaluate e) m) :
    Tracks T n (Eval.holds (Eval.evaluate n) e) :=
  .bind (ih.evaluate h) fun _ => .pure

theorem holdsIfGiven (h : ∀ d, e = some d → ∀ names m, T names m (.evaluate d) m) :
    Tracks T n (Eval.holdsIfGiven (Eval.evaluate n) e) := by
  cases e with
  | none => exact .pure
  | some d => exact ih.holds (h d rfl)

theorem effect (h : ∀ d, e = some d → ∀ names m, T names m (.evaluate d) m) :
    Tracks T n (Eval.effect (Eval.evaluate n) e) :=
  .bind (ih.optional h) fun _ => .pure

theorem prepare (h : ∀ t, s = some t → ∀ names m, T names m (.execute t) m) :
    Tracks T n (Eval.prepare (Eval.execute n) s) := by
  cases s with
  | none => exact .pure
  | some t => exact .bind (ih.execute (h t rfl)) fun _ => .pure

theorem armValue (h : ∀ names m d p, InArm names n arm m d p → T names m (.evaluate d) p) :
    Tracks T n (Eval.armValue (Eval.evaluate n) arm) := by
  unfold Eval.armValue
  cases hguard : arm.guard with
  | none => exact .bind (ih.evaluate fun names m => h names m _ m (.body hguard)) fun _ => .pure
  | some guard =>
    refine .bind (ih.evaluate fun names m => h names m _ m (.guard hguard)) fun v => ?_
    split
    · next htrue =>
      refine .bind (ih.evaluate fun names m₁ m hm => ?_) fun _ => .pure
      exact h names m _ m₁ (.guarded hguard hm htrue)
    · exact .pure

/-- The guards of the arms are tried in order, each in the frame of its pattern. -/
theorem firstArm (h : ∀ names m d p, InArms names n v arms m d p → T names m (.evaluate d) p) :
    Tracks T n (Eval.firstArm (Eval.evaluate n) v span arms) := by
  induction arms generalizing T with
  | nil => exact .bind (.query _) fun _ => .raise rfl
  | cons arm arms rest =>
    refine .bind (.leaf fun _ _ => .ok rfl) fun found => ?_
    obtain ⟨matched, bound⟩ := found
    cases matched with
    | false =>
      refine rest fun names m₁ d p hin m hm => ?_
      obtain ⟨hmatch, rfl⟩ := Outcome.ok.inj hm
      exact h names m d p (.missed hmatch hin)
    | true =>
      refine .bind (.nested (ih.armValue fun names m' d p hin m₁ hm₁ m hm => ?_)) fun found => ?_
      · obtain ⟨hmatch, rfl⟩ := Outcome.ok.inj hm
        subst hm₁
        exact h names m d p (.here hmatch hin)
      · cases found with
        | some w => exact .pure
        | none =>
          refine rest fun names m₂ d p hin m₁ hvalue m hm => ?_
          obtain ⟨hmatch, rfl⟩ := Outcome.ok.inj hm
          exact h names m d p (.refused hmatch hvalue hin)

/-- The body of a function is tracked from the frame of the call. -/
theorem invoke
    (h : ∀ names m s p, InStmts names n c.decl.body (m.invoking c args) s p →
      T names m (.execute s) p) :
    Tracks T n (Eval.invoke (Eval.execute n) c args) := by
  refine .bind (.record _) fun _ =>
    .bind (.within (ih.executeAll fun names m' s p hin m₁ hm₁ m hm => ?_)) fun flow => ?_
  · obtain ⟨-, rfl⟩ := Outcome.ok.inj hm
    subst hm₁
    exact h names m s p hin
  · split
    · exact .query _
    · cases flow with
      | normal => exact .pure
      | returned v span => exact .pure

/-- The body of the initializer, if the class has one. -/
theorem instantiate (h : ∀ names m c m₁ s p, Invokes args m (.class_ k) c m₁ →
      InStmts names n c.decl.body (m₁.invoking c args) s p → T names m (.execute s) p) :
    Tracks T n (Eval.instantiate (Eval.execute n) k args span) := by
  refine .bind (.update _) fun o => .bind (.query _) fun shown => .bind (.query _) fun found => ?_
  cases found with
  | none => exact .bind (.checkArity _ _ _ _) fun _ => .pure
  | some init =>
    refine .bind (.checkArity _ _ _ _) fun _ => .bind (.update _) fun ready =>
      .bind (ih.invoke ?_) fun _ => .pure
    intro names m₅ s p hin m₄ h₅ m₃ h₄ m₂ h₃ m₁ h₂ m h₁
    obtain ⟨rfl, rfl⟩ := Outcome.ok.inj h₁
    obtain ⟨-, rfl⟩ := Outcome.ok.inj h₂
    obtain ⟨hinit, rfl⟩ := Outcome.ok.inj h₃
    obtain ⟨harity, rfl⟩ := checkArity_eq h₄
    obtain ⟨rfl, rfl⟩ := Outcome.ok.inj h₅
    exact h names m _ _ s p (.initializer hinit harity rfl) hin

theorem callWith (h : ∀ names m c m₁ s p, Invokes args m callee c m₁ →
      InStmts names n c.decl.body (m₁.invoking c args) s p → T names m (.execute s) p) :
    Tracks T n (Eval.callWith (Eval.execute n) callee args span) := by
  cases callee with
  | function f =>
    refine .bind (.query _) fun found => ?_
    cases found with
    | none => exact .raise rfl
    | some c =>
      refine .bind (.checkArity _ _ _ _) fun _ => ih.invoke fun names m₂ s p hin m₁ h₂ m h₁ => ?_
      obtain ⟨hfound, rfl⟩ := Outcome.ok.inj h₁
      obtain ⟨harity, rfl⟩ := checkArity_eq h₂
      exact h names _ c _ s p (.function hfound harity) hin
  | class_ k => exact ih.instantiate h
  | _ => exact .raise rfl

end TracksWith

/-! ## Tasks -/

/-- A visit may start one task earlier. -/
theorem Visits.head (henters : Enters names n t m t₁ m₁) (h : Visits names n t₁ m₁ k t₂ m₂) :
    Visits names (n + 1) t m k t₂ m₂ := by
  induction h with
  | refl => exact .enter .refl henters
  | enter _ hlast ih => exact .enter ih hlast

/-- What is refused inside a task is refused in the task around it. -/
theorem Refused.head (h : Refused names n t₁ m₁ e o) (henters : Enters names n t m t₁ m₁)
    (hfreed : Enters names n t m.freed t₁ m₁.freed) : Refused names (n + 1) t m e o := by
  cases h with
  | print hvisits hvisits' hv hv' hwrite =>
    exact .print (hvisits.head henters) (hvisits'.head hfreed) hv hv' hwrite

/-- A computation that does a task is tracked if the tasks are to which it comes. -/
theorem Tracks.task {act : Eval α} (h : Tracks (fun names m t' p => Enters names n t m t' p) n act)
    (hT : ∀ names m, T names m t m) : Tracks T (n + 1) act where
  adds := h.adds
  tracked names m := by
    have htracked := h.tracked names m
    generalize act names m = o at htracked
    generalize act names m.freed = o' at htracked
    cases htracked with
    | ok => exact .ok
    | fault he => exact .fault he
    | refused ht ht' hr hmore =>
      exact .refused (hT names m) (hT names m.freed) (hr.head ht ht') hmore
    | exhausted => exact .exhausted

theorem isOutput_unary {op : UnaryOp} (h : op.apply v span = .error e) : e.isOutput = false := by
  unfold UnaryOp.apply at h
  split at h <;> cases h <;> rfl

theorem isOutput_binary {op : BinaryOp} (h : op.apply v w span = .error e) :
    e.isOutput = false := by
  have hnumeric : ∀ {f}, BinaryOp.numeric op f v w span = .error e → e.isOutput = false := by
    intro f h
    unfold BinaryOp.numeric at h
    split at h <;> cases h
    rfl
  cases op with
  | add | sub | mul | div | lt | gt | lte | gte => exact hnumeric h
  | eq | neq | and | or => cases h
  | append =>
    simp only [BinaryOp.apply] at h
    split at h <;> cases h
    rfl

namespace TracksWith

variable (ih : TracksWith n)
include ih

/-- Each part of an expression is entered as one task. -/
theorem evaluate_succ (h : ∀ names m, T names m (.evaluate e) m) :
    Tracks T (n + 1) (Eval.evaluate (n + 1) e) := by
  refine .task ?_ h
  have hfirst : ∀ {d}, e.first? = some d →
      Tracks (fun names m t p => Enters names n (.evaluate e) m t p) n (Eval.evaluate n d) :=
    fun hd => ih.evaluate fun names m => .first hd
  cases e with
  | literal l span => exact .leaf fun _ _ => .ok rfl
  | grouping e span => exact hfirst rfl
  | unary op e span =>
    exact .bind (hfirst rfl) fun v => .ofExcept fun err herr => isOutput_unary herr
  | binary l op r span =>
    refine .bind (hfirst rfl) fun v => ?_
    cases hdecided : op.decided? v with
    | some w => exact .pure
    | none =>
      refine .bind (ih.evaluate fun names m₁ m hm => .right hm hdecided) fun w => ?_
      exact .ofExcept fun err herr => isOutput_binary herr
  | var x => exact .lookup x
  | assign x e => exact .bind (hfirst rfl) fun v => .assign x v
  | call g args span =>
    refine .bind (hfirst rfl) fun v =>
      .bind (ih.evaluateAll fun names m₁ d p hin m hm => .arg hm hin) fun vs => ?_
    exact ih.call fun names m₂ m₁ hvs m hv => .call hv hvs
  | get e x => exact .bind (hfirst rfl) fun v => .property v x
  | set e x d =>
    refine .bind (hfirst rfl) fun v => ?_
    cases v with
    | object o => exact .bind (ih.evaluate fun names m₁ m hm => .value hm) fun w => .update _
    | _ => exact .raise rfl
  | this span => exact .lookup _
  | super x span => exact .superMethod x span
  | letIn x d e span =>
    refine .bind (hfirst rfl) fun v => .nested (ih.evaluate fun names m' m₁ hm' m hm => ?_)
    subst hm'
    exact .inLet hm
  | seq es span =>
    refine .nested (ih.evaluateLast fun names m' d p hin m hm' => ?_)
    subst hm'
    exact .inSeq hin
  | cond c yes no span =>
    refine .bind (hfirst rfl) fun v => ?_
    split
    · next htrue => exact ih.evaluate fun names m₁ m hm => .yes hm htrue
    · next hfalse => exact ih.evaluate fun names m₁ m hm => .no hm (Bool.eq_false_iff.mpr hfalse)
  | tuple es span => exact .bind (ih.evaluateAll fun names m d p hin => .inTuple hin) fun _ => .pure
  | vector es span =>
    exact .bind (ih.evaluateAll fun names m d p hin => .inVector hin) fun _ => .pure
  | case e arms span =>
    exact .bind (hfirst rfl) fun v => ih.firstArm fun names m₁ d p hin m hm => .inCase hm hin

/-- The one place where a text is refused. -/
theorem print (h : ∀ names m, T names m (.execute (.print e span)) m) :
    Tracks T (n + 1) (Eval.execute (n + 1) (.print e span)) := by
  have hvalue : Tracks T (n + 1) (Eval.evaluate n e) :=
    .task (t := .execute (.print e span)) (ih.evaluate fun names m => .ofStmt rfl) h
  have hadds : ∀ v, Adds (Eval.print v span >>= fun _ => (Pure.pure .normal : Eval Flow)) :=
    fun v => (Adds.print v span).bind fun _ => (Tracks.pure (T := T) (n := n)).adds
  refine hvalue.andThen hadds fun names m v q hq hq' => ?_
  have hfree : q.freed.output.writeAll (q.freed.store.pieces v ++ ["\n"]) =
    q.output.freed.writeAll (q.store.pieces v ++ ["\n"]) := rfl
  simp only [Eval.print, Bind.bind, hfree]
  generalize hwrite : q.output.writeAll (q.store.pieces v ++ ["\n"]) = written
  obtain ⟨taken, o⟩ := written
  cases taken with
  | true =>
    rw [(Output.writeAll_taken hwrite).1]
    exact .ok
  | false =>
    obtain ⟨⟨all, hall, hpart⟩, -⟩ := Output.writeAll_refused hwrite
    rw [hall]
    refine .refused (h names m) (h names m.freed) (.print .refl .refl hq hq' hwrite)
      fun m' hm' => ?_
    cases hm'
    exact hpart

/-- The statement `print` is the only one that writes. -/
theorem execute_succ (h : ∀ names m, T names m (.execute s) m) :
    Tracks T (n + 1) (Eval.execute (n + 1) s) := by
  have hfirst : ∀ {d}, s.first? = some d →
      Tracks (fun names m t p => Enters names n (.execute s) m t p) n (Eval.evaluate n d) :=
    fun hd => ih.evaluate fun names m => .ofStmt hd
  cases s with
  | print e span => exact ih.print h
  | expr e => exact .task (.bind (hfirst rfl) fun _ => .pure) h
  | varDecl x e =>
    refine .task (.bind (ih.optional fun d hd names m => ?_) fun v =>
        .bind (.define _ _) fun _ => .pure) h
    exact .ofStmt (s := .varDecl x e) hd
  | block ss span =>
    refine .task (.nested (ih.executeAll fun names m' s p hin m hm' => ?_)) h
    subst hm'
    exact .inBlock hin
  | fnDecl decl =>
    exact .task (.bind (.bind (.functionHere decl) fun _ => .define _ _) fun _ => .pure) h
  | classDecl x sup methods =>
    exact .task (.bind (.bind (.newClass x sup methods) fun _ => .define _ _) fun _ => .pure) h
  | ret e span =>
    refine .task (.bind (ih.optional fun d hd names m => ?_) fun v => .pure) h
    exact .ofStmt (s := .ret e span) hd
  | whileLoop c body span =>
    refine .task (.repeatWhile ?_ ?_ .pure n) h
    · exact ih.holds fun names m₁ m hin => .whileTest hin
    · exact ih.execute fun names m₁ m hin => .whileBody hin
  | forever ss span =>
    refine .task (.repeatWhile .pure
        (.nested (ih.executeAll fun names m' s p hin m₁ hm' m hloop => ?_)) .pure n) h
    subst hm'
    exact .forever hloop hin
  | forLoop init c inc body span =>
    refine .task (.nested
        (.bind (ih.prepare fun s hs names m' m hm' => ?_) fun _ => .repeatWhile ?_ ?_ ?_ n)) h
    · subst hs
      subst hm'
      exact .forInit
    · refine ih.holdsIfGiven fun d hd names m₂ m₁ hin m' hprepare m hm' => ?_
      subst hd
      subst hm'
      exact .forTest hprepare hin
    · refine ih.execute fun names m₂ m₁ hin m' hprepare m hm' => ?_
      subst hm'
      exact .forBody hprepare hin
    · refine ih.effect fun d hd names m₂ m₁ hin m' hprepare m hm' => ?_
      subst hd
      subst hm'
      exact .forStep hprepare hin

end TracksWith

/-- Every task of a program is tracked. -/
theorem tracksWith (n : Nat) : TracksWith n := by
  induction n with
  | zero => exact ⟨fun _ => .exhausted, fun _ => .exhausted, fun _ => .exhausted⟩
  | succ n ih =>
    refine ⟨ih.evaluate_succ, ih.execute_succ, fun h => .task ?_ h⟩
    exact ih.callWith fun names m c m₁ s p hinvokes hin => .inBody hinvokes hin

end Eval

end TreeWalk
