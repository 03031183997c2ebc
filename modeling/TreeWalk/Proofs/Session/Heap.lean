import TreeWalk.Proofs.Eval.Chains
import TreeWalk.Proofs.Parser.Shape
import TreeWalk.Proofs.Session.ParsedCode
import TreeWalk.Proofs.Session.RightClass

/-!
# The heap of a session

In a session whose code was all read from texts, values and places may refer to each other in
circles, but the chains that are followed when a name or a method is looked up never do: they lead
to what is older. Nothing refers to a place that is not there. This holds between the steps of the
session, at every moment inside them, and where a task ends, also with an error.
-/

namespace TreeWalk

/-- The statement that a `while` or a `for` repeats. -/
def Stmt.repeated? : Stmt → Option Stmt
  | .whileLoop _ body _ | .forLoop _ _ _ body _ => some body
  | _ => none

/-- No `while` and no `for` in the function, at any depth, repeats a declaration. -/
def FunctionDecl.RepeatsNoDecl (decl : FunctionDecl) : Prop :=
  ∀ s ∈ decl.body, s.Everywhere fun t => ∀ body, t.repeated? = some body → body.declared? = none

/-- The store is closed, its chains lead to what is older, and its values and functions are as
programs make them. -/
structure Store.Intact (S : Store) : Prop where
  older : S.Older
  closed : ∀ p q, S.Refers p q → S.Has q
  wide : ∀ v, S.Stores v → v.Wide 2
  code : ∀ decl, S.HasCode decl → decl.RepeatsNoDecl

/-- Following the links of frames and of classes as far as they go always ends, and with what the
store answers. -/
structure Store.Searchable (S : Store) : Prop where
  get : ∀ f x, Walk S.parentOf? (fun g => (S.bindingsOf g).get? x) f (S.lookup? f x)
  assign : ∀ f x v, Walk S.parentOf?
    (fun g => if (S.bindingsOf g).contains x then some (S.define g x v) else none) f
    (S.assign? f x v)
  depth : ∀ f, ∃ path, Climbs S.parentOf? f path ∧ S.depth f = path.length
  findMethod : ∀ k x,
    Walk S.superclass? (fun d => S.classes[d]?.bind fun info => info.methods.get? x) k
    (S.findMethod? k x)

/-- The store is intact and can be searched, and the current frame is in it. -/
structure Machine.Intact (m : Machine) : Prop where
  store : m.store.Intact
  searchable : m.store.Searchable
  current : m.store.Has (.frame m.current)

/-- The value that a task ends with, if it has one. -/
def Eval.valueOf? (names : Interner) (k : Nat) : Task → Machine → Option Value
  | .evaluate e, m => (evaluate k e names m).value?
  | .execute s, m => (execute k s names m).value?.bind Flow.value?
  | .call callee args span, m => (call k callee args span names m).value?

/-- When the task is done in this state, the heap is intact and stays so. -/
structure Machine.Safe (names : Interner) (k : Nat) (t : Task) (m : Machine) : Prop where
  intact : m.Intact
  values : ∀ v ∈ t.values, v.Sound m.store
  completes : ∀ m', Eval.Completes names k t m m' → m'.Intact ∧
    (∀ p, m.store.Has p → m'.store.Has p) ∧ ∀ v, Eval.valueOf? names k t m = some v →
    v.Sound m'.store

/-! ## Parsed code -/

/-- What one piece of parsed code is like. -/
def Code.Shaped : Code → Prop
  | .expr e => e.Shaped
  | .stmt s => s.Shaped

/-- Parsed code has only tuples of two elements or more. -/
def CodeForm.shaped : CodeForm where
  Allows := Code.Shaped
  width := 2
  tuple h := h

theorem readSource_shaped (h : s ∈ (readSource names source).program.statements) :
    (Code.stmt s).Everywhere Code.Shaped := by
  refine Code.everywhere_stmt fun t ht => ?_
  have hproper : t.Proper := Stmt.Proper.of_parse ⟨s, h, ht⟩
  exact ⟨hproper.1, fun e he d hd => (hproper.2 e he d hd).1⟩

theorem readExpression_shaped (h : (readExpression names source).expr? = some e) :
    (Code.expr e).Everywhere Code.Shaped := by
  have hyields : Parser.completeExpression.Yields (·.Everywhere Expr.Proper) := by
    refine .bind .expression fun e he => .skip fun b => ?_
    cases b with
    | true => exact .pure he
    | false => exact .fail
  unfold ExprRead.expr? at h
  split at h
  · next e' t hrun =>
    split at h
    · cases h
      exact Code.everywhere_expr fun d hd => (hyields _ _ e t hrun d hd).1
    · cases h
  · cases h

theorem CodeForm.coversTexts_shaped : CodeForm.shaped.CoversTexts :=
  ⟨readSource_shaped, readExpression_shaped, Nat.le_refl 2⟩

theorem CodeForm.Covers.repeatsNoDecl {decl : FunctionDecl} (h : shaped.Covers decl) :
    decl.RepeatsNoDecl := by
  intro s hs t ht body hbody
  have hpath : Relation.ReflTransGen (fun a b => b ∈ a.parts) (Code.stmt s) (Code.stmt t) :=
    ht.lift Code.stmt fun a b hb => List.mem_append_right _ (List.mem_map_of_mem hb)
  have hshaped : t.Shaped := h s hs _ hpath
  cases t with
  | whileLoop c b span => cases hbody; exact hshaped
  | forLoop init c inc b span => cases hbody; exact hshaped.2
  | _ => cases hbody

/-! ## Sound stores are intact -/

namespace Regime

variable {R : Regime} {names : Interner} {m m' : Machine} {V : Store → α → Prop} {o : Outcome α}

theorem Ends.value (h : R.Ends names m V o) (hm : o.machine? = some m') (ha : o.value? = some a) :
    V m'.store a := by
  cases o with
  | ok b m'' => cases hm; cases ha; exact h.2
  | fault e m'' => cases ha
  | exhausted => cases ha

/-- The value that a task ends with is one that the program may hold. -/
theorem holds_valueOf (h : Eval.Completes names k t m m') (hgood : R.Good m.store)
    (hfit : R.Fit t m) (hv : Eval.valueOf? names k t m = some v) : R.Holds m'.store v := by
  cases t with
  | evaluate e => exact (R.evaluate k hfit.1 hfit.2 names m rfl R.grows_refl hgood).value h hv
  | execute s =>
    obtain ⟨flow, hflow, hv⟩ := Option.bind_eq_some_iff.mp hv
    have hholds := (R.execute k hfit names m rfl R.grows_refl hgood).value h hflow
    cases flow with
    | normal => cases hv
    | returned w span => cases hv; exact hholds.1
  | call callee args span =>
    exact (R.call k m.current hfit.1 hfit.2.1 hfit.2.2 names m rfl R.grows_refl hgood).value h hv

/-- A call is made in the frame in which the expression stands. -/
theorem scope_enters (h : Eval.Enters names n t m t' m') (hgood : R.Good m.store) (hfit : R.Fit t m)
    (hscope : R.Scope m.store m.current) : R.Scope m'.store m'.current := by
  have hfit' := (leads_enters h hgood hfit).fit
  cases t' with
  | evaluate e => exact hfit'.1
  | execute s => exact hfit'.scope
  | call callee args span =>
    cases h with
    | @call e _ v m₁ es _ _ _ he hall =>
      have hparts : R.RunsAll m.store m.current (e :: es) :=
        ⟨hfit.1, fun d hd => runs_part hfit.2 hd⟩
      have hcallee :=
        ((R.evaluate n hfit.1 (hparts.2 e List.mem_cons_self)).reaches (.refl hgood) he).1
      have hargs := (hparts.follows hcallee).subset (List.subset_cons_self e es)
      have hall := ((Sound.evaluateAll (R.evaluate n) hargs).reaches (.refl hcallee.good) hall).1
      have hfollows := hcallee.trans hall
      rw [hfollows.current]
      exact R.scope_mono hfollows.grows hscope

theorem scope_visits (h : Eval.Visits names n t m k t' m') (hgood : R.Good m.store)
    (hfit : R.Fit t m) (hscope : R.Scope m.store m.current) : R.Scope m'.store m'.current := by
  induction h with
  | refl => exact hscope
  | enter hvisits henters ih =>
    have hleads := Leads.visits hvisits hgood hfit
    exact scope_enters henters hleads.good hleads.fit ih

end Regime

theorem Store.Older.searchable {S : Store} (h : S.Older) : S.Searchable where
  get := h.walk_lookup?
  assign := h.walk_assign?
  depth f := ⟨S.chain f, h.climbs f, rfl⟩
  findMethod := h.walk_findMethod?

theorem Machine.Intact.of_sound {rule : CodeRule} {m : Machine} (hsound : m.store.Sound rule)
    (hwritten : m.store.Written .shaped) (hcurrent : m.store.Has (.frame m.current)) :
    m.Intact := by
  have holder : m.store.Older := by
    refine ⟨fun f g hg => ?_, hsound.knit.superclass_lt⟩
    obtain ⟨frame, hframe, hparent⟩ := Option.bind_eq_some_iff.mp hg
    exact hsound.knit.older f frame hframe g hparent
  refine ⟨⟨holder, fun p q hpq => ?_, hwritten.values, fun decl hdecl => ?_⟩,
    holder.searchable, hcurrent⟩
  · exact Store.known_closed.mp (hsound.closed.known p q (Store.known_closed.mpr hpq.has) hpq)
  · exact (hwritten.code decl hdecl).repeatsNoDecl

/-- A task that may be done in a sound store, with code of the form, leaves the heap intact. -/
theorem Machine.Safe.of_fit {names : Interner} {t : Task} {m : Machine} {rule : CodeRule}
    (hsound : m.store.Sound rule) (hwritten : m.store.Written .shaped)
    (hcurrent : m.store.Has (.frame m.current)) (hfit : (Regime.knit rule).Fit t m)
    (hform : (Regime.written .shaped).Fit t m) : m.Safe names k t := by
  refine ⟨.of_sound hsound hwritten hcurrent, fun v hv => ?_, fun m' hm' => ?_⟩
  · cases t with
    | call callee args span =>
      rcases List.mem_cons.mp hv with rfl | hv
      · exact ⟨Store.holds_closed.mp hfit.1, hform.1⟩
      · exact ⟨Store.holds_closed.mp (hfit.2.1 v hv), hform.2.1 v hv⟩
    | evaluate e => cases hv
    | execute s => cases hv
  · have hfollows := Regime.follows_completes hm' hsound hfit
    have hkept : ∀ p, m.store.Has p → m'.store.Has p := fun p hp => hfollows.grows.closed.has p hp
    have hwritten' := (Regime.follows_completes hm' hwritten hform).good
    refine ⟨.of_sound hfollows.good hwritten' ?_, hkept, fun v hv => ?_⟩
    · rw [hfollows.current]
      exact hkept _ hcurrent
    · exact ⟨Store.holds_closed.mp (Regime.holds_valueOf hm' hsound hfit hv),
        Regime.holds_valueOf hm' hwritten hform hv⟩

/-- **The heap stays well founded and closed.** After any steps of a session of parsed code the heap
is intact, and so it is at every moment inside a further step and where the task of that moment
ends, with a value or an error. What is there stays there. -/
theorem heap_stays_well_founded {output : Output} {s : Session}
    (h : Relation.ReflTransGen Session.ParsedStep (.opened output) s) :
    s.machine.Intact ∧
      ∀ n names t₀ m₀, s.Starts (fun _ => True) n names t₀ m₀ → (∀ v ∈ t₀.values, v.Wide 2) →
        ∀ k t m, Eval.Visits names n t₀ m₀ k t m →
          (∀ p, s.machine.store.Has p → m.store.Has p) ∧ m.Safe names k t := by
  obtain ⟨htexts, hwritten⟩ := Session.ofTexts_of_parsedSteps CodeForm.coversTexts_shaped h
  have hpermits : Session.Permits (fun _ => True) False := fun hfalse => hfalse.elim
  have hsound := htexts.sound hpermits
  refine ⟨.of_sound hsound.store hwritten hsound.isOpen.lexical.lt,
    fun n names t₀ m₀ hstarts hwide k t m hvisits => ?_⟩
  have hleads := Session.Moment.leads hpermits hsound ⟨n, t₀, m₀, hstarts, hvisits⟩
  have hform := Session.written_visits CodeForm.coversTexts_shaped hwritten hstarts hwide hvisits
  have hstart := Session.Moment.leads hpermits hsound ⟨n, t₀, m₀, hstarts, .refl⟩
  have hscope : m₀.store.Lexical m₀.current := by
    cases hstarts with
    | run | interpret | execute => exact hstart.fit.scope
    | evaluate => exact hstart.fit.1
    | call => exact hsound.isOpen.lexical
  have hcurrent := (Regime.scope_visits hvisits hstart.good hstart.fit hscope).lt
  exact ⟨fun p hp => hleads.grows.closed.has p hp,
    .of_fit hleads.good hform.good hcurrent hleads.fit hform.fit⟩

/-- A class that is declared again below itself, and two of its objects that hold each other. -/
theorem redeclared_class_has_older_superclass :
    let source := "class A \x7b \x7d " ++
      "class A < A \x7b init() \x7b this.f = (this, [A]); while (false) nil; \x7d \x7d " ++
      "var a = A(); var b = A(); a.f = b; b.f = a;"
    ∃ s x, (Session.opened {}).run 30 source = some s ∧
      s.machine.store.className 0 = s.machine.store.className 1 ∧
      s.machine.store.superclass? 1 = some 0 ∧ s.machine.store.field? 0 x = some (.object 1) ∧
      s.machine.store.field? 1 x = some (.object 0) ∧ s.machine.Intact ∧
      s.machine.Safe s.names 9 (.call (.class_ 1) [] default) := by
  intro source
  have hall : ((Session.opened {}).run 30 source).any (fun s => (s.names.get? "f").any fun x =>
      s.machine.store.className 0 == s.machine.store.className 1 &&
        s.machine.store.superclass? 1 == some 0 &&
      (s.machine.store.field? 0 x).any (·.equal (.object 1)) &&
        (s.machine.store.field? 1 x).any (·.equal (.object 0)) &&
      s.machine.store.classes.size == 2) = true := by
    decide +kernel
  obtain ⟨s, hs, hall⟩ := (Option.any_eq_true _ _).mp hall
  obtain ⟨x, hx, hall⟩ := (Option.any_eq_true _ _).mp hall
  simp only [Bool.and_eq_true, beq_iff_eq] at hall
  obtain ⟨⟨⟨⟨hname, hsuper⟩, hfirst⟩, hsecond⟩, hsize⟩ := hall
  obtain ⟨v, hv, hequal⟩ := (Option.any_eq_true _ _).mp hfirst
  obtain ⟨w, hw, hequal'⟩ := (Option.any_eq_true _ _).mp hsecond
  cases Value.same_of_equal hequal
  cases Value.same_of_equal hequal'
  have hcallee : (Value.class_ 1).In s.machine.store := by
    intro p hp
    cases hp
    exact show 1 < s.machine.store.classes.size by omega
  have hstarts : s.Starts (fun _ => True) 9 s.names (.call (.class_ 1) [] default) s.machine :=
    .call hcallee fun v hv => absurd hv List.not_mem_nil
  have hwide : ∀ v ∈ (Task.call (.class_ 1) [] default).values, v.Wide 2 := by
    intro v hv
    rw [List.mem_singleton.mp hv]
    exact Value.wide_class
  obtain ⟨hintact, hmoments⟩ := heap_stays_well_founded (.single (.run hs))
  exact ⟨s, x, hs, hname, hsuper, hv, hw, hintact, (hmoments _ _ _ _ hstarts hwide _ _ _ .refl).2⟩

end TreeWalk
