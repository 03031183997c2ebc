import TreeWalk.Proofs.Eval.StoredCode

/-!
# Chains of frames and of classes

Looking outwards goes from a frame to the frame around it and from a class to its superclass, up to
where something is found. `Climbs` and `Walk` follow such links without asking whether they lead to
something older. Where all of them do, each walk ends, and it ends with what the store answers
(`Store.Older.climbs`, `Store.Older.walk_lookup?`, and so on).
-/

namespace TreeWalk

/-- Going on from `a` as long as there is a next place passes through the path and then ends. -/
inductive Climbs (next : Nat → Option Nat) : Nat → List Nat → Prop
  | top : next a = none → Climbs next a [a]
  | up : next a = some b → Climbs next b path → Climbs next a (a :: path)

/-- Going on from `a` up to the first place where something is found ends, with what was found or
with nothing. -/
inductive Walk (next : Nat → Option Nat) (found : Nat → Option α) : Nat → Option α → Prop
  | here : found a = some x → Walk next found a (some x)
  | out : found a = none → next a = none → Walk next found a none
  | on : found a = none → next a = some b → Walk next found b r → Walk next found a r

/-- Following the links up to the first find is searching the whole chain in order. -/
theorem Climbs.walk (h : Climbs next a path) (found : Nat → Option α) :
    Walk next found a (path.findSome? found) := by
  induction h with
  | @top a hnext =>
    rw [List.findSome?_cons]
    cases hfound : found a with
    | none => exact .out hfound hnext
    | some x => exact .here hfound
  | @up a b path hnext _ ih =>
    rw [List.findSome?_cons]
    cases hfound : found a with
    | none => exact .on hfound hnext ih
    | some x => exact .here hfound

namespace Store

variable {S : Store}

/-- The frame around a frame was made before it, and the superclass of a class before the class. -/
structure Older (S : Store) : Prop where
  parent : ∀ f g, S.parentOf? f = some g → g < f
  superclass : ∀ k l, S.superclass? k = some l → l < k

/-- Looking up a variable is one search along the chain, although the store finds the frame first
and reads the value then. -/
theorem lookup?_eq_findSome? (S : Store) (f : FrameId) (x : Symbol) :
    S.lookup? f x = (S.chain f).findSome? fun g => (S.bindingsOf g).get? x := by
  unfold lookup? owner?
  induction S.chain f with
  | nil => rfl
  | cons g gs ih =>
    rw [List.find?_cons, List.findSome?_cons]
    cases hx : (S.bindingsOf g).get? x with
    | none =>
      have hcontains : (S.bindingsOf g).contains x = false := by rw [Bindings.contains, hx]; rfl
      rw [hcontains]
      exact ih
    | some v =>
      have hcontains : (S.bindingsOf g).contains x = true := by rw [Bindings.contains, hx]; rfl
      rw [hcontains]
      exact hx

theorem assign?_eq_findSome? (S : Store) (f : FrameId) (x : Symbol) (v : Value) :
    S.assign? f x v =
      (S.chain f).findSome? fun g =>
        if (S.bindingsOf g).contains x then some (S.define g x v) else none := by
  unfold assign? owner?
  induction S.chain f with
  | nil => rfl
  | cons g gs ih =>
    rw [List.find?_cons, List.findSome?_cons]
    cases hx : (S.bindingsOf g).contains x with
    | false => simpa only [Bool.false_eq_true, if_false] using ih
    | true => rfl

namespace Older

variable (h : S.Older)
include h

/-- Where parents are older the chain goes up to the outermost frame, by strong induction on the
frame. -/
theorem climbs (f : FrameId) : Climbs S.parentOf? f (S.chain f) := by
  induction f using Nat.strongRecOn with
  | ind f ih =>
    rw [chain]
    cases hp : S.parentOf? f with
    | none => exact .top hp
    | some g =>
      have hlt := h.parent f g hp
      dsimp only
      rw [if_pos hlt]
      exact .up hp (ih g hlt)

theorem climbs_classes (k : ClassId) : Climbs S.superclass? k (S.classChain k) := by
  induction k using Nat.strongRecOn with
  | ind k ih =>
    cases hl : S.superclass? k with
    | none =>
      have hnone := hl
      rw [superclass?] at hnone
      rw [classChain, hnone]
      exact .top hl
    | some l =>
      have hlt := h.superclass k l hl
      rw [classChain_of_superclass hl hlt]
      exact .up hl (ih l hlt)

/-- A variable has the value of the nearest frame that binds it. -/
theorem walk_lookup? (f : FrameId) (x : Symbol) :
    Walk S.parentOf? (fun g => (S.bindingsOf g).get? x) f (S.lookup? f x) := by
  rw [lookup?_eq_findSome?]
  exact (h.climbs f).walk _

theorem walk_assign? (f : FrameId) (x : Symbol) (v : Value) :
    Walk S.parentOf?
      (fun g => if (S.bindingsOf g).contains x then some (S.define g x v) else none) f
      (S.assign? f x v) := by
  rw [assign?_eq_findSome?]
  exact (h.climbs f).walk _

/-- A method is that of the nearest class that has it. -/
theorem walk_findMethod? (k : ClassId) (x : Symbol) :
    Walk S.superclass? (fun d => S.classes[d]?.bind fun info => info.methods.get? x) k
      (S.findMethod? k x) :=
  (h.climbs_classes k).walk _

end Older

end Store

end TreeWalk
