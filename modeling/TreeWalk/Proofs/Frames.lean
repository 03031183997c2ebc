import TreeWalk.Proofs.Eval.Chains

/-!
# Reading and writing names

Frames are shared: a name that is written in one frame is seen from all frames inside it, except
where another frame on the way binds the name too. `Store.Sees x g f` says that nothing is in the
way. What is read after a definition is told by it (`lookup?_define`), and an assignment is the
definition in the frame that owns the name, so that its law follows.
-/

namespace TreeWalk.Store

/-! ## Stores of frames -/

/-- The stores that can be made with the operations on frames. -/
inductive Built : Store → Prop
  | empty : Built {}
  | root : Built S → Built (S.addFrame {}).2
  | extend (pairs : List (Symbol × Value)) :
      Built S → f < S.frames.size → Built (S.extend f pairs).2
  | define (x : Symbol) (v : Value) : Built S → f < S.frames.size → Built (S.define f x v)
  | assign : Built S → S.assign? f x v = some T → Built T

/-- On the way outwards from `g` there is `f`, and no frame before it binds the name. -/
inductive Sees (S : Store) (x : Symbol) : FrameId → FrameId → Prop
  | here : Sees S x f f
  | outwards : (S.bindingsOf g).contains x = false → S.parentOf? g = some p →
      Sees S x p f → Sees S x g f

/-- The nearest frame from `g` outwards that binds the name is `f`. -/
def Owns (S : Store) (x : Symbol) (g f : FrameId) : Prop :=
  S.Sees x g f ∧ (S.bindingsOf f).contains x = true

/-- The store after an assignment. If nothing owns the name, it is what it was. -/
def assigned (S : Store) (f : FrameId) (x : Symbol) (v : Value) : Store :=
  (S.assign? f x v).getD S

/-- What holds between reading and writing names, from all frames. -/
structure FrameLaws (S : Store) : Prop where
  owner?_eq_some_iff : ∀ g x f, S.owner? g x = some f ↔ S.Owns x g f
  lookup?_eq_some_iff : ∀ g x v, S.lookup? g x = some v ↔ ∃ f, S.Owns x g f ∧
    (S.bindingsOf f).get? x = some v
  assigns_iff : ∀ f x v, (S.assign? f x v).isSome = true ↔ ∃ g, S.Owns x f g
  lookup?_assigned : ∀ f x v g y, (S.assigned f x v).lookup? g y =
    if y = x ∧ (S.owner? f x).isSome = true ∧
      S.owner? g x = S.owner? f x then some v else S.lookup? g y
  assigned_of_none : ∀ f x v, S.assign? f x v = none → S.assigned f x v = S
  contains_assigned : ∀ f x v g y, ((S.assigned f x v).bindingsOf g).contains y =
    (S.bindingsOf g).contains y
  lookup?_define_self : ∀ f < S.frames.size, ∀ x v g, S.Sees x g f →
    (S.define f x v).lookup? g x = some v
  lookup?_define_other : ∀ f < S.frames.size, ∀ x v g y, (y = x → ¬ S.Sees x g f) →
    (S.define f x v).lookup? g y = S.lookup? g y
  depth_extend : ∀ f < S.frames.size, ∀ pairs,
    (S.extend f pairs).2.depth (S.extend f pairs).1 = S.depth f + 1
  depth_define : ∀ f x v g, (S.define f x v).depth g = S.depth g
  depth_assigned : ∀ f x v g, (S.assigned f x v).depth g = S.depth g

variable {S T : Store} {f g p : FrameId} {x y : Symbol} {v : Value}

theorem contains_eq_false_iff :
    (S.bindingsOf f).contains x = false ↔ (S.bindingsOf f).get? x = none := by
  rw [Bindings.contains, Option.isSome_eq_false_iff, Option.isNone_iff_eq_none]

theorem lt_size_of_contains (h : (S.bindingsOf f).contains x = true) : f < S.frames.size := by
  refine Decidable.byContradiction fun hnot => ?_
  have hnone : S.bindingsOf f = .empty := by simp [bindingsOf, hnot]
  rw [hnone] at h
  cases h

theorem get?_define (hf : f < S.frames.size) : ((S.define f x v).bindingsOf g).get? y =
    if g = f ∧ y = x then some v else (S.bindingsOf g).get? y := by
  by_cases hfg : f = g
  · subst hfg
    simp [bindingsOf_define_self S hf]
  · rw [bindingsOf_define_of_ne S hfg, if_neg fun h => hfg h.1.symm]

/-! ## Following links -/

theorem Built.classes (h : S.Built) : S.classes = #[] := by
  induction h with
  | empty => rfl
  | root _ ih | extend _ _ _ ih | define _ _ _ _ ih => exact ih
  | assign _ hassign ih =>
    obtain ⟨g, -, rfl⟩ := Option.map_eq_some_iff.mp hassign
    exact ih

theorem parentOf?_addFrame (S : Store) (frame : Frame) (f : FrameId) :
    (S.addFrame frame).2.parentOf? f =
    if f = S.frames.size then frame.parent else S.parentOf? f := by
  simp only [parentOf?, addFrame, Array.getElem?_push]
  split <;> rfl

theorem Built.parent_lt (h : S.Built) (hp : S.parentOf? f = some p) : p < f := by
  induction h generalizing f p with
  | empty => cases hp
  | root _ ih =>
    rw [parentOf?_addFrame] at hp
    split at hp
    · cases hp
    · exact ih hp
  | extend _ _ hf ih =>
    rw [Store.extend, parentOf?_addFrame] at hp
    split at hp
    · next hnew => cases hp; exact hnew ▸ hf
    · exact ih hp
  | define _ _ _ _ ih => exact ih (by simpa using hp)
  | assign _ hassign ih =>
    obtain ⟨g, -, rfl⟩ := Option.map_eq_some_iff.mp hassign
    exact ih (by simpa using hp)

theorem Built.older (h : S.Built) : S.Older where
  parent _ _ hp := h.parent_lt hp
  superclass k l hl := by simp [superclass?, h.classes] at hl

/-- The chain of a frame is told by the links alone. -/
theorem chain_congr (h : ∀ f, T.parentOf? f = S.parentOf? f) (f : FrameId) :
    T.chain f = S.chain f := by
  induction f using Nat.strongRecOn with
  | ind f ih =>
    rw [chain, chain, h]
    cases S.parentOf? f with
    | none => rfl
    | some p =>
      dsimp only
      split
      · next hlt => rw [ih p hlt]
      · rfl

namespace Older

variable (h : S.Older)
include h

theorem define (f : FrameId) (x : Symbol) (v : Value) : (S.define f x v).Older :=
  ⟨fun g p hp => h.parent g p (by simpa using hp), h.superclass⟩

theorem chain_eq (g : FrameId) : S.chain g = g :: (S.parentOf? g).elim [] S.chain := by
  rw [chain]
  cases hp : S.parentOf? g with
  | none => rfl
  | some p => exact if_pos (h.parent g p hp)

theorem owner?_eq (g : FrameId) (x : Symbol) : S.owner? g x =
    if (S.bindingsOf g).contains x = true then some g else (S.parentOf? g).bind fun p =>
      S.owner? p x := by
  rw [owner?, h.chain_eq, List.find?_cons]
  cases (S.bindingsOf g).contains x with
  | true => rfl
  | false => cases S.parentOf? g <;> rfl

theorem lookup?_eq (g : FrameId) (x : Symbol) : S.lookup? g x =
    ((S.bindingsOf g).get? x).or ((S.parentOf? g).bind fun p => S.lookup? p x) := by
  rw [lookup?_eq_findSome?, h.chain_eq, List.findSome?_cons]
  cases (S.bindingsOf g).get? x with
  | some v => rfl
  | none => cases S.parentOf? g <;> simp [lookup?_eq_findSome?]

theorem owner?_eq_some_iff (g : FrameId) (x : Symbol) (f : FrameId) :
    S.owner? g x = some f ↔ S.Owns x g f := by
  induction g using Nat.strongRecOn with
  | ind g ih =>
    rw [h.owner?_eq]
    cases hx : (S.bindingsOf g).contains x with
    | true =>
      rw [if_pos rfl]
      constructor
      · rintro ⟨⟩
        exact ⟨.here, hx⟩
      · rintro ⟨hsees, -⟩
        cases hsees with
        | here => rfl
        | outwards hnot => rw [hx] at hnot; cases hnot
    | false =>
      rw [if_neg Bool.false_ne_true, Option.bind_eq_some_iff]
      constructor
      · rintro ⟨p, hp, howner⟩
        obtain ⟨hsees, hf⟩ := (ih p (h.parent g p hp)).mp howner
        exact ⟨.outwards hx hp hsees, hf⟩
      · rintro ⟨hsees, hf⟩
        cases hsees with
        | here => rw [hx] at hf; cases hf
        | outwards _ hp hsees => exact ⟨_, hp, (ih _ (h.parent g _ hp)).mpr ⟨hsees, hf⟩⟩

theorem lookup?_eq_some_iff (g : FrameId) (x : Symbol) (v : Value) :
    S.lookup? g x = some v ↔ ∃ f, S.Owns x g f ∧ (S.bindingsOf f).get? x = some v := by
  simp only [lookup?, Option.bind_eq_some_iff, h.owner?_eq_some_iff]

/-- A name is seen from where its new binding is the first one on the way. -/
theorem lookup?_define_self (hf : f < S.frames.size) (v : Value) (hsees : S.Sees x g f) :
    (S.define f x v).lookup? g x = some v := by
  have hdefine := h.define f x v
  induction hsees with
  | here => rw [hdefine.lookup?_eq, get?_define hf, if_pos ⟨rfl, rfl⟩]; rfl
  | @outwards g p f hx hp _ ih =>
    rw [hdefine.lookup?_eq, get?_define hf, parentOf?_define, hp]
    split
    · rfl
    · rw [contains_eq_false_iff.mp hx]
      exact ih hf hdefine

/-- From elsewhere, and with other names, nothing is seen of the new binding. -/
theorem lookup?_define_other (hf : f < S.frames.size) (v : Value) (g : FrameId)
    (hnot : y = x → ¬ S.Sees x g f) :
    (S.define f x v).lookup? g y = S.lookup? g y := by
  induction g using Nat.strongRecOn with
  | ind g ih =>
    have hsame : ¬ (g = f ∧ y = x) := fun ⟨hgf, hyx⟩ => hnot hyx (hgf ▸ .here)
    rw [(h.define f x v).lookup?_eq, h.lookup?_eq, get?_define hf, if_neg hsame, parentOf?_define]
    cases hy : (S.bindingsOf g).get? y with
    | some w => rfl
    | none =>
      cases hp : S.parentOf? g with
      | none => rfl
      | some p =>
        -- The name is not bound here, so that what is seen from the parent is seen from here.
        refine ih p (h.parent g p hp) fun hyx hsees => hnot hyx ?_
        subst hyx
        exact .outwards (contains_eq_false_iff.mpr hy) hp hsees

end Older

/-! ## Assignments -/

theorem assigned_of_none (h : S.owner? f x = none) (v : Value) : S.assigned f x v = S := by
  rw [assigned, assign?, h]
  rfl

theorem assigned_of_some (h : S.owner? f x = some g) (v : Value) :
    S.assigned f x v = S.define g x v := by
  rw [assigned, assign?, h]
  rfl

/-- Of any assignment that is true of a definition where the name is bound, and where nothing
happens. -/
theorem assigned_cases (P : Store → Prop) (h : S.Older) (f : FrameId) (x : Symbol) (v : Value)
    (hnone : P S) (hsome : ∀ g, S.Owns x f g → P (S.define g x v)) : P (S.assigned f x v) := by
  cases howner : S.owner? f x with
  | none => rwa [assigned_of_none howner]
  | some g =>
    rw [assigned_of_some howner]
    exact hsome g ((h.owner?_eq_some_iff f x g).mp howner)

theorem lookup?_assigned (h : S.Older) (f : FrameId) (x : Symbol) (v : Value) (g : FrameId)
    (y : Symbol) :
    (S.assigned f x v).lookup? g y =
      if y = x ∧ (S.owner? f x).isSome = true ∧
        S.owner? g x = S.owner? f x then some v else S.lookup? g y := by
  cases howner : S.owner? f x with
  | none => simp [assigned_of_none howner]
  | some o =>
    obtain ⟨hsees, hbinds⟩ := (h.owner?_eq_some_iff f x o).mp howner
    have ho := lt_size_of_contains hbinds
    -- The frame of the binding is seen from `g` just if it is the owner from there too.
    have hiff : S.Sees x g o ↔ S.owner? g x = some o :=
      ⟨fun hg => (h.owner?_eq_some_iff g x o).mpr ⟨hg, hbinds⟩, fun hg =>
        ((h.owner?_eq_some_iff g x o).mp hg).1⟩
    rw [assigned_of_some howner]
    split
    · next hcond =>
      obtain ⟨rfl, -, hg⟩ := hcond
      exact h.lookup?_define_self ho v (hiff.mpr hg)
    · next hcond =>
      exact h.lookup?_define_other ho v g fun hyx hg => hcond ⟨hyx, rfl, hiff.mp hg⟩

theorem contains_define (h : (S.bindingsOf f).contains x = true) (v : Value) (g : FrameId)
    (y : Symbol) :
    ((S.define f x v).bindingsOf g).contains y = (S.bindingsOf g).contains y := by
  rw [Bindings.contains, get?_define (lt_size_of_contains h)]
  split
  · next heq => rw [heq.1, heq.2, h]; rfl
  · rfl

/-! ## Depths -/

theorem depth_define (S : Store) (f : FrameId) (x : Symbol) (v : Value) (g : FrameId) :
    (S.define f x v).depth g = S.depth g := by
  rw [depth, depth, chain_congr (parentOf?_define S f · x v)]

theorem depth_extend (h : S.Older) (hf : f < S.frames.size) (pairs : List (Symbol × Value)) :
    (S.extend f pairs).2.depth (S.extend f pairs).1 = S.depth f + 1 := by
  have hold : ∀ g < S.frames.size, (S.extend f pairs).2.chain g = S.chain g := by
    intro g hg
    induction g using Nat.strongRecOn with
    | ind g ih =>
      have hparent : (S.extend f pairs).2.parentOf? g = S.parentOf? g := by
        rw [parentOf?, parentOf?, frame_extend_of_lt S hg]
      rw [chain, chain, hparent]
      cases hp : S.parentOf? g with
      | none => rfl
      | some p =>
        have hlt := h.parent g p hp
        dsimp only
        rw [ih p hlt (Nat.lt_trans hlt hg)]
  have hnew : (S.extend f pairs).2.parentOf? S.frames.size = some f := by
    rw [parentOf?, frame_extend_new]
    rfl
  change ((S.extend f pairs).2.chain S.frames.size).length = (S.chain f).length + 1
  rw [chain, hnew]
  dsimp only
  rw [if_pos hf, hold f hf, List.length_cons]

/-- In every store of frames, whatever was done to make it, a name is read from the nearest frame
that binds it. A definition is seen from where nothing nearer binds the name; an assignment is seen
from all frames with the same owner of the name, binds nothing new, and does nothing where there is
no owner. Depths are told by how frames were made. -/
theorem frames_obey_laws (S : Store) (h : S.Built) : S.FrameLaws where
  owner?_eq_some_iff := h.older.owner?_eq_some_iff
  lookup?_eq_some_iff := h.older.lookup?_eq_some_iff
  assigns_iff f x v := by
    rw [assign?, Option.isSome_map, Option.isSome_iff_exists]
    simp only [h.older.owner?_eq_some_iff]
  lookup?_assigned := lookup?_assigned h.older
  assigned_of_none f x v hnone := assigned_of_none (Option.map_eq_none_iff.mp hnone) v
  contains_assigned f x v g y :=
    assigned_cases (fun T => (T.bindingsOf g).contains y = (S.bindingsOf g).contains y)
      h.older f x v rfl
      fun _ ho => contains_define ho.2 v g y
  lookup?_define_self f hf x v g hsees := h.older.lookup?_define_self hf v hsees
  lookup?_define_other f hf x v g y hnot := h.older.lookup?_define_other hf v g hnot
  depth_extend f hf pairs := depth_extend h.older hf pairs
  depth_define := depth_define S
  depth_assigned f x v g :=
    assigned_cases (fun T => T.depth g = S.depth g) h.older f x v rfl fun o _ =>
      depth_define S o x v g

/-- A name is bound in a frame and in the frame inside it, and assigned from a third one inside
both. -/
theorem shadowed_name_obeys_laws :
    let S := (((({} : Store).addFrame {}).2.define 0 ⟨24⟩ .nil).extend 0 [(⟨24⟩, .bool false)]).2
    let T := (S.extend 1 []).2.assigned 2 ⟨24⟩ (.bool true)
    T.Built ∧ T.FrameLaws := by
  intro S T
  have hS : S.Built := .extend _ (.define _ _ (.root .empty) (by decide)) (by decide)
  have hinner : (S.extend 1 []).2.Built := .extend [] hS (show 1 < 2 by decide)
  have hsome : ((S.extend 1 []).2.assign? 2 ⟨24⟩ (.bool true)).isSome = true := by decide +kernel
  obtain ⟨U, hU⟩ := Option.isSome_iff_exists.mp hsome
  have hTU : T = U := congrArg (Option.getD · _) hU
  have hT : T.Built := hTU ▸ .assign hinner hU
  exact ⟨hT, frames_obey_laws T hT⟩

end TreeWalk.Store
