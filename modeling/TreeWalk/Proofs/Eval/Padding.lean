import TreeWalk.Proofs.Eval.Knit
import TreeWalk.Proofs.Eval.LinkedStore

/-!
# Stores with more frames

A padded store has the same contents as another one, but empty frames may stand between its frames.
A list of origins says which frame of the other store each frame of the padded store stands for. The
first one that stands for a frame is its twin and binds the same names. The later ones are empty,
and lie inside another one that stands for the same frame. So a name is seen alike from a frame and
from all frames that stand for it.
-/

namespace TreeWalk

/-! ## Origins -/

/-- The frame `f'` stands for `f`. -/
def Near (σ : List FrameId) (f f' : FrameId) : Prop :=
  σ[f']? = some f

/-- The frame `f'` is the first that stands for `f`. -/
structure Twin (σ : List FrameId) (f f' : FrameId) : Prop where
  near : Near σ f f'
  first : f ∉ σ.take f'

section

variable {σ τ : List FrameId} {f g f' g' : FrameId}

theorem Near.lt (h : Near σ f f') : f' < σ.length :=
  (List.getElem?_eq_some_iff.mp h).1

theorem Near.mem (h : Near σ f f') : f ∈ σ :=
  List.mem_of_getElem? h

theorem Near.eq (h : Near σ f f') (h' : Near σ g f') : f = g :=
  Option.some.inj (h.symm.trans h')

theorem Near.mono (h : σ <+: τ) (hf : Near σ f f') : Near τ f f' := by
  obtain ⟨ρ, rfl⟩ := h
  exact (List.getElem?_append_left hf.lt).trans hf

theorem Twin.mono (h : σ <+: τ) (hf : Twin σ f f') : Twin τ f f' := by
  refine ⟨hf.near.mono h, ?_⟩
  obtain ⟨ρ, rfl⟩ := h
  rw [List.take_append_of_le_length (Nat.le_of_lt hf.near.lt)]
  exact hf.first

theorem Near.mem_take (h : Near σ f f') (hlt : f' < g') : f ∈ σ.take g' := by
  apply List.mem_of_getElem? (i := f')
  rw [List.getElem?_take_of_lt hlt]
  exact h

/-- A frame has one twin. -/
theorem Twin.eq (h : Twin σ f f') (h' : Twin σ f g') : f' = g' := by
  rcases Nat.lt_trichotomy f' g' with hlt | heq | hlt
  · exact absurd (h.near.mem_take hlt) h'.first
  · exact heq
  · exact absurd (h'.near.mem_take hlt) h.first

theorem near_concat (σ : List FrameId) (f : FrameId) : Near (σ ++ [f]) f σ.length :=
  List.getElem?_concat_length

theorem twin_concat (h : f ∉ σ) : Twin (σ ++ [f]) f σ.length := by
  refine ⟨near_concat σ f, ?_⟩
  rw [List.take_left]
  exact h

/-- What stands for a frame after one more was made is the new one or did so before. -/
theorem Near.of_concat (h : Near (σ ++ [g]) f f') : Near σ f f' ∨ f = g ∧ f' = σ.length := by
  rcases Nat.lt_or_ge f' σ.length with hlt | hge
  · exact .inl ((List.getElem?_append_left hlt).symm.trans h)
  · have hlast : f' = σ.length := by
      have hlt := h.lt
      rw [List.length_append, List.length_singleton] at hlt
      exact Nat.le_antisymm (Nat.le_of_lt_succ hlt) hge
    subst hlast
    exact .inr ⟨h.eq (near_concat σ g), rfl⟩

theorem Twin.of_concat (h : Twin (σ ++ [g]) f f') :
    Twin σ f f' ∨ f = g ∧ f' = σ.length ∧ g ∉ σ := by
  rcases h.near.of_concat with hnear | ⟨rfl, rfl⟩
  · have hfirst := h.first
    rw [List.take_append_of_le_length (Nat.le_of_lt hnear.lt)] at hfirst
    exact .inl ⟨hnear, hfirst⟩
  · have hfirst := h.first
    rw [List.take_left] at hfirst
    exact .inr ⟨rfl, rfl, hfirst⟩

theorem twin_range (h : f < n) : Twin (List.range n) f f := by
  refine ⟨List.getElem?_range h, ?_⟩
  rw [List.take_range, List.mem_range, Nat.lt_min]
  exact fun hlt => Nat.lt_irrefl f hlt.1

theorem eq_of_near_range (h : Near (List.range n) f f') : f = f' :=
  h.eq (twin_range (by simpa using h.lt)).near

end

/-! ## Frames, functions and classes -/

structure Frame.Near (σ : List FrameId) (frame frame' : Frame) : Prop where
  bindings : frame.bindings = frame'.bindings
  parent : Option.Rel (TreeWalk.Near σ) frame.parent frame'.parent

structure Closure.Near (σ : List FrameId) (c c' : Closure) : Prop where
  name : c.name = c'.name
  decl : c.decl = c'.decl
  scope : TreeWalk.Near σ c.scope c'.scope
  isInitializer : c.isInitializer = c'.isInitializer

structure ClassInfo.Near (σ : List FrameId) (k k' : ClassInfo) : Prop where
  name : k.name = k'.name
  superclass : k.superclass = k'.superclass
  methods : ∀ x, Option.Rel (Closure.Near σ) (k.methods.get? x) (k'.methods.get? x)

/-- The store `T` is padded, where `S` is the other one and `σ` gives the origins of its frames. -/
structure Store.Padded (σ : List FrameId) (S T : Store) : Prop where
  length : σ.length = T.frames.size
  mem_iff : ∀ f, f ∈ σ ↔ f < S.frames.size
  older : S.ParentsOlder
  older' : T.ParentsOlder
  twin : ∀ f f', Twin σ f f' → Option.Rel (Frame.Near σ) S.frames[f]? T.frames[f']?
  pad : ∀ f f', Near σ f f' → ¬ Twin σ f f' →
    ∃ p', T.frames[f']? = some { parent := some p' } ∧ Near σ f p'
  functions : Aligned (Closure.Near σ) S.functions T.functions
  classes : Aligned (ClassInfo.Near σ) S.classes T.classes
  objects : S.objects = T.objects

section

variable {σ τ : List FrameId} (h : σ <+: τ)
include h

theorem Frame.Near.mono (hf : Frame.Near σ frame frame') : Frame.Near τ frame frame' :=
  ⟨hf.bindings, optionRel_mono (fun _ _ hp => hp.mono h) hf.parent⟩

theorem Closure.Near.mono (hc : Closure.Near σ c c') : Closure.Near τ c c' :=
  ⟨hc.name, hc.decl, hc.scope.mono h, hc.isInitializer⟩

theorem ClassInfo.Near.mono (hk : ClassInfo.Near σ k k') : ClassInfo.Near τ k k' :=
  ⟨hk.name, hk.superclass, fun x => optionRel_mono (fun _ _ hc => hc.mono h) (hk.methods x)⟩

end

namespace Store

theorem ParentsOlder.extend {S : Store} (h : S.ParentsOlder) (hf : f < S.frames.size)
    (pairs : List (Symbol × Value)) :
    (S.extend f pairs).2.ParentsOlder := by
  intro g frame hg p hp
  rcases Nat.lt_or_ge g S.frames.size with hlt | hge
  · rw [frame_extend_of_lt S hlt] at hg
    exact h g frame hg p hp
  · have hsize := (Array.getElem?_eq_some_iff.mp hg).1
    rw [size_extend] at hsize
    obtain rfl : g = S.frames.size := Nat.le_antisymm (Nat.le_of_lt_succ hsize) hge
    rw [frame_extend_new] at hg
    cases hg
    cases hp
    exact hf

theorem ParentsOlder.define {S : Store} (h : S.ParentsOlder) (f : FrameId) (x : Symbol)
    (v : Value) :
    (S.define f x v).ParentsOlder := by
  intro g frame hg p hp
  rw [frame_define] at hg
  obtain ⟨old, hold, rfl⟩ := Option.map_eq_some_iff.mp hg
  refine h g old hold p ?_
  split at hp
  · exact hp
  · exact hp

namespace Padded

variable {σ : List FrameId} {S T : Store} {f f' : FrameId}

/-! ## Reading -/

section

variable (h : S.Padded σ T)
include h

theorem lt (hf : Near σ f f') : f < S.frames.size :=
  (h.mem_iff f).mp hf.mem

theorem lt' (hf : Near σ f f') : f' < T.frames.size :=
  h.length ▸ hf.lt

theorem exists_twin (hf : Twin σ f f') :
    ∃ frame frame', S.frames[f]? = some frame ∧ T.frames[f']? = some frame' ∧
    Frame.Near σ frame frame' := by
  have hframe := Array.getElem?_eq_getElem (h.lt hf.near)
  have hframe' := Array.getElem?_eq_getElem (h.lt' hf.near)
  have hrel := h.twin f f' hf
  rw [hframe, hframe'] at hrel
  cases hrel with
  | some hnear => exact ⟨_, _, hframe, hframe', hnear⟩

theorem bindingsOf (hf : Twin σ f f') : S.bindingsOf f = T.bindingsOf f' := by
  obtain ⟨frame, frame', hframe, hframe', hnear⟩ := h.exists_twin hf
  rw [bindingsOf_eq hframe, bindingsOf_eq hframe', hnear.bindings]

/-- The search for a name goes through the same frames, and past the empty ones between them. -/
theorem owner? (hf : Near σ f f') (x : Symbol) :
    Option.Rel (Twin σ) (S.owner? f x) (T.owner? f' x) := by
  -- By the age of the frame in the padded store: there a step to the frame around it may leave `f`
  -- as it is.
  induction f' using Nat.strongRecOn generalizing f with
  | ind f' ih =>
    by_cases htwin : Twin σ f f'
    · obtain ⟨frame, frame', hframe, hframe', hnear⟩ := h.exists_twin htwin
      rw [owner?_eq hframe (h.older f frame hframe), owner?_eq hframe' (h.older' f' frame' hframe'),
        hnear.bindings]
      split
      · exact .some htwin
      · have hlt := h.older' f' frame' hframe'
        have hparent := hnear.parent
        cases hp : frame.parent with
        | none =>
          rw [hp] at hparent
          cases hp' : frame'.parent with
          | none => exact .none
          | some p' => rw [hp'] at hparent; cases hparent
        | some p =>
          rw [hp] at hparent
          cases hp' : frame'.parent with
          | none => rw [hp'] at hparent; cases hparent
          | some p' =>
            rw [hp'] at hparent
            cases hparent with
            | some hpp => exact ih p' (hlt p' hp') hpp
    · obtain ⟨p', hframe', hp'⟩ := h.pad f f' hf htwin
      rw [owner?_eq hframe' (h.older' f' _ hframe')]
      exact ih p' (h.older' f' _ hframe' p' rfl) hp'

theorem lookup? (hf : Near σ f f') (x : Symbol) : S.lookup? f x = T.lookup? f' x :=
  bind_eq_of_rel (fun _ _ htwin => by rw [h.bindingsOf htwin]) (h.owner? hf x)

theorem sameNames : S.SameNames T where
  function f :=
    congrArg (Option.getD · "") (map_eq_of_rel (fun _ _ hc => hc.name) (h.functions.entry f))
  class_ c :=
    congrArg (Option.getD · "") (map_eq_of_rel (fun _ _ hk => hk.name) (h.classes.entry c))
  object o := by rw [Store.objectClass?, Store.objectClass?, h.objects]

theorem field? (o : ObjectId) (x : Symbol) : S.field? o x = T.field? o x := by
  rw [Store.field?, Store.field?, h.objects]

theorem findMethod? (c : ClassId) (x : Symbol) :
    Option.Rel (Closure.Near σ) (S.findMethod? c x) (T.findMethod? c x) := by
  have hchain : S.classChain c = T.classChain c := by
    apply classChain_congr
    exact fun d => bind_eq_of_rel (fun _ _ hk => hk.superclass) (h.classes.entry d)
  rw [Store.findMethod?, Store.findMethod?, hchain]
  exact findSome?_rel (fun d => bind_rel (fun _ _ hk => hk.methods x) (h.classes.entry d)) _

/-! ## Writing -/

theorem define (hf : Twin σ f f') (x : Symbol) (v : Value) :
    (S.define f x v).Padded σ (T.define f' x v) where
  length := by rw [size_define, h.length]
  mem_iff g := by rw [size_define, h.mem_iff]
  older := h.older.define f x v
  older' := h.older'.define f' x v
  twin g g' hg := by
    have hiff : f = g ↔ f' = g' := by
      constructor
      · rintro rfl
        exact hf.eq hg
      · rintro rfl
        exact hf.near.eq hg.near
    rw [frame_define, frame_define]
    refine map_rel (fun frame frame' hnear => ?_) (h.twin g g' hg)
    by_cases heq : f = g
    · rw [if_pos heq, if_pos (hiff.mp heq)]
      exact ⟨congrArg (·.insert x v) hnear.bindings, hnear.parent⟩
    · rw [if_neg heq, if_neg fun heq' => heq (hiff.mpr heq')]
      exact hnear
  pad g g' hg hnot := by
    obtain ⟨p', hframe', hp'⟩ := h.pad g g' hg hnot
    have hne : f' ≠ g' := by
      rintro rfl
      exact hnot (hg.eq hf.near ▸ hf)
    refine ⟨p', ?_, hp'⟩
    rw [frame_define, hframe', Option.map_some, if_neg hne]
  functions := h.functions
  classes := h.classes
  objects := h.objects

/-- A new frame in both stores: the new frames are twins. -/
theorem extend (hf : Near σ f f') (pairs : List (Symbol × Value)) :
    (S.extend f pairs).2.Padded (σ ++ [S.frames.size]) (T.extend f' pairs).2 ∧
      Twin (σ ++ [S.frames.size]) (S.extend f pairs).1 (T.extend f' pairs).1 := by
  have hmono : σ <+: σ ++ [S.frames.size] := List.prefix_append _ _
  have hfresh : S.frames.size ∉ σ := fun hmem => Nat.lt_irrefl _ ((h.mem_iff _).mp hmem)
  have hnew : Twin (σ ++ [S.frames.size]) S.frames.size T.frames.size :=
    h.length ▸ twin_concat hfresh
  refine ⟨{
    length := by rw [size_extend, List.length_append, List.length_singleton, h.length]
    mem_iff := fun g => by
      rw [size_extend, List.mem_append, List.mem_singleton, h.mem_iff, Nat.lt_succ_iff_lt_or_eq]
    older := h.older.extend (h.lt hf) pairs
    older' := h.older'.extend (h.lt' hf) pairs
    twin := fun g g' hg => ?_
    pad := fun g g' hg hnot => ?_
    functions := h.functions.mono fun _ _ hc => hc.mono hmono
    classes := h.classes.mono fun _ _ hk => hk.mono hmono
    objects := h.objects }, hnew⟩
  · rcases hg.of_concat with hold | ⟨rfl, rfl, -⟩
    · rw [frame_extend_of_lt S (h.lt hold.near), frame_extend_of_lt T (h.lt' hold.near)]
      exact optionRel_mono (fun _ _ hnear => hnear.mono hmono) (h.twin g g' hold)
    · rw [h.length, frame_extend_new, frame_extend_new]
      exact .some ⟨rfl, .some (hf.mono hmono)⟩
  · rcases hg.of_concat with hold | ⟨rfl, rfl⟩
    · obtain ⟨p', hframe', hp'⟩ := h.pad g g' hold fun htwin => hnot (htwin.mono hmono)
      exact ⟨p', by rw [frame_extend_of_lt T (h.lt' hold), hframe'], hp'.mono hmono⟩
    · rw [h.length] at hnot
      exact absurd hnew hnot

/-- A new empty frame in the padded store alone stands for what the frame around it stands for. -/
theorem extend_right (hf : Near σ f f') :
    S.Padded (σ ++ [f]) (T.extend f' []).2 ∧ Near (σ ++ [f]) f (T.extend f' []).1 := by
  have hmono : σ <+: σ ++ [f] := List.prefix_append _ _
  have hnew : Near (σ ++ [f]) f T.frames.size := h.length ▸ near_concat σ f
  refine ⟨{
    length := by rw [size_extend, List.length_append, List.length_singleton, h.length]
    mem_iff := fun g => by
      rw [List.mem_append, List.mem_singleton, ← h.mem_iff]
      exact or_iff_left_of_imp fun heq => heq ▸ hf.mem
    older := h.older
    older' := h.older'.extend (h.lt' hf) []
    twin := fun g g' hg => ?_
    pad := fun g g' hg hnot => ?_
    functions := h.functions.mono fun _ _ hc => hc.mono hmono
    classes := h.classes.mono fun _ _ hk => hk.mono hmono
    objects := h.objects }, hnew⟩
  · rcases hg.of_concat with hold | ⟨-, -, hfresh⟩
    · rw [frame_extend_of_lt T (h.lt' hold.near)]
      exact optionRel_mono (fun _ _ hnear => hnear.mono hmono) (h.twin g g' hold)
    · exact absurd hf.mem hfresh
  · rcases hg.of_concat with hold | ⟨rfl, rfl⟩
    · obtain ⟨p', hframe', hp'⟩ := h.pad g g' hold fun htwin => hnot (htwin.mono hmono)
      exact ⟨p', by rw [frame_extend_of_lt T (h.lt' hold), hframe'], hp'.mono hmono⟩
    · refine ⟨f', ?_, hf.mono hmono⟩
      rw [h.length, frame_extend_new]
      rfl

theorem addFunction (hc : Closure.Near σ c c') :
    (S.addFunction c).1 = (T.addFunction c').1 ∧
      (S.addFunction c).2.Padded σ (T.addFunction c').2 :=
  ⟨h.functions.size, { h with functions := h.functions.push hc }⟩

theorem addClass (hk : ClassInfo.Near σ k k') :
    (S.addClass k).1 = (T.addClass k').1 ∧ (S.addClass k).2.Padded σ (T.addClass k').2 :=
  ⟨h.classes.size, { h with classes := h.classes.push hk }⟩

theorem addObject (o : Object) :
    (S.addObject o).1 = (T.addObject o).1 ∧ (S.addObject o).2.Padded σ (T.addObject o).2 :=
  ⟨congrArg Array.size h.objects, { h with objects := congrArg (·.push o) h.objects }⟩

theorem setField (o : ObjectId) (x : Symbol) (v : Value) :
    (S.setField o x v).Padded σ (T.setField o x v) :=
  { h with objects := by rw [Store.setField, Store.setField, h.objects] }

end

end Padded

/-- A store that hangs together is padded with nothing. -/
theorem Knit.padded_self {rule : CodeRule} {S : Store} (h : S.Knit rule) :
    S.Padded (List.range S.frames.size) S where
  length := List.length_range
  mem_iff _ := List.mem_range
  older := h.older
  older' := h.older
  twin f f' hf := by
    obtain rfl := eq_of_near_range hf.near
    cases hframe : S.frames[f]? with
    | none => exact .none
    | some frame =>
      refine .some ⟨rfl, ?_⟩
      cases hp : frame.parent with
      | none => exact .none
      | some p =>
        have hlt :=
          Nat.lt_trans (h.older f frame hframe p hp) (Array.getElem?_eq_some_iff.mp hframe).1
        exact .some (twin_range hlt).near
  pad f f' hf hnot := by
    obtain rfl := eq_of_near_range hf
    exact absurd (twin_range (by simpa using hf.lt)) hnot
  functions := by
    refine ⟨rfl, fun f => ?_⟩
    cases hc : S.functions[f]? with
    | none => exact .none
    | some c => exact .some ⟨rfl, rfl, (twin_range (h.function f c hc).scope.lt).near, rfl⟩
  classes := by
    refine ⟨rfl, fun k => ?_⟩
    cases hk : S.classes[k]? with
    | none => exact .none
    | some info =>
      refine .some ⟨rfl, rfl, fun x => ?_⟩
      cases hc : info.methods.get? x with
      | none => exact .none
      | some c =>
        exact .some ⟨rfl, rfl, (twin_range (h.method k c ⟨info, x, hk, hc⟩).scope_lt).near, rfl⟩
  objects := rfl

end Store

end TreeWalk
