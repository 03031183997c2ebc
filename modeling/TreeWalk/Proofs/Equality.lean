import Mathlib.Data.List.Forall2
import TreeWalk.Proofs.Eval.StoredCode

/-!
# Equality of values

The equality of the language compares tuples and vectors by their elements, functions, classes and
objects by their places, and numbers as IEEE doubles. `Value.Same` says this without the program.
Equality is symmetric and transitive, but a NaN equals nothing, and so a value equals itself just if
no NaN stands in it: that both sides are one and the same tuple does not help.
-/

namespace TreeWalk

namespace Number

variable {x y z : Number}

theorem equal_iff : x.equal y = true ↔ x.isNaN = false ∧ y.isNaN = false ∧
    (x = y ∨ x.isZero = true ∧ y.isZero = true) := by
  simp [equal, and_assoc]

theorem equal_symm (h : x.equal y = true) : y.equal x = true := by
  obtain ⟨hx, hy, hxy⟩ := equal_iff.mp h
  exact equal_iff.mpr ⟨hy, hx, hxy.imp Eq.symm And.symm⟩

theorem equal_trans (h : x.equal y = true) (h' : y.equal z = true) : x.equal z = true := by
  obtain ⟨hx, -, hxy⟩ := equal_iff.mp h
  obtain ⟨-, hz, hyz⟩ := equal_iff.mp h'
  refine equal_iff.mpr ⟨hx, hz, ?_⟩
  rcases hxy with rfl | ⟨hzero, hzero'⟩
  · exact hyz
  · rcases hyz with rfl | ⟨-, hzero''⟩
    · exact .inr ⟨hzero, hzero'⟩
    · exact .inr ⟨hzero, hzero''⟩

theorem equal_self_iff : x.equal x = true ↔ x.isNaN = false :=
  ⟨fun h => (equal_iff.mp h).1, fun h => equal_iff.mpr ⟨h, h, .inl rfl⟩⟩

end Number

namespace Value

/-- The values are equal: alike in kind and in their parts, and at the same place if they have
one. -/
inductive Same : Value → Value → Prop
  | nil : Same .nil .nil
  | bool : Same (.bool b) (.bool b)
  | number : x.equal y = true → Same (.number x) (.number y)
  | str : Same (.str s) (.str s)
  | tuple : List.Forall₂ Same vs ws → Same (.tuple vs) (.tuple ws)
  | vector : List.Forall₂ Same vs ws → Same (.vector vs) (.vector ws)
  | function : Same (.function f) (.function f)
  | class_ : Same (.class_ k) (.class_ k)
  | object : Same (.object o) (.object o)

/-- A NaN stands in the value, at any depth of tuples and vectors. -/
def HasNaN (v : Value) : Prop :=
  ∃ x, (number x).Inside v ∧ x.isNaN = true

/-! ## Laws -/

mutual

theorem Same.symm : ∀ {v w : Value}, v.Same w → w.Same v
  | .nil, _, .nil => .nil
  | .bool _, _, .bool => .bool
  | .number _, _, .number h => .number (Number.equal_symm h)
  | .str _, _, .str => .str
  | .tuple _, _, .tuple h => .tuple (Same.symmAll h)
  | .vector _, _, .vector h => .vector (Same.symmAll h)
  | .function _, _, .function => .function
  | .class_ _, _, .class_ => .class_
  | .object _, _, .object => .object

theorem Same.symmAll : ∀ {vs ws : List Value}, List.Forall₂ Same vs ws → List.Forall₂ Same ws vs
  | [], _, .nil => .nil
  | _ :: _, _, .cons h hs => .cons h.symm (Same.symmAll hs)

end

mutual

theorem Same.trans : ∀ {u v w : Value}, u.Same v → v.Same w → u.Same w
  | .nil, _, _, .nil, .nil => .nil
  | .bool _, _, _, .bool, .bool => .bool
  | .number _, _, _, .number h, .number h' => .number (Number.equal_trans h h')
  | .str _, _, _, .str, .str => .str
  | .tuple _, _, _, .tuple h, .tuple h' => .tuple (Same.transAll h h')
  | .vector _, _, _, .vector h, .vector h' => .vector (Same.transAll h h')
  | .function _, _, _, .function, .function => .function
  | .class_ _, _, _, .class_, .class_ => .class_
  | .object _, _, _, .object, .object => .object

theorem Same.transAll :
    ∀ {us vs ws : List Value}, List.Forall₂ Same us vs → List.Forall₂ Same vs ws →
    List.Forall₂ Same us ws
  | [], _, _, .nil, .nil => .nil
  | _ :: _, _, _, .cons h hs, .cons h' hs' => .cons (h.trans h') (Same.transAll hs hs')

end

theorem hasNaN_number : (number x).HasNaN ↔ x.isNaN = true := by
  constructor
  · rintro ⟨y, hy, hnan⟩
    cases hy
    exact hnan
  · exact fun hnan => ⟨x, .refl, hnan⟩

/-- A NaN in a value other than a number stands in one of its elements. -/
theorem hasNaN_iff_items {v : Value} (h : ∀ x, v ≠ number x) :
    v.HasNaN ↔ ∃ w ∈ v.items, w.HasNaN := by
  constructor
  · rintro ⟨x, hx, hnan⟩
    cases hx with
    | refl => exact absurd rfl (h x)
    | tuple hw hx => exact ⟨_, hw, x, hx, hnan⟩
    | vector hw hx => exact ⟨_, hw, x, hx, hnan⟩
  · rintro ⟨w, hw, x, hx, hnan⟩
    cases v with
    | tuple vs => exact ⟨x, .tuple hw hx, hnan⟩
    | vector vs => exact ⟨x, .vector hw hx, hnan⟩
    | _ => exact absurd hw List.not_mem_nil

theorem not_hasNaN {v : Value} (h : ∀ x, v ≠ number x) (hitems : v.items = []) : ¬ v.HasNaN := by
  simp [hasNaN_iff_items h, hitems]

mutual

theorem same_self_iff : ∀ v : Value, v.Same v ↔ ¬ v.HasNaN
  | .number x => by
    rw [hasNaN_number, Bool.not_eq_true, ← Number.equal_self_iff]
    constructor
    · intro h
      cases h with
      | number h => exact h
    · exact .number
  | .tuple vs => by
    rw [hasNaN_iff_items (by simp), not_exists]
    constructor
    · intro h v hv
      cases h with
      | tuple h => exact (same_self_iffAll vs v hv.1).mp (List.forall₂_same.mp h v hv.1) hv.2
    · intro h
      exact .tuple (List.forall₂_same.mpr fun v hv => (same_self_iffAll vs v hv).mpr fun hnan =>
        h v ⟨hv, hnan⟩)
  | .vector vs => by
    rw [hasNaN_iff_items (by simp), not_exists]
    constructor
    · intro h v hv
      cases h with
      | vector h => exact (same_self_iffAll vs v hv.1).mp (List.forall₂_same.mp h v hv.1) hv.2
    · intro h
      exact .vector (List.forall₂_same.mpr fun v hv => (same_self_iffAll vs v hv).mpr fun hnan =>
        h v ⟨hv, hnan⟩)
  | .nil => iff_of_true .nil (not_hasNaN (by simp) rfl)
  | .bool _ => iff_of_true .bool (not_hasNaN (by simp) rfl)
  | .str _ => iff_of_true .str (not_hasNaN (by simp) rfl)
  | .function _ => iff_of_true .function (not_hasNaN (by simp) rfl)
  | .class_ _ => iff_of_true .class_ (not_hasNaN (by simp) rfl)
  | .object _ => iff_of_true .object (not_hasNaN (by simp) rfl)

theorem same_self_iffAll : ∀ vs : List Value, ∀ v ∈ vs, v.Same v ↔ ¬ v.HasNaN
  | [] => fun _ hv => absurd hv List.not_mem_nil
  | v :: vs => List.forall_mem_cons.mpr ⟨same_self_iff v, same_self_iffAll vs⟩

end

theorem Same.typeName_eq {v w : Value} (h : v.Same w) : v.typeName = w.typeName := by
  cases h <;> rfl

/-! ## The program's equality -/

mutual

theorem same_of_equal : ∀ {v w : Value}, v.equal w = true → v.Same w
  | .tuple vs, w, h => by
    cases w with
    | tuple ws => exact .tuple (same_of_equalAll (by simpa only [equal] using h))
    | _ => simp [equal] at h
  | .vector vs, w, h => by
    cases w with
    | vector ws => exact .vector (same_of_equalAll (by simpa only [equal] using h))
    | _ => simp [equal] at h
  | .number x, w, h => by
    cases w with
    | number y => exact .number (by simpa only [equal] using h)
    | _ => simp [equal] at h
  | .nil, w, h => by
    cases w with
    | nil => exact .nil
    | _ => simp [equal] at h
  | .bool b, w, h => by
    cases w with
    | bool c =>
      obtain rfl : b = c := by simpa [equal] using h
      exact .bool
    | _ => simp [equal] at h
  | .str s, w, h => by
    cases w with
    | str t =>
      obtain rfl : s = t := by simpa [equal] using h
      exact .str
    | _ => simp [equal] at h
  | .function f, w, h => by
    cases w with
    | function g =>
      obtain rfl : f = g := by simpa [equal] using h
      exact .function
    | _ => simp [equal] at h
  | .class_ k, w, h => by
    cases w with
    | class_ l =>
      obtain rfl : k = l := by simpa [equal] using h
      exact .class_
    | _ => simp [equal] at h
  | .object o, w, h => by
    cases w with
    | object p =>
      obtain rfl : o = p := by simpa [equal] using h
      exact .object
    | _ => simp [equal] at h

theorem same_of_equalAll : ∀ {vs ws : List Value}, equalAll vs ws = true → List.Forall₂ Same vs ws
  | [], ws, h => by
    cases ws with
    | nil => exact .nil
    | cons w ws => simp [equalAll] at h
  | v :: vs, ws, h => by
    cases ws with
    | nil => simp [equalAll] at h
    | cons w ws =>
      simp only [equalAll, Bool.and_eq_true] at h
      exact .cons (same_of_equal h.1) (same_of_equalAll h.2)

end

mutual

theorem Same.equal : ∀ {v w : Value}, v.Same w → v.equal w = true
  | .tuple _, _, .tuple h => by simpa only [Value.equal] using Same.equalAll h
  | .vector _, _, .vector h => by simpa only [Value.equal] using Same.equalAll h
  | .number _, _, .number h => by simpa only [Value.equal] using h
  | .nil, _, .nil => by simp [Value.equal]
  | .bool _, _, .bool | .str _, _, .str | .function _, _, .function | .class_ _, _,
      .class_ | .object _, _, .object => by
    simp [Value.equal]

theorem Same.equalAll :
    ∀ {vs ws : List Value}, List.Forall₂ Same vs ws → Value.equalAll vs ws = true
  | [], _, .nil => by simp [Value.equalAll]
  | _ :: _, _, .cons h hs => by simp [Value.equalAll, Same.equal h, Same.equalAll hs]

end

theorem equal_iff_same {v w : Value} : v.equal w = true ↔ v.Same w :=
  ⟨same_of_equal, Same.equal⟩

end Value

/-- **Equality is a partial equivalence, and only values with a NaN in them do not equal
themselves.** Functions, classes and objects equal nothing but themselves, and values of different
types are never equal. -/
theorem equality_is_partial_equivalence :
    (∀ v w : Value, v.equal w = true → w.equal v = true) ∧
    (∀ u v w : Value, u.equal v = true → v.equal w = true → u.equal w = true) ∧
    (∀ v : Value, v.equal v = true ↔ ¬ v.HasNaN) ∧
    (∀ f v, (Value.function f).equal v = true ↔ v = .function f) ∧
    (∀ k v, (Value.class_ k).equal v = true ↔ v = .class_ k) ∧
    (∀ o v, (Value.object o).equal v = true ↔ v = .object o) ∧
    ∀ v w : Value, v.typeName ≠ w.typeName → v.equal w = false := by
  simp only [← Bool.not_eq_true, Value.equal_iff_same]
  refine ⟨fun _ _ => .symm, fun _ _ _ => .trans, Value.same_self_iff, ?_, ?_, ?_, fun v w hne h =>
    hne h.typeName_eq⟩
  · rintro f v
    constructor
    · intro h
      cases h
      rfl
    · rintro rfl
      exact .function
  · rintro k v
    constructor
    · intro h
      cases h
      rfl
    · rintro rfl
      exact .class_
  · rintro o v
    constructor
    · intro h
      cases h
      rfl
    · rintro rfl
      exact .object

/-- The two zeros are equal, also deep in a tuple and from either side; a tuple with a NaN in it
does not equal itself. -/
theorem zeros_are_equal_and_nan_is_not :
    let plus : Value := .tuple [.vector [.number ⟨0⟩], .function 3]
    let minus : Value := .tuple [.vector [.number ⟨0x8000000000000000⟩], .function 3]
    let nan : Value := .tuple [.nil, .vector [.number ⟨0x7ff8000000000000⟩]]
    plus.equal minus = true ∧ minus.equal plus = true ∧ plus.equal plus = true ∧ nan.HasNaN ∧
      nan.equal nan = false := by
  intro plus minus nan
  obtain ⟨hsymm, htrans, hself, -⟩ := equality_is_partial_equivalence
  have hzeros : plus.equal minus = true := by decide +kernel
  have hnan : nan.HasNaN :=
    ⟨⟨0x7ff8000000000000⟩, .tuple (.tail _ (.head _)) (.vector (.head _) .refl), by decide +kernel⟩
  have hminus := hsymm plus minus hzeros
  refine ⟨hzeros, hminus, htrans plus minus plus hzeros hminus, hnan, ?_⟩
  exact Bool.eq_false_iff.mpr fun h => (hself nan).mp h hnan

end TreeWalk
