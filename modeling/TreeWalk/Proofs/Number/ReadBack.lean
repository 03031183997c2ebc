import Mathlib.Algebra.Group.Nat.Defs
import TreeWalk.Lexeme
import TreeWalk.Number.Text

/-!
# Numbers read back

The source text of a finite number without a sign is a run of digits, with at most one point inside
it, and it stands for that number. `Number.decimal` only takes decimals that read back, and the
exact one always does: its ratio is the number itself, so that reading it rounds nothing.
-/

namespace TreeWalk

theorem Decimal.ratio_neg (c n : Nat) : (⟨c, -n⟩ : Decimal).ratio = (c, Nat.pow 10 n) := by
  cases n with
  | zero => simp [ratio]
  | succ n => rfl

namespace Number

theorem isNegative_ofMagnitude (m : Nat) : (ofMagnitude m).isNegative = false := by
  have hle : min m infinity ≤ infinity := Nat.min_le_right m infinity
  simp only [infinity] at hle
  simp only [isNegative, ofMagnitude, UInt64.toNat_ofNat', decide_eq_false_iff_not,
    infinity, signBit]
  omega

/-- Without a sign, a finite number is known by its magnitude. -/
theorem ofMagnitude_magnitude {x : Number} (hpos : x.isNegative = false)
    (hfin : x.isFinite = true) :
    ofMagnitude x.magnitude = x := by
  have hfin : x.magnitude < infinity := by simpa [isFinite] using hfin
  have hmag : x.magnitude = x.bits.toNat := by
    simp only [isNegative, decide_eq_false_iff_not] at hpos
    exact Nat.mod_eq_of_lt (Nat.lt_of_not_le hpos)
  rw [ofMagnitude, Nat.min_eq_left (Nat.le_of_lt hfin), hmag, UInt64.ofNat_toNat]

/-! ## Ratios -/

theorem roundDiv_mul_right (n d : Nat) (hk : 0 < k) : roundDiv (n * k) (d * k) = roundDiv n d := by
  have hlt : ∀ a b : Nat, a * k < b * k ↔ a < b := fun a b => Nat.mul_lt_mul_right hk
  unfold roundDiv
  simp only [Nat.mul_div_mul_right n d hk, Nat.mul_mod_mul_right, ← Nat.mul_assoc, hlt]

theorem roundDiv_mul_self (q : Nat) (hd : 0 < d) : roundDiv (q * d) d = q := by
  unfold roundDiv
  simp [Nat.mul_div_cancel q hd, hd]

theorem ofRatio_mul_right (n d : Nat) (hk : 0 < k) : ofRatio (n * k) (d * k) = ofRatio n d := by
  have hshift : ∀ m s, (m * k) <<< s = m <<< s * k := fun m s => by
    rw [Nat.shiftLeft_eq, Nat.shiftLeft_eq, Nat.mul_right_comm]
  unfold ofRatio
  simp only [hshift, Nat.mul_div_mul_right _ _ hk, roundDiv_mul_right _ _ hk]

/-- The scale is told by the product of significand and scale. -/
theorem log2_mul_two_pow (hlt : q < 2 ^ 53) (hscale : s = 0 ∨ 2 ^ 52 ≤ q) :
    (q * 2 ^ s).log2 - 52 = s := by
  by_cases hlow : q < 2 ^ 52
  · have hzero : s = 0 := hscale.resolve_right (by omega)
    have hlog : q.log2 < 53 := by
      by_cases hq : q = 0
      · rw [hq]
        decide
      · exact (Nat.log2_lt hq).mpr hlt
    have hlog' : q.log2 ≤ 52 := by omega
    rw [hzero, Nat.pow_zero, Nat.mul_one]
    omega
  · have hlow : 2 ^ 52 ≤ q := by omega
    have hlog : (q * 2 ^ s).log2 = s + 52 := by
      have hpos : 0 < 2 ^ s := Nat.two_pow_pos _
      have hne : q * 2 ^ s ≠ 0 := Nat.ne_of_gt (Nat.mul_pos (by omega) hpos)
      rw [Nat.log2_eq_iff hne]
      constructor
      · rw [Nat.add_comm, Nat.pow_add]
        exact Nat.mul_le_mul_right _ hlow
      · rw [show s + 52 + 1 = 53 + s by omega, Nat.pow_add]
        exact Nat.mul_lt_mul_of_pos_right hlt hpos
    rw [hlog, Nat.add_sub_cancel]

section

variable (x : Number)

theorem magnitude_eq : x.magnitude = x.scale * exponentBit + x.significand := by
  rw [significand, scale, exponentBit]
  omega

/-- Either the number is in the lowest range, or its significand has all its digits. -/
theorem significand_bounds :
    x.significand < 2 ^ 53 ∧ (x.scale = 0 ∨ 2 ^ 52 ≤ x.significand) := by
  rw [significand, scale, exponentBit]
  omega

theorem log2_ratio : (x.significand * 2 ^ x.scale).log2 - 52 = x.scale :=
  log2_mul_two_pow x.significand_bounds.1 x.significand_bounds.2

end

section

variable {x : Number} (hpos : x.isNegative = false) (hfin : x.isFinite = true)
include hpos hfin

omit hpos hfin in
theorem fits_of_fitting? (h : x.fitting? below above isBelowNearer = some d) :
    d.toNumber = x.abs := by
  unfold fitting? at h
  split at h
  · next hbelow =>
    cases h
    rw [Bool.and_eq_true] at hbelow
    exact eq_of_beq hbelow.1
  · split at h
    · next habove =>
      cases h
      exact eq_of_beq habove
    · cases h

/-- A number is the one nearest to itself. -/
theorem ofRatio_ratio : ofRatio x.ratio.1 x.ratio.2 = x := by
  have hunit : 0 < 2 ^ depth := Nat.two_pow_pos depth
  have hlog : (x.significand <<< x.scale).log2 - 52 = x.scale := by
    rw [Nat.shiftLeft_eq]
    exact x.log2_ratio
  have hscaled : x.significand <<< x.scale <<< depth = x.significand *
      (1 <<< depth <<< x.scale) := by
    simp only [Nat.shiftLeft_eq, Nat.one_mul, Nat.mul_assoc, Nat.mul_comm (2 ^ x.scale)]
  have hquotient : x.significand <<< x.scale <<< depth / 1 <<< depth =
      x.significand <<< x.scale := by
    rw [Nat.shiftLeft_eq _ depth, Nat.one_shiftLeft, Nat.mul_div_cancel _ hunit]
  have hpositive : 0 < 1 <<< depth <<< x.scale := by
    rw [Nat.one_shiftLeft, Nat.shiftLeft_eq]
    exact Nat.mul_pos hunit (Nat.two_pow_pos _)
  simp only [ratio, ofRatio]
  rw [hquotient, hlog, hscaled, roundDiv_mul_self _ hpositive, ← x.magnitude_eq]
  exact ofMagnitude_magnitude hpos hfin

theorem toNumber_exactDecimal : x.exactDecimal.toNumber = x := by
  have hten : ∀ n, Nat.pow 10 n = 1 <<< n * Nat.pow 5 n := fun n => by
    rw [Nat.one_shiftLeft]
    exact Nat.mul_pow 2 5 n
  have hfive : ∀ n, 0 < Nat.pow 5 n := fun n => Nat.pow_pos (by omega)
  rw [Decimal.toNumber, exactDecimal, Decimal.ratio_neg, hten]
  exact (ofRatio_mul_right x.ratio.1 x.ratio.2 (hfive depth)).trans (ofRatio_ratio hpos hfin)

omit hpos hfin in
theorem toNumber_of_decimalOf? (h : x.decimalOf? place digits = some d) : d.toNumber = x.abs := by
  unfold decimalOf? at h
  exact fits_of_fitting? h

theorem toNumber_decimal : x.decimal.toNumber = x := by
  have habs : x.abs = x := by rw [abs, hpos]; rfl
  unfold decimal
  by_cases hzero : x.isZero = true
  · have hmag : x.magnitude = 0 := by simpa [isZero] using hzero
    rw [if_pos hzero]
    have h : ofRatio 0 1 = ofMagnitude 0 := by
      simp [ofRatio, roundDiv]
    exact h.trans (hmag ▸ ofMagnitude_magnitude hpos hfin)
  · rw [if_neg hzero]
    cases hfound : (List.range' 1 17).findSome? (x.decimalOf? x.pointPlace) with
    | none => exact toNumber_exactDecimal hpos hfin
    | some d =>
      obtain ⟨digits, -, hd⟩ := List.exists_of_findSome?_eq_some hfound
      exact (toNumber_of_decimalOf? hd).trans habs

end

/-! ## Digits -/

theorem digitsValue_eq (ds : List Char) : digitsValue ds = Nat.ofDigitChars 10 ds 0 :=
  Nat.ofDigitChars_eq_foldl.symm

end Number

namespace Decimal

/-- Digits with a point and more digits behind them, if there are more. -/
def pointed (whole fraction : List Char) : List Char :=
  match fraction with
  | [] => whole
  | d :: ds => whole ++ '.' :: d :: ds

theorem pointed_of_ne_nil (whole : List Char) (h : fraction ≠ []) :
    pointed whole fraction = whole ++ '.' :: fraction := by
  obtain ⟨d, ds, rfl⟩ := List.exists_cons_of_ne_nil h
  rfl

variable (d : Decimal)

theorem isDigit_digits (hc : c ∈ d.digits) : Lexeme.isDigit c = true := by
  have h : c.isDigit = true := Nat.isDigit_of_mem_toDigits (by omega) (by omega) hc
  simpa [Char.isDigit, Lexeme.isDigit, Char.le_def] using h

theorem digitsValue_digits (n : Nat) :
    Number.digitsValue (List.replicate n '0' ++ d.digits) = d.coefficient := by
  rw [Number.digitsValue_eq, Nat.ofDigitChars_append, Nat.ofDigitChars_replicate_zero, Nat.mul_zero,
    digits, Nat.ofDigitChars_ten_toDigits]

/-- The positional text is digits with at most one point, and it is read as the same decimal. -/
theorem exists_positional :
    ∃ whole fraction, d.positional = pointed whole fraction ∧ whole ≠ [] ∧
      (∀ c ∈ whole, Lexeme.isDigit c = true) ∧ (∀ c ∈ fraction, Lexeme.isDigit c = true) ∧
      Number.ofDigits whole fraction = d.toNumber := by
  have hdigits : d.digits ≠ [] := Nat.toDigits_ne_nil
  have hzeros : ∀ n, ∀ c ∈ List.replicate n '0', Lexeme.isDigit c = true := by
    intro n c hc
    rw [List.eq_of_mem_replicate hc]
    rfl
  unfold positional positionalPieces toNumber ratio
  cases d.exponent with
  | ofNat e =>
    refine ⟨d.digits ++ List.replicate e '0', [], by simp [pointed], by simp [hdigits],
      ?_, by simp, ?_⟩
    · rw [List.forall_mem_append]
      exact ⟨fun c hc => d.isDigit_digits hc, hzeros e⟩
    · rw [Number.ofDigits, List.append_nil, Number.digitsValue_eq, Nat.ofDigitChars_append,
        Nat.ofDigitChars_replicate_zero, digits, Nat.ofDigitChars_ten_toDigits, Nat.mul_comm]
      rfl
  | negSucc e =>
    by_cases hlen : e + 1 < d.digits.length
    · have hfraction : (d.digits.drop (d.digits.length - (e + 1))).length = e + 1 := by
        rw [List.length_drop]
        omega
      refine ⟨d.digits.take (d.digits.length - (e + 1)), d.digits.drop (d.digits.length - (e + 1)),
        ?_, ?_, ?_, ?_, ?_⟩
      · dsimp only
        rw [if_pos hlen, pointed_of_ne_nil _ (by rw [← List.length_pos_iff]; omega)]
        simp
      · rw [← List.length_pos_iff, List.length_take]
        omega
      · exact fun c hc => d.isDigit_digits (List.mem_of_mem_take hc)
      · exact fun c hc => d.isDigit_digits (List.mem_of_mem_drop hc)
      · have hvalue := d.digitsValue_digits 0
        rw [List.replicate_zero, List.nil_append] at hvalue
        rw [Number.ofDigits, List.take_append_drop, hvalue, hfraction]
    · refine ⟨['0'], List.replicate (e + 1 - d.digits.length) '0' ++ d.digits, ?_, by simp,
        hzeros 1, ?_, ?_⟩
      · dsimp only
        rw [if_neg hlen, pointed_of_ne_nil _ (by simp [hdigits])]
        simp
      · rw [List.forall_mem_append]
        exact ⟨hzeros _, fun c hc => d.isDigit_digits hc⟩
      · rw [Number.ofDigits, ← List.append_assoc, List.singleton_append, ← List.replicate_succ,
          d.digitsValue_digits, List.length_append, List.length_replicate,
          Nat.sub_add_cancel (Nat.le_of_not_lt hlen)]

end Decimal

namespace Number

theorem isNegative_ofDigits (whole fraction : List Char) :
    (ofDigits whole fraction).isNegative = false :=
  isNegative_ofMagnitude _

theorem isNaN_of_isFinite {x : Number} (h : x.isFinite = true) : x.isNaN = false := by
  have hlt : x.magnitude < infinity := by simpa [isFinite] using h
  simpa [isNaN] using Nat.le_of_lt hlt

/-- The source text of a finite number without a sign. -/
theorem exists_sourceText {x : Number} (hpos : x.isNegative = false) (hfin : x.isFinite = true) :
    ∃ whole fraction, x.sourceText.toList = Decimal.pointed whole fraction ∧ whole ≠ [] ∧
      (∀ c ∈ whole, Lexeme.isDigit c = true) ∧ (∀ c ∈ fraction, Lexeme.isDigit c = true) ∧
      ofDigits whole fraction = x := by
  obtain ⟨whole, fraction, htext, hdigits⟩ := x.decimal.exists_positional
  rw [toNumber_decimal hpos hfin] at hdigits
  have hlt : x.magnitude < infinity := by simpa [isFinite] using hfin
  have hinf : x.isInfinite = false := by simpa [isInfinite] using Nat.ne_of_lt hlt
  refine ⟨whole, fraction, ?_, hdigits⟩
  simp [sourceText, isNaN_of_isFinite hfin, hinf, signed, hpos, htext]

theorem abs_neg (x : Number) : x.neg.abs = x.abs := by
  rw [abs, abs, isNegative_neg, neg_neg]
  cases x.isNegative <;> rfl

/-- Which decimal a number is written as does not depend on the sign. -/
theorem decimal_neg (x : Number) : x.neg.decimal = x.decimal := by
  have hscale : x.neg.scale = x.scale := by rw [scale, scale, magnitude_neg]
  have hsignificand : x.neg.significand = x.significand := by
    rw [significand, significand, magnitude_neg, hscale]
  have hratio : x.neg.ratio = x.ratio := by rw [ratio, ratio, hsignificand, hscale]
  have hfits : x.neg.fits = x.fits := by
    funext d
    rw [fits, fits, abs_neg]
  have hdecimalOf : x.neg.decimalOf? = x.decimalOf? := by
    funext place digits
    unfold decimalOf? fitting?
    rw [hratio, hfits]
  have hplace : x.neg.pointPlace = x.pointPlace := by rw [pointPlace, pointPlace, hratio]
  have hexact : x.neg.exactDecimal = x.exactDecimal := by
    rw [exactDecimal, exactDecimal, hsignificand, hscale]
  have hzero : x.neg.isZero = x.isZero := by rw [isZero, isZero, magnitude_neg]
  rw [decimal, decimal, hzero, hplace, hexact, hdecimalOf]

theorem sourceText_of_isNegative {x : Number} (h : x.isNegative = true) (hnan : x.isNaN = false) :
    x.sourceText = "-" ++ x.abs.sourceText := by
  have habs : x.abs = x.neg := by rw [abs, h, if_pos rfl]
  have hinfinite : x.neg.isInfinite = x.isInfinite := by rw [isInfinite, isInfinite, magnitude_neg]
  rw [sourceText, sourceText, habs, isNaN_neg, hnan, hinfinite, decimal_neg, signed, signed, signed,
    signed, isNegative_neg, h]
  cases x.isInfinite <;> rfl

end Number

end TreeWalk
