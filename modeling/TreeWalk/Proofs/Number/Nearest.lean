import TreeWalk.Proofs.Number.ReadBack

/-!
# The number nearest to a ratio

A ratio is rounded to the nearest number, a tie to the even one. Where a number would be too large,
the nearest one is taken as if exponents went on without end, and infinity stands for it.
-/

namespace TreeWalk

/-! ## Nearest multiples -/

/-- How far two naturals are apart. -/
def apart (a b : Nat) : Nat :=
  (a - b) + (b - a)

/-- A ratio is rounded down or up, and half way to the even neighbour. -/
theorem roundDiv_cases (n d : Nat) :
    (roundDiv n d = n / d ∧ 2 * (n % d) ≤ d ∧ (2 * (n % d) = d → n / d % 2 = 0)) ∨
      (roundDiv n d = n / d + 1 ∧ d ≤ 2 * (n % d) ∧ (2 * (n % d) = d → (n / d + 1) % 2 = 0)) := by
  unfold roundDiv
  dsimp only
  split
  · exact .inl ⟨rfl, by omega⟩
  · split
    · exact .inr ⟨rfl, by omega⟩
    · rcases Nat.mod_two_eq_zero_or_one (n / d) with heven | hodd
      · exact .inl ⟨by rw [heven, Nat.add_zero], by omega⟩
      · exact .inr ⟨by rw [hodd], by omega⟩

/-- No multiple of `d` is nearer to `n` than the one rounded to. If another is as near, this one is
even. -/
theorem apart_roundDiv (n : Nat) (hd : 0 < d) (j : Nat) :
    apart (roundDiv n d * d) n ≤ apart (j * d) n ∧
      (j ≠ roundDiv n d → apart (j * d) n = apart (roundDiv n d * d) n → roundDiv n d % 2 = 0) := by
  have hsplit := Nat.div_add_mod n d
  have hmod := Nat.mod_lt n hd
  have hnext : (n / d + 1) * d = n / d * d + d := Nat.succ_mul _ d
  rw [Nat.mul_comm d] at hsplit
  -- The neighbours of the ratio are `n / d` and `n / d + 1`; what is beyond them is further off by
  -- `d` at least.
  have hplace : j * d + d ≤ n / d * d ∨ j = n / d ∨ j = n / d + 1 ∨ n / d * d + d + d ≤ j * d := by
    rcases Nat.lt_or_ge j (n / d) with h | h
    · exact .inl (Nat.succ_mul j d ▸ Nat.mul_le_mul_right d h)
    · rcases Nat.lt_or_ge (n / d + 1) j with h' | h'
      · have hbeyond := Nat.mul_le_mul_right d h'
        rw [Nat.succ_mul, hnext] at hbeyond
        exact .inr (.inr (.inr hbeyond))
      · omega
  unfold apart
  rcases roundDiv_cases n d with ⟨hround, hhalf, htie⟩ | ⟨hround, hhalf, htie⟩ <;> rw [hround] <;>
    rcases hplace with h | rfl | rfl | h <;> omega

namespace Number

/-! ## Magnitudes -/

/-- The value of a magnitude as a multiple of the smallest step. -/
def units (m : Nat) : Nat :=
  (m - (m / exponentBit - 1) * exponentBit) <<< (m / exponentBit - 1)

/-- How far the value of a magnitude is from `n / d`, as a multiple of the smallest step over
`d`. -/
def distance (n d m : Nat) : Nat :=
  apart (units m * d) (n <<< depth)

/-- The number is the one nearest to `n / d`. -/
def Nearest (n d : Nat) (x : Number) : Prop :=
  ∃ m, x = ofMagnitude m ∧ (∀ k, distance n d m ≤ distance n d k) ∧
    ∀ k, k ≠ m → distance n d k = distance n d m → m % 2 = 0

theorem exists_units (m : Nat) :
    ∃ s q, m = s * exponentBit + q ∧ q < 2 ^ 53 ∧ (s = 0 ∨ 2 ^ 52 ≤ q) ∧ units m = q * 2 ^ s := by
  refine ⟨m / exponentBit - 1, m - (m / exponentBit - 1) * exponentBit, ?_, ?_, ?_,
    Nat.shiftLeft_eq _ _⟩
  all_goals
    rw [exponentBit]
    omega

/-- The significand `2 ^ 53` is that of `2 ^ 52` at the next scale. -/
theorem units_add (hq : q ≤ 2 ^ 53) (hs : s = 0 ∨ 2 ^ 52 ≤ q) :
    units (s * exponentBit + q) = q * 2 ^ s := by
  by_cases hfull : q = 2 ^ 53
  · have hscale : (s * exponentBit + q) / exponentBit - 1 = s + 1 := by
      rw [exponentBit]
      omega
    have hrest : s * exponentBit + q - (s + 1) * exponentBit = 2 ^ 52 := by
      rw [exponentBit]
      omega
    rw [units, hscale, hrest, Nat.shiftLeft_eq, Nat.pow_succ, hfull]
    omega
  · have hscale : (s * exponentBit + q) / exponentBit - 1 = s := by
      rw [exponentBit]
      omega
    rw [units, hscale, Nat.add_sub_cancel_left, Nat.shiftLeft_eq]

theorem units_injective (h : units k = units m) : k = m := by
  obtain ⟨s, q, rfl, hq, hs, hunits⟩ := exists_units k
  obtain ⟨s', q', rfl, hq', hs', hunits'⟩ := exists_units m
  rw [hunits, hunits'] at h
  have hlog := log2_mul_two_pow hq hs
  rw [h, log2_mul_two_pow hq' hs'] at hlog
  subst hlog
  rw [Nat.eq_of_mul_eq_mul_right (Nat.two_pow_pos s') h]

/-! ## Ratios -/

/-- The scale at which a ratio is rounded. -/
theorem scale_bounds (n d : Nat) :
    n / (d * 2 ^ ((n / d).log2 - 52)) < 2 ^ 53 ∧
      ((n / d).log2 - 52 = 0 ∨ 2 ^ 52 ≤ n / (d * 2 ^ ((n / d).log2 - 52))) := by
  generalize hs : (n / d).log2 - 52 = s
  rw [← Nat.div_div_eq_div_mul]
  constructor
  · rw [Nat.div_lt_iff_lt_mul (Nat.two_pow_pos s), ← Nat.pow_add]
    exact Nat.lt_of_lt_of_le Nat.lt_log2_self (Nat.pow_le_pow_right (by decide) (by omega))
  · by_cases hzero : s = 0
    · exact .inl hzero
    · have hne : n / d ≠ 0 := by
        intro h
        rw [h, Nat.log2_zero] at hs
        omega
      refine .inr ((Nat.le_div_iff_mul_le (Nat.two_pow_pos s)).mpr ?_)
      rw [← Nat.pow_add, show 52 + s = (n / d).log2 by omega]
      exact Nat.log2_self_le hne

/-- At a lower scale no value comes near. -/
theorem distance_of_scale_lt (hs : s < e) (hq : q < 2 ^ 53) (hn : 2 ^ 52 * (d * 2 ^ e) ≤ n)
    (hd : 0 < d) :
    apart (2 ^ 52 * (d * 2 ^ e)) n < apart (q * 2 ^ s * d) n := by
  have hpow : 2 * 2 ^ s ≤ 2 ^ e := by
    rw [Nat.mul_comm, ← Nat.pow_succ]
    exact Nat.pow_le_pow_right (by decide) hs
  have hlt : q * 2 ^ s * d < 2 ^ 52 * (d * 2 ^ e) :=
    calc q * 2 ^ s * d < 2 ^ 53 * 2 ^ s * d :=
          Nat.mul_lt_mul_of_pos_right (Nat.mul_lt_mul_of_pos_right hq (Nat.two_pow_pos s)) hd
      _ = 2 ^ 52 * (d * (2 * 2 ^ s)) := by
        rw [Nat.pow_succ 2 52, Nat.mul_comm d]
        simp only [Nat.mul_assoc]
      _ ≤ 2 ^ 52 * (d * 2 ^ e) := Nat.mul_le_mul_left _ (Nat.mul_le_mul_left _ hpow)
  unfold apart
  omega

theorem nearest_ofRatio (n : Nat) (hd : 0 < d) : Nearest n d (ofRatio n d) := by
  obtain ⟨hhigh, hlow⟩ := scale_bounds (n <<< depth) d
  unfold Nearest ofRatio distance
  dsimp only
  generalize n <<< depth = n at hhigh hlow
  generalize (n / d).log2 - 52 = e at hhigh hlow
  rw [Nat.shiftLeft_eq]
  have hunit : 0 < d * 2 ^ e := Nat.mul_pos hd (Nat.two_pow_pos e)
  have hround := apart_roundDiv n hunit
  have hsize : roundDiv n (d * 2 ^ e) ≤ 2 ^ 53 ∧ (e = 0 ∨ 2 ^ 52 ≤ roundDiv n (d * 2 ^ e)) := by
    rcases roundDiv_cases n (d * 2 ^ e) with ⟨h, -⟩ | ⟨h, -⟩ <;> omega
  generalize roundDiv n (d * 2 ^ e) = r at hround hsize
  have hunits := units_add hsize.1 hsize.2
  have hvalue : ∀ j, j * 2 ^ e * d = j * (d * 2 ^ e) := fun j => by
    rw [Nat.mul_assoc, Nat.mul_comm d]
  -- Another value stands on the same grid, or it is below all that are near.
  have hother : ∀ k, (∃ j, units k = j * 2 ^ e) ∨
      apart (r * (d * 2 ^ e)) n < apart (units k * d) n := by
    intro k
    obtain ⟨s, q, -, hq, -, hk⟩ := exists_units k
    rw [hk]
    by_cases hs : e ≤ s
    · refine .inl ⟨q * 2 ^ (s - e), ?_⟩
      rw [Nat.mul_assoc, ← Nat.pow_add, Nat.sub_add_cancel hs]
    · have hfull : 2 ^ 52 * (d * 2 ^ e) ≤ n :=
        (Nat.le_div_iff_mul_le hunit).mp (hlow.resolve_left (by omega))
      exact .inr
        (Nat.lt_of_le_of_lt (hround (2 ^ 52)).1 (distance_of_scale_lt (by omega) hq hfull hd))
  refine ⟨_, rfl, fun k => ?_, fun k hne htie => ?_⟩
  · rw [hunits, hvalue]
    rcases hother k with ⟨j, hj⟩ | hfar
    · rw [hj, hvalue]
      exact (hround j).1
    · exact Nat.le_of_lt hfar
  · rw [hunits, hvalue] at htie
    rcases hother k with ⟨j, hj⟩ | hfar
    · rw [hj, hvalue] at htie
      have heven := (hround j).2 (fun h => hne (units_injective (by rw [hj, hunits, h]))) htie
      rw [exponentBit]
      omega
    · exact absurd htie (Nat.ne_of_gt hfar)

theorem nearest_ofDigits (whole fraction : List Char) :
    Nearest (digitsValue (whole ++ fraction)) (Nat.pow 10 fraction.length)
      (ofDigits whole fraction) :=
  nearest_ofRatio _ (Nat.pow_pos (by decide))

end Number

end TreeWalk
