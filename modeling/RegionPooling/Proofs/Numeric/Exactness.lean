import RegionPooling.Proofs.Numeric.Spacing

/-!
# Exact products

A single number is a double number, and so is the product of two of them: two short significands
multiply to less than a full long one, and the product of the least single numbers is still far
above the least double number. Main statements: neither the conversion nor the product is rounded,
subnormal and huge numbers included; and rounding to the grid gives the nearest whole number to the
value, halves away from zero, within the ends of the grid.
-/

namespace RegionPooling

namespace Format

variable {f : Format} {u v : ℕ}

private theorem Representable.exists_significand (h : f.Representable u) :
    ∃ m e, u = m * twoPow e ∧ m < twoPow f.precision := by
  obtain ⟨m, hm⟩ := Nat.dvd_of_mod_eq_zero h.2
  refine ⟨m, _, hm.trans (Nat.mul_comm _ _), ?_⟩
  have hlt : f.step u * m < f.step u * twoPow f.precision := by
    rw [← hm]
    exact lt_step_mul_twoPow u
  exact Nat.lt_of_mul_lt_mul_left hlt

/-- The number one in units of double numbers, by its units as a single number. -/
theorem one_double : double.one = twoPow 925 * single.one := by
  rw [one, one, ← twoPow_add]
  rfl

/-- Single numbers counted in units of double ones are double numbers. -/
theorem Representable.widen (h : single.Representable u) :
    double.Representable (u * twoPow 925) := by
  obtain ⟨m, e, rfl, hm⟩ := h.exists_significand
  have hprecision : twoPow single.precision ≤ twoPow double.precision := by decide
  have hlimit : twoPow single.limitBits * twoPow 925 ≤ twoPow double.limitBits := by
    decide +kernel
  refine ⟨lt_of_lt_of_le (Nat.mul_lt_mul_of_pos_right h.1 (twoPow_pos _)) hlimit, ?_⟩
  rw [Nat.mul_assoc, ← twoPow_add]
  exact mod_step_eq_zero (le_trans hm.le hprecision)

/-- Products of single numbers counted in units of double ones are double numbers. -/
theorem Representable.product (hu : single.Representable u) (hv : single.Representable v) :
    double.Representable (u * v * twoPow 776) := by
  obtain ⟨m, e, rfl, hm⟩ := hu.exists_significand
  obtain ⟨n, k, rfl, hn⟩ := hv.exists_significand
  have hprecision : twoPow single.precision * twoPow single.precision ≤
      twoPow double.precision := by decide
  have hlimit : twoPow single.limitBits * twoPow single.limitBits * twoPow 776 ≤
      twoPow double.limitBits := by decide +kernel
  constructor
  · apply lt_of_lt_of_le _ hlimit
    exact Nat.mul_lt_mul_of_pos_right (Nat.mul_lt_mul'' hu.1 hv.1) (twoPow_pos _)
  · have hsplit : m * twoPow e * (n * twoPow k) * twoPow 776 =
        m * n * twoPow (e + k + 776) := by
      rw [twoPow_add, twoPow_add]
      ring
    rw [hsplit]
    exact mod_step_eq_zero (le_trans (Nat.mul_lt_mul'' hm hn).le hprecision)

end Format

namespace Binary

variable {f : Format}

/-- Rational value of a finite number. -/
def value : Binary f → ℚ
  | finite negative units _ => signed negative units / f.one
  | _ => 0

section

variable {s t : Bool} {u v : ℕ} (hu : Format.single.Representable u)
  (hv : Format.single.Representable v)

/-- A single number is converted to the double number with the same value. -/
theorem convert_single : (convert (finite s u hu) : Binary .double) =
    finite s (u * twoPow 925) hu.widen := by
  rw [convert, Format.one_double, ← Nat.mul_assoc]
  exact ofRatio_mul_right s hu.widen Format.single.one_pos

/-- The product of single numbers is not rounded as a double number. -/
theorem mul_convert_single :
    (convert (finite s u hu) : Binary .double).mul (convert (finite t v hv)) =
      finite (s != t) (u * v * twoPow 776) (hu.product hv) := by
  have hunits : u * twoPow 925 * (v * twoPow 925) = u * v * twoPow 776 * Format.double.one := by
    have hpow : twoPow 925 * twoPow 925 = twoPow 776 * Format.double.one := by
      rw [Format.one, ← twoPow_add, ← twoPow_add]
      rfl
    calc u * twoPow 925 * (v * twoPow 925)
      _ = u * v * (twoPow 925 * twoPow 925) := by ring
      _ = u * v * twoPow 776 * Format.double.one := by rw [hpow, ← Nat.mul_assoc]
  rw [convert_single hu, convert_single hv, mul, hunits]
  exact ofRatio_mul_right _ (hu.product hv) Format.double.one_pos

end

private theorem signed_mul_mul (s t : Bool) (m n k : ℕ) :
    signed (s != t) (m * n * k) = signed s m * signed t n * k := by
  cases s <;> cases t <;> simp [signed]

/-- The double product of finite single numbers is finite, and its value is the product of the
values. -/
theorem mul_convert_exact {x y : Binary .single} (hx : x.isFinite = true) (hy : y.isFinite = true) :
    ((convert x : Binary .double).mul (convert y)).isFinite = true ∧
      ((convert x : Binary .double).mul (convert y)).value = x.value * y.value := by
  cases x with
  | nan => cases hx
  | infinity s => cases hx
  | finite s u hu =>
    cases y with
    | nan => cases hy
    | infinity t => cases hy
    | finite t v hv =>
      rw [mul_convert_single hu hv]
      refine ⟨rfl, ?_⟩
      have hone : Format.double.one = Format.single.one * Format.single.one * twoPow 776 := by
        rw [Format.one, Format.one, ← twoPow_add, ← twoPow_add]
        rfl
      have hpow : (0 : ℚ) < twoPow 776 := twoPow_pos_rat _
      have ho := Format.single.one_pos_rat
      unfold value
      dsimp only
      rw [hone, signed_mul_mul]
      push_cast
      field_simp

end Binary

/-- A whole number nearest to a rational number; of two that are half away it is the one further
from zero. -/
structure IsNearestAway (q : ℚ) (n : ℤ) : Prop where
  near : |q - n| ≤ 1 / 2
  away : |q - n| = 1 / 2 → |q| < |(n : ℚ)|

namespace IsNearestAway

variable {q : ℚ} {m n : ℤ}

/-- Rounding does not depend on the sign. -/
theorem neg (h : IsNearestAway q n) : IsNearestAway (-q) (-n) := by
  have hdist : |-q - (-n : ℤ)| = |q - n| := by
    rw [Int.cast_neg, neg_sub_neg, abs_sub_comm]
  refine ⟨hdist.le.trans h.near, fun htie ↦ ?_⟩
  rw [abs_neg, Int.cast_neg, abs_neg]
  exact h.away (hdist.symm.trans htie)

/-- Of two neighbours that are both half away, one is not further from zero. -/
theorem le (hm : IsNearestAway q m) (hn : IsNearestAway q n) : n ≤ m := by
  by_contra hlt
  have hnext : (m : ℚ) + 1 ≤ n := by exact_mod_cast not_le.1 hlt
  have hbelow := (abs_le.1 hm.near).2
  have habove := (abs_le.1 hn.near).1
  have hq : q = m + 1 / 2 := by linarith
  have hn' : (n : ℚ) = m + 1 := by linarith
  have haway : |q| < |(m : ℚ)| := by
    apply hm.away
    rw [hq, add_sub_cancel_left]
    norm_num
  have haway' : |q| < |(n : ℚ)| := by
    apply hn.away
    rw [hq, hn', add_sub_add_left_eq_sub]
    norm_num
  rw [hq] at haway haway'
  rcases le_or_gt 0 m with hpos | hneg
  · have hm0 : (0 : ℚ) ≤ m := by exact_mod_cast hpos
    rw [abs_of_nonneg hm0, abs_of_nonneg (by linarith)] at haway
    linarith
  · have hm1 : (m : ℚ) + 1 ≤ 0 := by exact_mod_cast hneg
    rw [hn', abs_of_nonpos hm1, abs_of_nonpos (by linarith)] at haway'
    linarith

/-- Every rational number is rounded to one whole number. -/
theorem unique (hm : IsNearestAway q m) (hn : IsNearestAway q n) : m = n :=
  le_antisymm (hn.le hm) (hm.le hn)

end IsNearestAway

/-- Adding a half and rounding down is rounding to the nearest, for a fraction that is not
negative. -/
theorem isNearestAway_roundHalf (u : ℕ) {o : ℕ} (ho : 0 < o) :
    IsNearestAway (u / o) ((2 * u + o) / (2 * o) : ℕ) := by
  have ho' : (0 : ℚ) < o := by exact_mod_cast ho
  have hlow := Nat.div_mul_le_self (2 * u + o) (2 * o)
  have hhigh := Nat.lt_div_mul_add (a := 2 * u + o) (show 0 < 2 * o by omega)
  generalize (2 * u + o) / (2 * o) = r at hlow hhigh ⊢
  have hbelow : (r : ℚ) - 1 / 2 ≤ u / o := by
    rw [le_div_iff₀ ho']
    have hcast : (r : ℚ) * (2 * o) ≤ 2 * u + o := by exact_mod_cast hlow
    linarith
  have habove : (u : ℚ) / o < r + 1 / 2 := by
    rw [div_lt_iff₀ ho']
    have hcast : (2 : ℚ) * u + o < r * (2 * o) + 2 * o := by exact_mod_cast hhigh
    linarith
  constructor
  · rw [Int.cast_natCast, abs_le]
    constructor <;> linarith
  · intro htie
    rw [Int.cast_natCast] at htie ⊢
    -- the fraction is less than half above the whole number, so that a tie lies below it
    rcases abs_choice ((u : ℚ) / o - r) with heq | heq
    · rw [heq] at htie
      linarith
    · rw [heq] at htie
      rw [abs_of_nonneg (by positivity), abs_of_nonneg (by positivity)]
      linarith

/-- Rounding a finite number to the grid gives the nearest whole number, halves away from zero,
within the ends of the grid. -/
theorem Binary.exists_roundGrid_eq {f : Format} {x : Binary f} (h : x.isFinite = true) :
    ∃ n, IsNearestAway x.value n ∧ x.roundGrid = saturate n := by
  cases x with
  | nan => cases h
  | infinity s => cases h
  | finite s u hu =>
    refine ⟨signed s ((2 * u + f.one) / (2 * f.one)), ?_, rfl⟩
    have hround := isNearestAway_roundHalf u f.one_pos
    cases s with
    | false => exact hround
    | true =>
      have hvalue : (finite true u hu).value = -((u : ℚ) / f.one) := by
        simp only [value, signed, if_true, Int.cast_neg, Int.cast_natCast, neg_div]
      rw [hvalue]
      exact hround.neg

end RegionPooling
