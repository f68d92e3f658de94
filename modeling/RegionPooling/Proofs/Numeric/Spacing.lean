import RegionPooling.Proofs.Numeric.Nearest
import RegionPooling.Numeric.Binary

/-!
# Spacing of floating-point numbers

Neighbouring numbers of a format are a step apart, and a step is more than a full significand's
share of the magnitude. Main statements: a number below another one stays at most the other one when
it is enlarged by its share; grid coordinates that come from numbers of the format are numbers of
the format, unless they are above zero.
-/

namespace RegionPooling

namespace Format

variable {f : Format}

private theorem exists_units_of_nearest_eq {x : ℚ} (h : f.nearest x = x) :
    ∃ u : ℕ, x = u / f.one ∧ f.step u ∣ u := by
  refine ⟨f.roundRatio (x.num.toNat * f.one) x.den, h.symm, ?_⟩
  exact Nat.dvd_of_mod_eq_zero (mod_step_eq_zero (f.roundDiv_step_le _ _))

private theorem add_step_le {u v : ℕ} (hu : f.step u ∣ u) (hv : f.step v ∣ v) (h : u < v) :
    u + f.step u ≤ v := by
  have hstep : f.step u ∣ v := dvd_trans (step_dvd_step (log2_le_log2 h.le)) hv
  have hle := Nat.le_of_dvd (Nat.sub_pos_of_lt h) (Nat.dvd_sub hstep hu)
  omega

/-- A magnitude is less than a full significand of its steps. -/
theorem lt_step_mul_twoPow (u : ℕ) : u < f.step u * twoPow f.precision := by
  rcases Nat.eq_zero_or_pos u with rfl | hu
  · exact Nat.mul_pos (f.step_pos 0) (twoPow_pos _)
  · have hlt : u < twoPow (u.log2 + 1) := (log2_lt_iff hu.ne').1 (Nat.lt_succ_self _)
    apply lt_of_lt_of_le hlt
    rw [step, ← twoPow_add]
    exact Nat.le_of_dvd (twoPow_pos _) (twoPow_dvd_twoPow (by omega))

/-- A number of the format that is below another one stays at or below it when it is enlarged by its
share of a full significand. -/
theorem add_div_twoPow_le {x y : ℚ} (hx : f.nearest x = x) (hy : f.nearest y = y) (h : x < y) :
    x + x / twoPow f.precision ≤ y := by
  have ho := f.one_pos_rat
  have hp : (0 : ℚ) < twoPow f.precision := twoPow_pos_rat _
  obtain ⟨u, rfl, hu⟩ := exists_units_of_nearest_eq hx
  obtain ⟨v, rfl, hv⟩ := exists_units_of_nearest_eq hy
  have huv : u < v := by
    rw [div_lt_div_iff_of_pos_right ho] at h
    exact_mod_cast h
  have hgap : (u : ℚ) + f.step u ≤ v := by exact_mod_cast add_step_le hu hv huv
  have hshare : (u : ℚ) / twoPow f.precision ≤ f.step u := by
    rw [div_le_iff₀ hp]
    exact_mod_cast (lt_step_mul_twoPow u).le
  calc (u : ℚ) / f.one + u / f.one / twoPow f.precision
    _ = (u + u / twoPow f.precision) / f.one := by
      rw [div_right_comm]
      ring
    _ ≤ v / f.one := by
      apply div_le_div_of_nonneg_right _ ho.le
      linarith

private theorem nearest_div_one {u : ℕ} (h : f.Representable u) :
    f.nearest (u / f.one) = u / f.one := by
  have hround := roundRatio_div_one (f := f) u Nat.one_pos
  rw [roundRatio_of_representable h, Nat.cast_one, one_mul] at hround
  exact hround.symm

private theorem nearest_roundHalf {u : ℕ} (h : f.Representable u) :
    f.nearest ((2 * u + f.one) / (2 * f.one) : ℕ) = ((2 * u + f.one) / (2 * f.one) : ℕ) := by
  have ho := f.one_pos
  by_cases hsmall : u < twoPow f.precision * f.one
  · -- a small magnitude is rounded to at most a full significand
    apply nearest_natCast
    rw [← Nat.lt_succ_iff, Nat.div_lt_iff_lt_mul (by omega)]
    nlinarith
  · -- a large magnitude is whole already
    have hu : u ≠ 0 := by
      have hpos := Nat.mul_pos (twoPow_pos f.precision) ho
      omega
    have hlog : f.precision + f.unitBits ≤ u.log2 := by
      apply Nat.le_of_not_lt
      intro hlt
      have hpow := (log2_lt_iff hu).1 hlt
      rw [twoPow_add] at hpow
      exact hsmall hpow
    have hdvd : f.one ∣ u := by
      apply dvd_trans _ (Nat.dvd_of_mod_eq_zero h.2)
      exact twoPow_dvd_twoPow (by omega)
    obtain ⟨n, rfl⟩ := hdvd
    have hn : (2 * (f.one * n) + f.one) / (2 * f.one) = n := by
      have heq : 2 * (f.one * n) + f.one = f.one + 2 * f.one * n := by ring
      rw [heq, Nat.add_mul_div_left _ _ (by omega), Nat.div_eq_of_lt (by omega), Nat.zero_add]
    have hround := nearest_div_one h
    have ho' := f.one_pos_rat
    have hcast : ((f.one * n : ℕ) : ℚ) / f.one = n := by
      push_cast
      field_simp
    rw [hcast] at hround
    rw [hn]
    exact hround

end Format

namespace Binary

variable {f : Format}

private theorem nearest_natAbs_gridMin : f.nearest gridMin.natAbs = gridMin.natAbs :=
  Format.nearest_twoPow 63

/-- A grid coordinate that is not above zero is, without its sign, a number of the format. -/
theorem nearest_natAbs_roundGrid {x : Binary f} (h : x.roundGrid ≤ 0) :
    f.nearest x.roundGrid.natAbs = x.roundGrid.natAbs := by
  have hzero : f.nearest (0 : ℕ) = (0 : ℕ) := Format.nearest_natCast (Nat.zero_le _)
  match x, h with
  | nan, _ => exact nearest_natAbs_gridMin
  | infinity true, _ => exact nearest_natAbs_gridMin
  | infinity false, h => exact absurd (show gridMax ≤ 0 from h) (by decide)
  | finite negative u hu, h =>
    have hround := Format.nearest_roundHalf hu
    have hgrid : (finite negative u hu).roundGrid =
        saturate (signed negative ((2 * u + f.one) / (2 * f.one))) := rfl
    rw [hgrid] at h ⊢
    generalize (2 * u + f.one) / (2 * f.one) = n at h hround ⊢
    cases negative with
    | false =>
      have hn : saturate (signed false n) = 0 := by
        simp only [signed, saturate, gridMin, gridMax, Bool.false_eq_true, if_false] at h ⊢
        omega
      rw [hn]
      exact hzero
    | true =>
      by_cases hn : n ≤ gridMin.natAbs
      · have heq : (saturate (signed true n)).natAbs = n := by
          simp only [signed, saturate, gridMin, gridMax, if_true] at hn ⊢
          omega
        rw [heq]
        exact hround
      · have heq : saturate (signed true n) = gridMin := by
          simp only [signed, saturate, gridMin, gridMax, if_true] at hn ⊢
          omega
        rw [heq]
        exact nearest_natAbs_gridMin

end Binary

end RegionPooling
