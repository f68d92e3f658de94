import Mathlib.Data.Nat.Cast.Order.Field
import Mathlib.Data.Rat.Floor
import Mathlib.Tactic.FieldSimp
import Mathlib.Tactic.Linarith
import Mathlib.Tactic.NormNum
import Mathlib.Tactic.Positivity
import RegionPooling.Numeric.Format

/-!
# Rounding of rational numbers

`Format.nearest` is the number of a format nearest to a rational number, ties going to even; below
zero it is zero. It depends on the rational alone and not on the fraction that presents it.
Main statements: rounding keeps order, leaves the grid of the format alone, and moves a number of
normal size by a relative error of at most half a unit in the last place.
-/

namespace RegionPooling

/-- Powers of two are positive. -/
theorem twoPow_pos_rat (e : ℕ) : (0 : ℚ) < twoPow e := by exact_mod_cast twoPow_pos e

private theorem roundDiv_le_roundDiv {a b c d : ℕ} (hb : 0 < b) (hd : 0 < d) (h : a * d ≤ c * b) :
    roundDiv a b ≤ roundDiv c d := by
  rw [← roundDiv_mul_mul a b hd, ← roundDiv_mul_mul c d hb, Nat.mul_comm b d]
  apply roundDiv_mono
  rw [Nat.mul_comm d a, Nat.mul_comm b c]
  exact h

namespace Format

variable {f : Format}

/-- A larger magnitude has a step at least as large. -/
theorem step_dvd_step {u v : ℕ} (h : u.log2 ≤ v.log2) : f.step u ∣ f.step v :=
  twoPow_dvd_twoPow (by omega)

private theorem step_dvd_twoPow_log2 (u : ℕ) : f.step u ∣ twoPow u.log2 := by
  have hp := f.precision_pos
  exact twoPow_dvd_twoPow (by omega)

private theorem le_roundRatio_of_dvd {g num den : ℕ} (hd : 0 < den) (hg : f.step (num / den) ∣ g)
    (h : g * den ≤ num) : g ≤ f.roundRatio num den := by
  obtain ⟨m, rfl⟩ := hg
  have hs := f.step_pos (num / den)
  have hm : m ≤ num / (den * f.step (num / den)) := by
    rw [Nat.le_div_iff_mul_le (Nat.mul_pos hd hs)]
    calc m * (den * f.step (num / den))
      _ = f.step (num / den) * m * den := by ring
      _ ≤ num := h
  rw [roundRatio, Nat.mul_comm]
  exact Nat.mul_le_mul_right _ (le_trans hm (div_le_roundDiv _ _))

private theorem roundRatio_le_of_dvd {g num den : ℕ} (hd : 0 < den) (hg : f.step (num / den) ∣ g)
    (h : num ≤ g * den) : f.roundRatio num den ≤ g := by
  obtain ⟨m, rfl⟩ := hg
  have hs := f.step_pos (num / den)
  have hm : roundDiv num (den * f.step (num / den)) ≤ m := by
    rw [← roundDiv_mul_right m _ (Nat.mul_pos hd hs)]
    apply roundDiv_mono
    calc num
      _ ≤ f.step (num / den) * m * den := h
      _ = m * (den * f.step (num / den)) := by ring
  rw [roundRatio, Nat.mul_comm]
  exact Nat.mul_le_mul_left _ hm

/-- Rounding keeps the order of quotients. -/
theorem roundRatio_le_roundRatio {a b c d : ℕ} (hb : 0 < b) (hd : 0 < d) (h : a * d ≤ c * b) :
    f.roundRatio a b ≤ f.roundRatio c d := by
  have hq : a / b ≤ c / d := by
    rw [Nat.le_div_iff_mul_le hd]
    apply Nat.le_of_mul_le_mul_right _ hb
    calc a / b * d * b
      _ = a / b * b * d := by ring
      _ ≤ a * d := Nat.mul_le_mul_right d (Nat.div_mul_le_self a b)
      _ ≤ c * b := h
  have hl := log2_le_log2 hq
  rcases Nat.lt_or_eq_of_le hl with hlt | heq
  · -- a power of two lies between the quotients, and it is on both grids
    have hc : c / d ≠ 0 := by
      intro hz
      rw [hz, Nat.log2_zero] at hlt
      omega
    have hlow : twoPow (c / d).log2 ≤ c / d := Nat.log2_self_le hc
    have hhigh : a / b < twoPow (c / d).log2 := by
      by_cases ha : a / b = 0
      · rw [ha]
        exact twoPow_pos _
      · exact (log2_lt_iff ha).1 hlt
    calc f.roundRatio a b
      _ ≤ twoPow (c / d).log2 := by
        apply roundRatio_le_of_dvd hb
        · exact dvd_trans (step_dvd_step hl) (step_dvd_twoPow_log2 _)
        · exact le_of_lt ((Nat.div_lt_iff_lt_mul hb).1 hhigh)
      _ ≤ f.roundRatio c d := by
        apply le_roundRatio_of_dvd hd (step_dvd_twoPow_log2 _)
        exact (Nat.le_div_iff_mul_le hd).1 hlow
  · -- one grid on both sides
    have hs : f.step (c / d) = f.step (a / b) := by rw [step, step, heq]
    have hp := f.step_pos (a / b)
    simp only [roundRatio, hs]
    apply Nat.mul_le_mul_right
    apply roundDiv_le_roundDiv (Nat.mul_pos hb hp) (Nat.mul_pos hd hp)
    rw [← Nat.mul_assoc, ← Nat.mul_assoc]
    exact Nat.mul_le_mul_right _ h

private theorem two_mul_abs_roundRatio_sub_le (num : ℕ) {den : ℕ} (hd : 0 < den) :
    2 * |(f.roundRatio num den : ℚ) - num / den| ≤ f.step (num / den) := by
  have hs := f.step_pos (num / den)
  have hpos := Nat.mul_pos hd hs
  have hup := two_mul_roundDiv_mul_le num (den * f.step (num / den))
  have hlow := two_mul_le_roundDiv_mul num (den * f.step (num / den)) hpos
  have heq : roundDiv num (den * f.step (num / den)) * (den * f.step (num / den)) =
      f.roundRatio num den * den := by
    rw [roundRatio]
    ring
  rw [heq] at hup hlow
  have hden : (0 : ℚ) < den := by exact_mod_cast hd
  have hup' : 2 * ((f.roundRatio num den : ℚ) * den) ≤ 2 * num + den * f.step (num / den) := by
    exact_mod_cast hup
  have hlow' : 2 * (num : ℚ) ≤ 2 * (f.roundRatio num den * den) + den * f.step (num / den) := by
    exact_mod_cast hlow
  have hnum : (num : ℚ) = num / den * den := by field_simp
  have habs : |(f.roundRatio num den : ℚ) - num / den| ≤ f.step (num / den) / 2 := by
    rw [abs_le]
    constructor
    · nlinarith
    · nlinarith
  linarith

/-- The number of the format nearest to a rational number; below zero it is zero. -/
def nearest (f : Format) (x : ℚ) : ℚ :=
  f.roundRatio (x.num.toNat * f.one) x.den / f.one

/-- One is a positive number of units. -/
theorem one_pos_rat (f : Format) : (0 : ℚ) < f.one := by exact_mod_cast f.one_pos

private theorem units_div_den (f : Format) {x : ℚ} (hx : 0 ≤ x) :
    ((x.num.toNat * f.one : ℕ) : ℚ) / x.den = x * f.one := by
  have hnum : (x.num.toNat : ℚ) = x.num := by
    exact_mod_cast Int.toNat_of_nonneg (Rat.num_nonneg.2 hx)
  rw [Nat.cast_mul, hnum, mul_div_right_comm, Rat.num_div_den]

/-- Rounding a quotient of units gives the nearest number, whatever fraction presents it. -/
theorem roundRatio_div_one (num : ℕ) {den : ℕ} (hd : 0 < den) :
    (f.roundRatio num den : ℚ) / f.one = f.nearest (num / (den * f.one)) := by
  have ho := f.one_pos_rat
  have hden : (0 : ℚ) < den := by exact_mod_cast hd
  generalize hx : (num : ℚ) / (den * f.one) = x
  have hx0 : 0 ≤ x := by
    rw [← hx]
    positivity
  have hxd : (0 : ℚ) < x.den := by exact_mod_cast x.den_pos
  have hcross : x.num.toNat * f.one * den = num * x.den := by
    have hunits : ((x.num.toNat * f.one : ℕ) : ℚ) / x.den = num / den := by
      rw [units_div_den f hx0, ← hx]
      field_simp
    rw [div_eq_div_iff hxd.ne' hden.ne'] at hunits
    exact_mod_cast hunits
  rw [nearest]
  congr 2
  apply Nat.le_antisymm
  · exact roundRatio_le_roundRatio hd x.den_pos hcross.ge
  · exact roundRatio_le_roundRatio x.den_pos hd hcross.le

/-- Rounding keeps order. -/
theorem nearest_mono (f : Format) : Monotone f.nearest := by
  intro x y h
  have ho := f.one_pos_rat
  apply div_le_div_of_nonneg_right _ ho.le
  apply Nat.cast_le.2
  apply roundRatio_le_roundRatio x.den_pos y.den_pos
  have hnum : x.num.toNat * y.den ≤ y.num.toNat * x.den := by
    have := Rat.le_iff x y
    have hcross : x.num * y.den ≤ y.num * x.den := this.1 h
    by_cases hx : 0 ≤ x.num
    · have hy : 0 ≤ y.num := Rat.num_nonneg.2 (le_trans (Rat.num_nonneg.1 hx) h)
      zify
      rwa [Int.toNat_of_nonneg hx, Int.toNat_of_nonneg hy]
    · rw [Int.toNat_of_nonpos (by omega)]
      omega
  calc x.num.toNat * f.one * y.den
    _ = x.num.toNat * y.den * f.one := by ring
    _ ≤ y.num.toNat * x.den * f.one := Nat.mul_le_mul_right _ hnum
    _ = y.num.toNat * f.one * x.den := by ring

/-- Rounding never goes below zero. -/
theorem nearest_nonneg (f : Format) (x : ℚ) : 0 ≤ f.nearest x := by
  have ho := f.one_pos_rat
  rw [nearest]
  positivity

/-- A significand shifted by whole binades is a number of the format. -/
theorem nearest_of_significand {m : ℕ} (k : ℕ) (hm : m ≤ twoPow f.precision) :
    f.nearest ((m * twoPow k : ℕ) / f.one) = (m * twoPow k : ℕ) / f.one := by
  have hgrid := mod_step_eq_zero (f := f) (k := k) hm
  have hround : f.roundRatio (m * twoPow k) 1 = m * twoPow k := by
    apply Nat.le_antisymm
    · apply roundRatio_le_of_dvd Nat.one_pos _ (by omega)
      rw [Nat.div_one]
      exact Nat.dvd_of_mod_eq_zero hgrid
    · apply le_roundRatio_of_dvd Nat.one_pos _ (by omega)
      rw [Nat.div_one]
      exact Nat.dvd_of_mod_eq_zero hgrid
  have h := roundRatio_div_one (f := f) (m * twoPow k) Nat.one_pos
  rw [hround, Nat.cast_one, one_mul] at h
  exact h.symm

/-- A rounded number is not changed by rounding again. -/
theorem nearest_nearest (x : ℚ) : f.nearest (f.nearest x) = f.nearest x := by
  have h := f.roundDiv_step_le (x.num.toNat * f.one) x.den
  exact nearest_of_significand _ h

/-- Whole numbers up to a full significand are numbers of the format. -/
theorem nearest_natCast {n : ℕ} (h : n ≤ twoPow f.precision) : f.nearest n = n := by
  have ho := f.one_pos_rat
  have hn : (n : ℚ) = (n * twoPow f.unitBits : ℕ) / f.one := by
    rw [one] at ho ⊢
    push_cast
    field_simp
  rw [hn]
  exact nearest_of_significand _ h

/-- Halves of whole numbers up to a full significand are numbers of the format. -/
theorem nearest_half {n : ℕ} (h : n ≤ twoPow f.precision) : f.nearest (n / 2) = n / 2 := by
  have hu : (0 : ℚ) < twoPow (f.unitBits - 1) := twoPow_pos_rat _
  have hone : f.one = twoPow (f.unitBits - 1) * 2 := by
    have hpos : f.unitBits = f.unitBits - 1 + 1 := by cases f <;> rfl
    rw [one, hpos, twoPow_add]
    rfl
  have hn : (n : ℚ) / 2 = (n * twoPow (f.unitBits - 1) : ℕ) / f.one := by
    rw [hone]
    push_cast
    field_simp
  rw [hn]
  exact nearest_of_significand _ h

/-- Powers of two are numbers of the format. -/
theorem nearest_twoPow (e : ℕ) : f.nearest (twoPow e) = twoPow e := by
  have ho := f.one_pos_rat
  have he : (twoPow e : ℚ) = (1 * twoPow (e + f.unitBits) : ℕ) / f.one := by
    rw [one] at ho ⊢
    rw [twoPow_add]
    push_cast
    field_simp
  rw [he]
  exact nearest_of_significand _ (twoPow_pos _)

/-- Inverses of powers of two are numbers of the format while they are whole in units. -/
theorem nearest_inv_twoPow {e : ℕ} (h : e ≤ f.unitBits) :
    f.nearest (1 / twoPow e) = 1 / twoPow e := by
  have he : (0 : ℚ) < twoPow e := twoPow_pos_rat e
  have hu : (0 : ℚ) < twoPow (f.unitBits - e) := twoPow_pos_rat _
  have hone : f.one = twoPow e * twoPow (f.unitBits - e) := by
    rw [← twoPow_add, one]
    congr 1
    omega
  have hx : (1 : ℚ) / twoPow e = (1 * twoPow (f.unitBits - e) : ℕ) / f.one := by
    rw [hone]
    push_cast
    field_simp
  rw [hx]
  exact nearest_of_significand _ (twoPow_pos _)

/-- Least magnitude whose significand is full. -/
def leastNormal (f : Format) : ℚ := twoPow (f.precision - 1) / f.one

private theorem step_mul_twoPow_le {q : ℕ} (h : twoPow (f.precision - 1) ≤ q) :
    f.step q * twoPow (f.precision - 1) ≤ q := by
  have hp := f.precision_pos
  have hq : q ≠ 0 := by
    have := twoPow_pos (f.precision - 1)
    omega
  have hl : f.precision - 1 ≤ q.log2 := (Nat.le_log2 hq).2 h
  rw [step, ← twoPow_add]
  have he : q.log2 + 1 - f.precision + (f.precision - 1) = q.log2 := by omega
  rw [he]
  exact Nat.log2_self_le hq

/-- At normal size rounding is off by at most half a unit in the last place. -/
theorem abs_nearest_sub_le {x : ℚ} (h : f.leastNormal ≤ x) :
    |f.nearest x - x| ≤ x / twoPow f.precision := by
  have ho := f.one_pos_rat
  have hden : (0 : ℚ) < x.den := by exact_mod_cast x.den_pos
  have hp : (0 : ℚ) < twoPow (f.precision - 1) := twoPow_pos_rat _
  have hx : 0 < x := lt_of_lt_of_le (div_pos hp ho) h
  have hunits := units_div_den f hx.le
  have hstep : (f.step (x.num.toNat * f.one / x.den) : ℚ) * twoPow (f.precision - 1) ≤
      x * f.one := by
    have hlow : twoPow (f.precision - 1) ≤ x.num.toNat * f.one / x.den := by
      rw [Nat.le_div_iff_mul_le x.den_pos]
      have hq : (twoPow (f.precision - 1) : ℚ) * x.den ≤ (x.num.toNat * f.one : ℕ) := by
        rw [← le_div_iff₀ hden, hunits]
        exact (div_le_iff₀ ho).1 h
      exact_mod_cast hq
    calc (f.step (x.num.toNat * f.one / x.den) : ℚ) * twoPow (f.precision - 1)
      _ ≤ (x.num.toNat * f.one / x.den : ℕ) := by exact_mod_cast step_mul_twoPow_le hlow
      _ ≤ ((x.num.toNat * f.one : ℕ) : ℚ) / x.den := Nat.cast_div_le
      _ = x * f.one := hunits
  have hround := two_mul_abs_roundRatio_sub_le (f := f) (x.num.toNat * f.one) x.den_pos
  have hscale : f.nearest x - x =
      ((f.roundRatio (x.num.toNat * f.one) x.den : ℚ) - (x.num.toNat * f.one : ℕ) / x.den) /
        f.one := by
    rw [hunits, nearest]
    field_simp
  have hfull : (twoPow f.precision : ℚ) = 2 * twoPow (f.precision - 1) := by
    have hsucc : f.precision = 1 + (f.precision - 1) := by
      have := f.precision_pos
      omega
    have hnat : twoPow f.precision = 2 * twoPow (f.precision - 1) := by
      conv_lhs => rw [hsucc, twoPow_add]
      rfl
    exact_mod_cast hnat
  rw [hscale, abs_div, abs_of_pos ho, hfull, div_le_div_iff₀ ho (by positivity)]
  nlinarith

end Format

end RegionPooling
