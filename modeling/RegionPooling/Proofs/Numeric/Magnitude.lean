import RegionPooling.Numeric.Binary
import RegionPooling.Proofs.Numeric.Nearest

/-!
# Magnitudes held by floating-point numbers

`Binary.Denotes x q` says that `x` is the finite number `q` without a negative sign. Every operation
on such numbers is described by one statement: the result denotes the rounded exact result, as long
as that stays within `magnitudeLimit`, far below infinity in both formats.
-/

namespace RegionPooling

/-- Exact results up to this number are finite after rounding. -/
def magnitudeLimit : ℚ := twoPow 127

namespace Binary

variable {f : Format}

/-- A finite number without negative sign, with its rational value. -/
def Denotes : Binary f → ℚ → Prop
  | finite false units _, q => (units : ℚ) / f.one = q
  | _, _ => False

/-- What is denoted is the value of a number of units. -/
theorem denotes_iff {x : Binary f} {q : ℚ} :
    x.Denotes q ↔ ∃ units h, x = finite false units h ∧ (units : ℚ) / f.one = q := by
  constructor
  · intro hx
    match x, hx with
    | finite false units h, hx => exact ⟨units, h, rfl, hx⟩
  · rintro ⟨units, h, rfl, hq⟩
    exact hq

private theorem roundRatio_lt_of_le {num den : ℕ} (hd : 0 < den)
    (h : (num : ℚ) / (den * f.one) ≤ magnitudeLimit) :
    f.roundRatio num den < twoPow f.limitBits := by
  have ho := f.one_pos_rat
  have hbits : 127 + f.unitBits < f.limitBits := by cases f <;> decide
  have hround : (f.roundRatio num den : ℚ) / f.one ≤ twoPow 127 := by
    rw [Format.roundRatio_div_one num hd]
    calc f.nearest (num / (den * f.one))
      _ ≤ f.nearest (twoPow 127) := f.nearest_mono h
      _ = twoPow 127 := Format.nearest_twoPow 127
  have hunits : (f.roundRatio num den : ℚ) ≤ twoPow 127 * f.one := (div_le_iff₀ ho).1 hround
  have hpow : twoPow (127 + f.unitBits) = twoPow 127 * f.one := twoPow_add _ _
  calc f.roundRatio num den
    _ ≤ twoPow (127 + f.unitBits) := by
      rw [hpow]
      exact_mod_cast hunits
    _ < twoPow f.limitBits := Nat.pow_lt_pow_right (by decide) hbits

/-- A rounded quotient of units denotes the nearest number. -/
theorem denotes_ofRatio {num den : ℕ} (hd : 0 < den)
    (h : (num : ℚ) / (den * f.one) ≤ magnitudeLimit) :
    (ofRatio false num den : Binary f).Denotes (f.nearest (num / (den * f.one))) := by
  have hr := Format.representable_roundRatio_iff.2 (roundRatio_lt_of_le hd h)
  rw [ofRatio, dif_pos hr]
  exact Format.roundRatio_div_one num hd

/-- Integers that are not negative are rounded to the nearest number. -/
theorem denotes_ofInt {n : ℤ} (hn : 0 ≤ n) (h : (n : ℚ) ≤ magnitudeLimit) :
    (ofInt n : Binary f).Denotes (f.nearest n) := by
  have ho := f.one_pos_rat
  have hcast : (n.natAbs : ℚ) = n := by
    rw [Nat.cast_natAbs, abs_of_nonneg hn]
  have hx : ((n.natAbs * f.one : ℕ) : ℚ) / ((1 : ℕ) * f.one) = n := by
    push_cast
    rw [hcast]
    field_simp
  have hs : decide (n < 0) = false := decide_eq_false (by omega)
  rw [ofInt, ofFraction, hs, ← hx]
  apply denotes_ofRatio Nat.one_pos
  rw [hx]
  exact h

/-- Products are rounded to the nearest number. -/
theorem Denotes.mul {x y : Binary f} {p q : ℚ} (hx : x.Denotes p) (hy : y.Denotes q)
    (h : p * q ≤ magnitudeLimit) : (x.mul y).Denotes (f.nearest (p * q)) := by
  have ho := f.one_pos_rat
  obtain ⟨u, _, rfl, rfl⟩ := denotes_iff.1 hx
  obtain ⟨v, _, rfl, rfl⟩ := denotes_iff.1 hy
  have hv : ((u * v : ℕ) : ℚ) / (f.one * f.one) = u / f.one * (v / f.one) := by
    push_cast
    field_simp
  rw [Binary.mul, ← hv]
  apply denotes_ofRatio f.one_pos
  rw [hv]
  exact h

/-- Quotients are rounded to the nearest number. -/
theorem Denotes.div {x y : Binary f} {p q : ℚ} (hx : x.Denotes p) (hy : y.Denotes q) (hq : 0 < q)
    (h : p / q ≤ magnitudeLimit) : (x.div y).Denotes (f.nearest (p / q)) := by
  have ho := f.one_pos_rat
  obtain ⟨u, _, rfl, rfl⟩ := denotes_iff.1 hx
  obtain ⟨v, _, rfl, rfl⟩ := denotes_iff.1 hy
  have hv : 0 < v := by
    rw [div_pos_iff_of_pos_right ho] at hq
    exact_mod_cast hq
  have hvq : (0 : ℚ) < v := by exact_mod_cast hv
  have hd : ((u * f.one : ℕ) : ℚ) / (v * f.one) = u / f.one / (v / f.one) := by
    push_cast
    field_simp
  rw [Binary.div, if_neg hv.ne', ← hd]
  apply denotes_ofRatio hv
  rw [hd]
  exact h

/-- The greatest whole number below is read off the value. -/
theorem Denotes.floorGrid {x : Binary f} {q : ℚ} (h : x.Denotes q) :
    x.floorGrid = saturate ⌊q⌋ := by
  obtain ⟨u, _, rfl, rfl⟩ := denotes_iff.1 h
  rw [Binary.floorGrid, Rat.floor_natCast_div_natCast]
  rfl

/-- The least whole number above is read off the value. -/
theorem Denotes.ceilGrid {x : Binary f} {q : ℚ} (h : x.Denotes q) :
    x.ceilGrid = saturate ⌈q⌉ := by
  obtain ⟨u, _, rfl, rfl⟩ := denotes_iff.1 h
  have hc : ⌈(u : ℚ) / f.one⌉ = -(-(u : ℤ) / (f.one : ℤ)) := by
    rw [← Rat.floor_intCast_div_natCast, Int.cast_neg, Int.cast_natCast, neg_div, Int.floor_neg,
      neg_neg]
  rw [Binary.ceilGrid, hc]
  rfl

end Binary

end RegionPooling
