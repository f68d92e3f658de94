import Mathlib.Data.Nat.Notation
import Mathlib.Logic.Function.Iterate
import RegionPooling.Numeric.Binary

/-!
# Whole numbers in floating point

Whole numbers up to a full significand are numbers of every format. Main statement: counting up to
such a number by adding one is exact.
-/

namespace RegionPooling

variable {f : Format} {n : ℕ}

/-- A whole number up to a full significand is a magnitude of the format. -/
theorem Format.representable_whole (h : n ≤ twoPow f.precision) :
    f.Representable (n * f.one) := by
  refine ⟨?_, mod_step_eq_zero h⟩
  have hlimit : twoPow f.precision * f.one < twoPow f.limitBits := by cases f <;> decide +kernel
  exact Nat.lt_of_le_of_lt (Nat.mul_le_mul_right _ h) hlimit

namespace Binary

private theorem ofRatio_one {units : ℕ} (negative : Bool) (h : f.Representable units) :
    (ofRatio negative units 1 : Binary f) = finite negative units h := by
  have hfraction := ofRatio_mul_right negative h Nat.one_pos
  rwa [Nat.mul_one] at hfraction

/-- A whole number up to a full significand is held exactly. -/
theorem ofInt_natCast (h : n ≤ twoPow f.precision) :
    (ofInt n : Binary f) = finite false (n * f.one) (Format.representable_whole h) := by
  unfold ofInt ofFraction
  rw [Int.natAbs_natCast, decide_eq_false (Int.not_lt.2 (Int.natCast_nonneg n)), ofRatio_one]

/-- The next whole number is held exactly. -/
theorem add_one (h : n + 1 ≤ twoPow f.precision) :
    (ofInt n : Binary f).add (ofInt 1) = ofInt (n + 1 : ℕ) := by
  have hone : (ofInt 1 : Binary f) = finite false (1 * f.one) _ :=
    ofInt_natCast (n := 1) (twoPow_pos _)
  have hsum : signed false (n * f.one) + signed false (1 * f.one) = ((n + 1) * f.one : ℕ) := by
    simp only [signed, Bool.false_eq_true, if_false, Nat.add_mul, Int.natCast_add]
  have hpos : 0 < (n + 1) * f.one := Nat.mul_pos (Nat.succ_pos n) f.one_pos
  rw [ofInt_natCast (Nat.le_of_succ_le h), hone, ofInt_natCast h]
  unfold add
  dsimp only
  rw [hsum, if_neg (by omega), Int.natAbs_natCast,
    decide_eq_false (Int.not_lt.2 (Int.natCast_nonneg _)), ofRatio_one]

/-- Adding one to zero again and again counts exactly, up to a full significand. -/
theorem iterate_add_one (h : n ≤ twoPow f.precision) :
    (fun x : Binary f ↦ x.add (ofInt 1))^[n] zero = ofInt n := by
  induction n with
  | zero =>
    rw [ofInt_natCast h]
    simp only [Function.iterate_zero, id_eq, Nat.zero_mul]
    rfl
  | succ n ih =>
    rw [Function.iterate_succ_apply', ih (Nat.le_of_succ_le h), add_one h]

end Binary

end RegionPooling
