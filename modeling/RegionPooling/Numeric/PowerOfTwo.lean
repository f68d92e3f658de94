/-!
# Powers of two

The powers of two that steps, limits and encodings of floating-point numbers are made of, with the
laws that rounding needs: sums of exponents, divisibility, and the position of the leading bit.
-/

namespace RegionPooling

/-- Two to a natural power. -/
def twoPow (n : Nat) : Nat := Nat.pow 2 n

/-- A power of two is positive. -/
@[simp] theorem twoPow_pos (n : Nat) : 0 < twoPow n := Nat.two_pow_pos n

/-- Exponents add up in a product. -/
theorem twoPow_add (m n : Nat) : twoPow (m + n) = twoPow m * twoPow n := Nat.pow_add 2 m n

/-- A smaller power of two divides a larger one. -/
theorem twoPow_dvd_twoPow {m n : Nat} (h : m ≤ n) : twoPow m ∣ twoPow n := Nat.pow_dvd_pow 2 h

/-- The leading bit tells which powers of two are larger. -/
theorem log2_lt_iff {n k : Nat} (h : n ≠ 0) : n.log2 < k ↔ n < twoPow k := Nat.log2_lt h

/-- A larger number has its leading bit at least as high. -/
theorem log2_le_log2 {m n : Nat} (h : m ≤ n) : m.log2 ≤ n.log2 := by
  by_cases zero : m = 0
  · rw [zero, Nat.log2_zero]
    exact Nat.zero_le _
  · have pos : n ≠ 0 := by omega
    exact (Nat.le_log2 pos).2 (Nat.le_trans (Nat.log2_self_le zero) h)

/-- The leading bit of a power of two is its exponent. -/
@[simp] theorem log2_twoPow (n : Nat) : (twoPow n).log2 = n := Nat.log2_two_pow

end RegionPooling
