/-!
# Rounding a quotient

`roundDiv` is the whole number nearest to a quotient, a tie going to the even neighbour.
Main statements: it is exact on multiples, it is monotone, and it is off by at most one half.
-/

namespace RegionPooling

/-- Quotient rounded to the nearest whole number, a tie to the even one. -/
def roundDiv (num den : Nat) : Nat :=
  let q := num / den
  let r := num % den
  if den < 2 * r ∨ (2 * r = den ∧ q % 2 = 1) then q + 1 else q

/-- The rounded quotient is at least the truncated one. -/
theorem div_le_roundDiv (num den : Nat) : num / den ≤ roundDiv num den := by
  simp only [roundDiv]; split <;> omega

/-- The rounded quotient is at most the successor of the truncated one. -/
theorem roundDiv_le_div_succ (num den : Nat) : roundDiv num den ≤ num / den + 1 := by
  simp only [roundDiv]; split <;> omega

/-- A multiple of the denominator is divided exactly. -/
theorem roundDiv_mul_right (q den : Nat) (pos : 0 < den) : roundDiv (q * den) den = q := by
  simp only [roundDiv, Nat.mul_div_cancel q pos, Nat.mul_mod_left]
  split <;> omega

/-- The rounded quotient exceeds the exact one by at most one half. -/
theorem two_mul_roundDiv_mul_le (num den : Nat) :
    2 * (roundDiv num den * den) ≤ 2 * num + den := by
  have split_num := Nat.div_add_mod num den
  rw [Nat.mul_comm den] at split_num
  simp only [roundDiv]
  split
  · rw [Nat.add_mul, Nat.one_mul]; omega
  · omega

/-- The rounded quotient falls short of the exact one by at most one half. -/
theorem two_mul_le_roundDiv_mul (num den : Nat) (pos : 0 < den) :
    2 * num ≤ 2 * (roundDiv num den * den) + den := by
  have split_num := Nat.div_add_mod num den
  have small := Nat.mod_lt num pos
  rw [Nat.mul_comm den] at split_num
  simp only [roundDiv]
  split
  · rw [Nat.add_mul, Nat.one_mul]; omega
  · omega

/-- A common factor changes nothing. -/
theorem roundDiv_mul_mul {k : Nat} (num den : Nat) (pos : 0 < k) :
    roundDiv (k * num) (k * den) = roundDiv num den := by
  have scale : ∀ r d : Nat, (k * d < 2 * (k * r) ↔ d < 2 * r) ∧
      (2 * (k * r) = k * d ↔ 2 * r = d) := by
    intro r d
    rw [Nat.mul_left_comm 2]
    exact ⟨Nat.mul_lt_mul_left pos, Nat.mul_right_inj (Nat.ne_of_gt pos)⟩
  simp only [roundDiv, Nat.mul_div_mul_left _ _ pos, Nat.mul_mod_mul_left, (scale _ _).1,
    (scale _ _).2]

/-- Rounding keeps order. -/
theorem roundDiv_mono {a b : Nat} (den : Nat) (h : a ≤ b) : roundDiv a den ≤ roundDiv b den := by
  have quotients := Nat.div_le_div_right (c := den) h
  rcases Nat.lt_or_eq_of_le quotients with lt | eq
  · exact Nat.le_trans (roundDiv_le_div_succ a den) (Nat.le_trans lt (div_le_roundDiv b den))
  · have ha := Nat.div_add_mod a den
    have hb := Nat.div_add_mod b den
    rw [eq] at ha
    simp only [roundDiv, eq]
    split <;> split <;> omega

end RegionPooling
