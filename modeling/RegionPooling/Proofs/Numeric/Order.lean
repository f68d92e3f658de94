import Mathlib.Algebra.Order.Ring.Int
import RegionPooling.Numeric.Binary

/-!
# Numeric order of floating-point numbers

Numbers other than not-a-number are compared as signed whole numbers of units, the infinities lying
just outside the finite numbers. Zeros of either sign have the same rank.
-/

namespace RegionPooling

namespace Binary

variable {f : Format}

/-- Rank of a number in numeric order. The rank of a not-a-number says nothing. -/
def rank : Binary f → ℤ
  | nan => 0
  | infinity negative => signed negative (twoPow f.limitBits)
  | finite negative units _ => signed negative units

private theorem rank_finite_mem {s : Bool} {u : ℕ} (h : f.Representable u) :
    -(twoPow f.limitBits : ℤ) < signed s u ∧ signed s u < twoPow f.limitBits := by
  have hlt := h.1
  cases s <;> simp only [signed] <;> omega

/-- Numbers are in numeric order exactly as their ranks are. -/
theorem lt_iff_rank_lt {x y : Binary f} (hx : x.isNaN = false) (hy : y.isNaN = false) :
    x.lt y = true ↔ x.rank < y.rank := by
  have hpos := twoPow_pos f.limitBits
  cases x with
  | nan => cases hx
  | infinity s =>
    cases y with
    | nan => cases hy
    | infinity t =>
      cases s <;> cases t <;> simp [lt, rank, signed]
    | finite t v h =>
      have hmem := rank_finite_mem (s := t) h
      cases s <;> simp [lt, rank, signed] at hmem ⊢ <;> omega
  | finite s u h =>
    cases y with
    | nan => cases hy
    | infinity t =>
      have hmem := rank_finite_mem (s := s) h
      cases t <;> simp [lt, rank, signed] at hmem ⊢ <;> omega
    | finite t v _ => simp [lt, rank]

/-- Numbers are numerically equal exactly if their ranks are. -/
theorem numEq_iff_rank_eq {x y : Binary f} (hx : x.isNaN = false) (hy : y.isNaN = false) :
    x.numEq y = true ↔ x.rank = y.rank := by
  have hpos := twoPow_pos f.limitBits
  cases x with
  | nan => cases hx
  | infinity s =>
    cases y with
    | nan => cases hy
    | infinity t => cases s <;> cases t <;> simp [numEq, rank, signed] <;> omega
    | finite t v h =>
      have hmem := rank_finite_mem (s := t) h
      cases s <;> simp [numEq, rank, signed] at hmem ⊢ <;> omega
  | finite s u h =>
    cases y with
    | nan => cases hy
    | infinity t =>
      have hmem := rank_finite_mem (s := s) h
      cases t <;> simp [numEq, rank, signed] at hmem ⊢ <;> omega
    | finite t v _ => simp [numEq, rank]

/-- Nothing exceeds a not-a-number, and a not-a-number exceeds nothing. -/
theorem lt_eq_false_of_isNaN {x y : Binary f} (h : x.isNaN = true ∨ y.isNaN = true) :
    x.lt y = false := by
  rcases h with h | h
  · cases x <;> cases h
    rfl
  · cases y <;> cases h
    cases x <;> rfl

/-- Numbers in numeric order are numbers. -/
theorem isNaN_eq_false_of_lt {x y : Binary f} (h : x.lt y = true) :
    x.isNaN = false ∧ y.isNaN = false := by
  constructor
  · by_contra hn
    rw [lt_eq_false_of_isNaN (.inl (Bool.eq_true_of_not_eq_false hn))] at h
    cases h
  · by_contra hn
    rw [lt_eq_false_of_isNaN (.inr (Bool.eq_true_of_not_eq_false hn))] at h
    cases h

end Binary

end RegionPooling
