import RegionPooling.Numeric.PowerOfTwo
import RegionPooling.Numeric.Rounding

/-!
# Binary floating-point formats

A finite number of a format is a sign and a whole number of *units*, the least positive number of
the format. The numbers of units that a format represents are the multiples of a step that doubles
with every binade. `Format.roundRatio` rounds any quotient of units onto that grid; all arithmetic
goes through it. Main statements: rounding leaves the magnitudes of the format alone, and what it
yields belongs to the format exactly when it is below the limit.
-/

namespace RegionPooling

/-- The two widths of floating-point number that maps and regions hold; specification §10.9. -/
inductive Format where
  | single
  | double
  deriving DecidableEq, Repr

namespace Format

/-- Number of significant bits. -/
def precision : Format → Nat
  | single => 24
  | double => 53

/-- The number one is this power of two in units. -/
def unitBits : Format → Nat
  | single => 149
  | double => 1074

/-- Every finite magnitude is below this power of two in units. -/
def limitBits : Format → Nat
  | single => 277
  | double => 2098

/-- Number of bits of the interchange encoding. -/
def width : Format → Nat
  | single => 32
  | double => 64

/-- The number one, in units. -/
def one (f : Format) : Nat := twoPow f.unitBits

/-- Distance between neighbouring numbers at a magnitude. -/
def step (f : Format) (units : Nat) : Nat :=
  twoPow (units.log2 + 1 - f.precision)

/-- The magnitudes of a format: multiples of their own step, below the limit. -/
def Representable (f : Format) (units : Nat) : Prop :=
  units < twoPow f.limitBits ∧ units % f.step units = 0

instance (f : Format) (units : Nat) : Decidable (f.Representable units) :=
  inferInstanceAs (Decidable (_ ∧ _))

/-- Nearest multiple of the step at a quotient of units, a tie to the even multiple. -/
def roundRatio (f : Format) (num den : Nat) : Nat :=
  let step := f.step (num / den)
  roundDiv num (den * step) * step

/-- One is a positive number of units. -/
@[simp] theorem one_pos (f : Format) : 0 < f.one := twoPow_pos _

/-- Every step is at least one unit. -/
@[simp] theorem step_pos (f : Format) (units : Nat) : 0 < f.step units := twoPow_pos _

/-- Zero is a magnitude of every format. -/
@[simp] theorem representable_zero (f : Format) : f.Representable 0 :=
  ⟨twoPow_pos _, Nat.zero_mod _⟩

/-- A magnitude of the format is not changed by rounding. -/
theorem roundRatio_of_representable {f : Format} {units : Nat} (h : f.Representable units) :
    f.roundRatio units 1 = units := by
  have whole : units / f.step units * f.step units = units := by
    have := Nat.div_add_mod units (f.step units)
    rw [h.2, Nat.mul_comm] at this
    simpa using this
  have exact_step := roundDiv_mul_right (units / f.step units) (f.step units) (f.step_pos units)
  rw [whole] at exact_step
  simp only [roundRatio, Nat.div_one, Nat.one_mul]
  rw [exact_step, whole]

/-- Nor is a magnitude of the format changed if a fraction with a common factor presents it. -/
theorem roundRatio_mul_right {f : Format} {units den : Nat} (h : f.Representable units)
    (pos : 0 < den) : f.roundRatio (units * den) den = units := by
  have same := roundRatio_of_representable h
  simp only [roundRatio, Nat.div_one, Nat.one_mul] at same
  rw [Nat.mul_comm, roundRatio, Nat.mul_div_cancel_left _ pos, roundDiv_mul_mul _ _ pos]
  exact same

/-- Every format has a significant bit. -/
@[simp] theorem precision_pos (f : Format) : 0 < f.precision := by cases f <;> decide

/-- At most a full significand of equal steps lies on the grid of its own magnitude. -/
theorem mod_step_eq_zero {f : Format} {m k : Nat} (le : m ≤ twoPow f.precision) :
    (m * twoPow k) % f.step (m * twoPow k) = 0 := by
  apply Nat.mod_eq_zero_of_dvd
  rcases Nat.lt_or_eq_of_le le with lt | eq
  · apply Nat.dvd_trans _ (Nat.dvd_mul_left _ _)
    apply twoPow_dvd_twoPow
    by_cases zero : m * twoPow k = 0
    · have := f.precision_pos
      rw [zero, Nat.log2_zero]
      omega
    · have small : m * twoPow k < twoPow (f.precision + k) := by
        rw [twoPow_add]
        exact Nat.mul_lt_mul_of_pos_right lt (twoPow_pos k)
      have := (log2_lt_iff zero).2 small
      omega
  · rw [eq, ← twoPow_add]
    apply twoPow_dvd_twoPow
    have := f.precision_pos
    rw [log2_twoPow]
    omega

/-- Rounding yields at most a full significand of steps. -/
theorem roundDiv_step_le (f : Format) (num den : Nat) :
    roundDiv num (den * f.step (num / den)) ≤ twoPow f.precision := by
  apply Nat.le_trans (roundDiv_le_div_succ _ _)
  rw [← Nat.div_div_eq_div_mul]
  generalize num / den = q
  apply Nat.succ_le_of_lt
  rw [Nat.div_lt_iff_lt_mul (f.step_pos q)]
  by_cases zero : q = 0
  · rw [zero]
    exact Nat.mul_pos (twoPow_pos _) (f.step_pos 0)
  · rw [step, ← twoPow_add, ← log2_lt_iff zero]
    omega

/-- A rounded magnitude below the limit belongs to the format. -/
theorem representable_roundRatio_iff {f : Format} {num den : Nat} :
    f.Representable (f.roundRatio num den) ↔ f.roundRatio num den < twoPow f.limitBits :=
  ⟨And.left, fun lt => ⟨lt, mod_step_eq_zero (f.roundDiv_step_le num den)⟩⟩

end Format

end RegionPooling
