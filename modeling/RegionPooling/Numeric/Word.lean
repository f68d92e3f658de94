/-!
# Size words and grid coordinates

Sizes are natural numbers that should be below the word size, or are reduced modulo it where so
said. Grid coordinates are integers kept inside a signed word: a value outside it becomes the nearer
end, as specification §10.6 asks of rounded coordinates and of box arithmetic.
-/

namespace RegionPooling

/-- Number of distinct size words, two to the power 64. -/
def wordSize : Nat := 18446744073709551616

/-- Largest number of elements that one block of storage may address: the greatest signed word. -/
def storageLimit : Nat := 9223372036854775807

/-- Remainder of a size modulo the word size. -/
def wrap (n : Nat) : Nat := n % wordSize

/-- A size below the word size is its own remainder. -/
theorem wrap_of_lt {n : Nat} (h : n < wordSize) : wrap n = n := Nat.mod_eq_of_lt h

/-- Every remainder is a size word. -/
theorem wrap_lt (n : Nat) : wrap n < wordSize := Nat.mod_lt n (by decide)

/-- A factor may be reduced before the product is. -/
theorem wrap_wrap_mul (a b : Nat) : wrap (wrap a * b) = wrap (a * b) := by
  simp only [wrap, Nat.mul_mod, Nat.mod_mod]

/-- Whatever fits into storage is a size word. -/
theorem wrap_of_le_storageLimit {n : Nat} (h : n ≤ storageLimit) : wrap n = n :=
  wrap_of_lt (Nat.lt_of_le_of_lt h (by decide))

/-- Least grid coordinate, the least signed word of 64 bits. -/
def gridMin : Int := -9223372036854775808

/-- Greatest grid coordinate, the greatest signed word of 64 bits. -/
def gridMax : Int := 9223372036854775807

/-- The grid coordinate nearest to an integer; §10.6. -/
def saturate (n : Int) : Int := max gridMin (min n gridMax)

/-- Saturation stays below the greatest grid coordinate. -/
theorem saturate_le_gridMax (n : Int) : saturate n ≤ gridMax := by
  simp only [saturate, gridMin, gridMax]; omega

/-- A grid coordinate is left as it is. -/
theorem saturate_of_mem {n : Int} (lo : gridMin ≤ n) (hi : n ≤ gridMax) : saturate n = n := by
  simp only [saturate]; omega

/-- Saturation keeps order. -/
theorem saturate_mono {m n : Int} (h : m ≤ n) : saturate m ≤ saturate n := by
  simp only [saturate]; omega

end RegionPooling
