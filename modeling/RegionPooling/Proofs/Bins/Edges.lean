import RegionPooling.Pooling.Bins
import RegionPooling.Proofs.Numeric.Magnitude

/-!
# Edges of bins in floating-point arithmetic

A division of an interval has a share of size `s`, a positive rational number. The edge after `n`
shares is the rounded product of the rounded number `n` with `s`; a bin starts at the edge before it
rounded down and ends at the edge after it rounded up. Edges are in order and never leave the range
in which they are finite. Specification §4.2, steps 3 and 4.
-/

namespace RegionPooling

/-- Position reached after `n` shares of size `s`, as formed in a format. -/
def Format.edge (f : Format) (s : ℚ) (n : ℕ) : ℚ := f.nearest (f.nearest n * s)

namespace Format

variable {f : Format} {s : ℚ}

/-- Edges are in order. -/
theorem edge_mono (hs : 0 ≤ s) : Monotone (f.edge s) := by
  intro m n h
  apply f.nearest_mono
  apply mul_le_mul_of_nonneg_right _ hs
  apply f.nearest_mono
  exact_mod_cast h

/-- No edge lies before the interval. -/
theorem edge_nonneg (n : ℕ) : 0 ≤ f.edge s n := f.nearest_nonneg _

/-- An edge is a number of the format. -/
theorem nearest_edge (n : ℕ) : f.nearest (f.edge s n) = f.edge s n := nearest_nearest _

private theorem nearest_le_twoPow {x : ℚ} {e : ℕ} (h : x ≤ twoPow e) : f.nearest x ≤ twoPow e := by
  rw [← nearest_twoPow e]
  exact f.nearest_mono h

/-- Whole numbers up to a power of two stay there after rounding. -/
theorem nearest_natCast_le {n e : ℕ} (h : n ≤ twoPow e) : f.nearest n ≤ twoPow e :=
  nearest_le_twoPow (by exact_mod_cast h)

/-- Positive whole numbers stay positive after rounding. -/
theorem one_le_nearest {x : ℚ} (h : 1 ≤ x) : 1 ≤ f.nearest x := by
  have h1 := nearest_twoPow (f := f) 0
  have he : ((twoPow 0 : ℕ) : ℚ) = 1 := by norm_num [twoPow]
  rw [he] at h1
  rw [← h1]
  exact f.nearest_mono h

/-- The first edge is at zero. -/
theorem edge_zero : f.edge s (0 : ℕ) = 0 := by
  have hzero : f.nearest (0 : ℕ) = 0 := by
    simpa using nearest_natCast (f := f) (n := 0) (Nat.zero_le _)
  unfold edge
  rw [hzero, zero_mul]
  simpa using hzero

/-- Numbers from the least share of an interval on are of normal size. -/
theorem leastNormal_le_of_le {x : ℚ} (h : 1 / twoPow 64 ≤ x) : f.leastNormal ≤ x := by
  have hp : (0 : ℚ) < twoPow 64 := twoPow_pos_rat 64
  have hsize : twoPow (f.precision - 1) * twoPow 64 ≤ f.one := by
    rw [← twoPow_add]
    have hbits : f.precision - 1 + 64 ≤ f.unitBits := by cases f <;> decide
    exact Nat.pow_le_pow_right (by decide) hbits
  apply le_trans _ h
  rw [Format.leastNormal, div_le_div_iff₀ f.one_pos_rat hp, one_mul]
  exact_mod_cast hsize

end Format

namespace BinAxis

variable {f : Format}

/-- The share of a division is a number of the size that divided intervals have. -/
structure HasShare (a : BinAxis (Binary f)) (s : ℚ) : Prop where
  denotes : a.share.Denotes s
  lower : 1 / twoPow 64 ≤ s
  upper : s ≤ twoPow 63
  nearest : f.nearest s = s

namespace HasShare

variable {a : BinAxis (Binary f)} {s : ℚ}

/-- Shares are positive. -/
theorem pos (h : a.HasShare s) : 0 < s := by
  have hp : (0 : ℚ) < twoPow 64 := twoPow_pos_rat 64
  exact lt_of_lt_of_le (by positivity) h.lower

/-- Shares are of normal size. -/
theorem leastNormal_le (h : a.HasShare s) : f.leastNormal ≤ s := Format.leastNormal_le_of_le h.lower

private theorem denotes_mul (h : a.HasShare s) {n : ℕ} (hn : n ≤ twoPow 64) :
    (Scalar.mul (Scalar.ofInt n) a.share : Binary f).Denotes (f.edge s n) := by
  have hle := Format.nearest_natCast_le (f := f) hn
  have hlimit : f.nearest n * s ≤ magnitudeLimit := by
    calc f.nearest n * s
      _ ≤ twoPow 64 * twoPow 63 := mul_le_mul hle h.upper h.pos.le (Nat.cast_nonneg _)
      _ = magnitudeLimit := by norm_num [twoPow, magnitudeLimit]
  apply Binary.Denotes.mul _ h.denotes hlimit
  apply Binary.denotes_ofInt (Int.natCast_nonneg n)
  calc ((n : ℤ) : ℚ)
    _ ≤ twoPow 64 := by exact_mod_cast hn
    _ ≤ magnitudeLimit := by norm_num [twoPow, magnitudeLimit]

/-- A bin starts at the edge before it, rounded down. -/
theorem floorStart_eq (h : a.HasShare s) {bin : ℕ} (hn : bin ≤ twoPow 64) :
    a.floorStart bin = saturate ⌊f.edge s bin⌋ := (h.denotes_mul hn).floorGrid

/-- A bin ends at the edge after it, rounded up. -/
theorem ceilStop_eq (h : a.HasShare s) {bin : ℕ} (hn : bin + 1 ≤ twoPow 64) :
    a.ceilStop bin = saturate ⌈f.edge s (bin + 1 : ℕ)⌉ := (h.denotes_mul hn).ceilGrid

/-- The quotient of a grid distance by a share denotes the rounded quotient. -/
theorem denotes_div (h : a.HasShare s) {d : ℕ} (hd : (d : ℤ) ≤ gridMax) :
    (Scalar.div (Scalar.ofInt d) a.share : Binary f).Denotes (f.nearest (f.nearest d / s)) := by
  have hd63 : d ≤ twoPow 63 := by
    have hg : (twoPow 63 : ℤ) = gridMax + 1 := by norm_num [twoPow, gridMax]
    have := hd
    omega
  have hle := Format.nearest_natCast_le (f := f) hd63
  have hp : (0 : ℚ) < twoPow 64 := twoPow_pos_rat 64
  have hlimit : f.nearest d / s ≤ magnitudeLimit := by
    rw [div_le_iff₀ h.pos]
    calc f.nearest d
      _ ≤ twoPow 63 := hle
      _ = magnitudeLimit * (1 / twoPow 64) := by norm_num [twoPow, magnitudeLimit]
      _ ≤ magnitudeLimit * s :=
        mul_le_mul_of_nonneg_left h.lower (by norm_num [twoPow, magnitudeLimit])
  apply Binary.Denotes.div _ h.denotes h.pos hlimit
  apply Binary.denotes_ofInt (Int.natCast_nonneg d)
  calc ((d : ℤ) : ℚ)
    _ ≤ twoPow 63 := by exact_mod_cast hd63
    _ ≤ magnitudeLimit := by norm_num [twoPow, magnitudeLimit]

end HasShare

/-- Dividing an interval into a positive number of bins gives a share. -/
theorem hasShare_divide (i : Interval) {bins : ℕ} (hpos : 0 < bins) (hle : bins ≤ twoPow 64) :
    (divide i bins : BinAxis (Binary f)).HasShare
      (f.nearest (f.nearest i.length / f.nearest bins)) := by
  have hp : (0 : ℚ) < twoPow 64 := twoPow_pos_rat 64
  have hlen1 : (1 : ℚ) ≤ i.length := by exact_mod_cast i.one_le_length
  have hlen63 : (i.length : ℚ) ≤ twoPow 63 := by
    have hg : gridMax ≤ (twoPow 63 : ℤ) := by norm_num [twoPow, gridMax]
    exact_mod_cast le_trans i.length_le_gridMax hg
  have hl1 := Format.one_le_nearest (f := f) hlen1
  have hl63 := Format.nearest_le_twoPow (f := f) hlen63
  have hb1 : 1 ≤ f.nearest bins := Format.one_le_nearest (by exact_mod_cast hpos)
  have hb64 := Format.nearest_natCast_le (f := f) hle
  have hbpos : 0 < f.nearest bins := lt_of_lt_of_le one_pos hb1
  have hquot : f.nearest i.length / f.nearest bins ≤ twoPow 63 := by
    rw [div_le_iff₀ hbpos]
    calc f.nearest i.length
      _ ≤ twoPow 63 * 1 := by rw [mul_one]; exact hl63
      _ ≤ twoPow 63 * f.nearest bins := mul_le_mul_of_nonneg_left hb1 (Nat.cast_nonneg _)
  refine ⟨?_, ?_, Format.nearest_le_twoPow hquot, Format.nearest_nearest _⟩
  · have hlimit : f.nearest i.length / f.nearest bins ≤ magnitudeLimit :=
      le_trans hquot (by norm_num [twoPow, magnitudeLimit])
    apply Binary.Denotes.div _ _ hbpos hlimit
    · apply Binary.denotes_ofInt (le_trans Int.one_nonneg i.one_le_length)
      exact le_trans hlen63 (by norm_num [twoPow, magnitudeLimit])
    · apply Binary.denotes_ofInt (Int.natCast_nonneg bins)
      calc ((bins : ℤ) : ℚ)
        _ ≤ twoPow 64 := by exact_mod_cast hle
        _ ≤ magnitudeLimit := by norm_num [twoPow, magnitudeLimit]
  · have hbits : 64 ≤ f.unitBits := by cases f <;> decide
    rw [← Format.nearest_inv_twoPow hbits]
    apply f.nearest_mono
    exact div_le_div₀ (by linarith) hl1 hbpos hb64

end BinAxis

end RegionPooling
