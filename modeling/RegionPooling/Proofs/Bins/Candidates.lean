import RegionPooling.Proofs.Bins.Edges

/-!
# Candidates cover the bins of a cell

A bin contains a cell if the rounded edges around it enclose the cell; the candidates of a cell come
from rounded quotients instead. Main statement: as long as the bin numbers are exact in the format,
every bin that contains a cell is a candidate of it. Specification §10.10.
-/

namespace RegionPooling

namespace Format

variable {f : Format} {s : ℚ}

private theorem nearest_half_full :
    f.nearest ((2 * twoPow (f.precision - 1) + 1 : ℕ) / 2) = twoPow (f.precision - 1) := by
  have ho := f.one_pos_rat
  have hround : f.roundRatio ((2 * twoPow (f.precision - 1) + 1) * f.one) 2 =
      twoPow (f.precision - 1) * f.one := by
    cases f <;> decide +kernel
  have h := roundRatio_div_one (f := f) ((2 * twoPow (f.precision - 1) + 1) * f.one) Nat.two_pos
  have hleft : ((twoPow (f.precision - 1) * f.one : ℕ) : ℚ) / f.one =
      twoPow (f.precision - 1) := by
    push_cast
    field_simp
  have hright : (((2 * twoPow (f.precision - 1) + 1) * f.one : ℕ) : ℚ) / ((2 : ℕ) * f.one) =
      (2 * twoPow (f.precision - 1) + 1 : ℕ) / 2 := by
    push_cast
    field_simp
  rw [hround, hleft, hright] at h
  exact h.symm

/-- Twice the number of exact halves is a full significand. -/
theorem two_mul_twoPow_precision (f : Format) :
    2 * twoPow (f.precision - 1) = twoPow f.precision := by
  cases f <;> rfl

/-- Half a cell past an exact whole number is not rounded to the next one. -/
theorem nearest_add_half_lt {n : ℕ} (hn : n ≤ twoPow (f.precision - 1)) :
    f.nearest ((2 * n + 1 : ℕ) / 2) < n + 1 := by
  have hfull := f.two_mul_twoPow_precision
  rcases Nat.lt_or_eq_of_le hn with hlt | rfl
  · rw [nearest_half (by omega)]
    push_cast
    linarith
  · rw [nearest_half_full]
    linarith

/-- An edge after an exact number of shares is off by at most one rounding error of them. -/
theorem abs_edge_sub_le {n : ℕ} (hs : 0 < s) (hnormal : f.leastNormal ≤ s)
    (hn : n ≤ twoPow f.precision) : |f.edge s n - n * s| ≤ n * s / twoPow f.precision := by
  have hexact : f.nearest n = n := nearest_natCast hn
  rcases Nat.eq_zero_or_pos n with rfl | hpos
  · rw [edge_zero]
    simp
  · have hn1 : (1 : ℚ) ≤ n := by exact_mod_cast hpos
    have hsize : f.leastNormal ≤ n * s := by nlinarith
    unfold edge
    rw [hexact]
    exact abs_nearest_sub_le hsize

/-- One rounding error of up to an exact number of shares is at most half a share. -/
theorem mul_div_twoPow_le {n : ℕ} (hs : 0 < s) (hn : n ≤ twoPow (f.precision - 1)) :
    n * s / twoPow f.precision ≤ s / 2 := by
  have hp : (0 : ℚ) < twoPow f.precision := twoPow_pos_rat _
  have hhalf : 2 * (n : ℚ) ≤ twoPow f.precision := by
    rw [← f.two_mul_twoPow_precision]
    exact_mod_cast Nat.mul_le_mul_left 2 hn
  rw [div_le_iff₀ hp]
  nlinarith

/-- An edge after an exact number of shares exceeds them by at most half a share in all. -/
theorem edge_le {n : ℕ} (hs : 0 < s) (hnormal : f.leastNormal ≤ s)
    (hn : n ≤ twoPow (f.precision - 1)) : f.edge s n ≤ (n + 1 / 2) * s := by
  have hfull := f.two_mul_twoPow_precision
  have herr := (abs_le.1 (abs_edge_sub_le hs hnormal (show n ≤ twoPow f.precision by omega))).2
  linarith [mul_div_twoPow_le hs hn]

/-- An edge after an exact number of shares falls short of them by at most half a share in all. -/
theorem le_edge {n : ℕ} (hs : 0 < s) (hnormal : f.leastNormal ≤ s)
    (hn : n ≤ twoPow (f.precision - 1)) : (n - 1 / 2) * s ≤ f.edge s n := by
  have hfull := f.two_mul_twoPow_precision
  have herr := (abs_le.1 (abs_edge_sub_le hs hnormal (show n ≤ twoPow f.precision by omega))).1
  linarith [mul_div_twoPow_le hs hn]

private theorem nearest_div_lt {d n : ℕ} (hs : 0 < s) (hnormal : f.leastNormal ≤ s)
    (hn : n ≤ twoPow (f.precision - 1)) (h : (d : ℚ) < f.edge s n) :
    f.nearest (f.nearest d / s) < n + 1 := by
  have hd : f.nearest d ≤ f.edge s n := by
    rw [← nearest_edge]
    exact f.nearest_mono h.le
  have hquot : f.nearest d / s ≤ (2 * n + 1 : ℕ) / 2 := by
    rw [div_le_iff₀ hs]
    push_cast
    linarith [edge_le hs hnormal hn]
  exact lt_of_le_of_lt (f.nearest_mono hquot) (nearest_add_half_lt hn)

private theorem lt_nearest_div {d n : ℕ} (hs : 0 < s) (hnormal : f.leastNormal ≤ s)
    (hn : n ≤ twoPow (f.precision - 1)) (h : f.edge s n < d) :
    (n : ℚ) - 1 < f.nearest (f.nearest d / s) := by
  have hd : f.edge s n ≤ f.nearest d := by
    rw [← nearest_edge]
    exact f.nearest_mono h.le
  rcases Nat.eq_zero_or_pos n with rfl | hpos
  · have hzero := f.nearest_nonneg (f.nearest d / s)
    push_cast
    linarith
  · have hfull := f.two_mul_twoPow_precision
    have hsub : ((2 * n - 1 : ℕ) : ℚ) = 2 * n - 1 := by
      rw [Nat.cast_sub (by omega)]
      push_cast
      ring
    have hquot : ((2 * n - 1 : ℕ) : ℚ) / 2 ≤ f.nearest d / s := by
      rw [le_div_iff₀ hs, hsub]
      linarith [le_edge hs hnormal hn]
    have hround := f.nearest_mono hquot
    rw [nearest_half (by omega), hsub] at hround
    linarith

end Format

namespace BinAxis

/-- A cell of the map lies in a bin if it lies between its ends, nothing being cut off. -/
theorem mem_span_iff {α : Type} [Scalar α] {a : BinAxis α} {limit bin cell : ℕ}
    (hl : limit ≤ storageLimit) :
    cell ∈ (a.span limit bin).toList ↔
      cell < limit ∧ a.floorStart bin + a.origin ≤ cell ∧
        (cell : ℤ) < a.ceilStop bin + a.origin := by
  rw [Span.mem_toList]
  simp only [span, clamp, saturate, gridMin, gridMax, storageLimit] at hl ⊢
  omega

variable {f : Format} {a : BinAxis (Binary f)} {s : ℚ}

/-- A bin holds the cells whose distance from the origin lies between the edges around it. -/
theorem HasShare.mem_span_iff_edge (h : a.HasShare s) {limit bin cell : ℕ}
    (hl : limit ≤ storageLimit) (hn : bin + 1 ≤ twoPow 64) :
    cell ∈ (a.span limit bin).toList ↔
      cell < limit ∧ ∃ d : ℕ, (cell : ℤ) - a.origin = d ∧ (d : ℤ) < gridMax ∧
        f.edge s bin < d + 1 ∧ d < f.edge s (bin + 1 : ℕ) := by
  have hfloor0 : 0 ≤ ⌊f.edge s bin⌋ := Int.floor_nonneg.2 (Format.edge_nonneg _)
  have hfloor (d : ℕ) : f.edge s bin < d + 1 ↔ ⌊f.edge s bin⌋ ≤ d := by
    rw [← Int.lt_add_one_iff, Int.floor_lt]
    push_cast
    rfl
  have hceil (d : ℕ) : d < f.edge s (bin + 1 : ℕ) ↔ (d : ℤ) < ⌈f.edge s (bin + 1 : ℕ)⌉ := by
    rw [Int.lt_ceil]
    rfl
  rw [mem_span_iff hl, h.floorStart_eq (Nat.le_of_succ_le hn), h.ceilStop_eq hn]
  simp only [hfloor, hceil, saturate]
  generalize ⌊f.edge s bin⌋ = first at hfloor0
  generalize ⌈f.edge s (bin + 1 : ℕ)⌉ = last
  clear hfloor hceil hn
  simp only [gridMin, gridMax]
  constructor
  · rintro ⟨hcell, hlow, hhigh⟩
    refine ⟨hcell, ((cell : ℤ) - a.origin).toNat, ?_⟩
    omega
  · rintro ⟨hcell, d, hd, hgrid, hlow, hhigh⟩
    omega

/-- Every bin that contains a cell is a candidate of the cell, if bin numbers are exact. -/
theorem HasShare.mem_candidates (h : a.HasShare s) {bins limit bin cell : ℕ}
    (hb : bin < bins) (hbins : bins ≤ twoPow (f.precision - 1)) (hl : limit ≤ storageLimit)
    (hc : cell ∈ (a.span limit bin).toList) : bin ∈ (a.candidates bins cell).toList := by
  have hexact : bin + 1 ≤ twoPow (f.precision - 1) := le_trans hb hbins
  have hsize : twoPow (f.precision - 1) ≤ 9007199254740992 := by cases f <;> decide
  have hword : bin + 1 ≤ twoPow 64 := by
    apply le_trans hexact
    cases f <;> decide
  obtain ⟨-, d, hd, hgrid, hbefore, hafter⟩ := (h.mem_span_iff_edge hl hword).1 hc
  have hfirst : ⌊f.nearest (f.nearest d / s)⌋ < (bin + 2 : ℕ) := by
    rw [Int.floor_lt]
    have hlt := Format.nearest_div_lt h.pos h.leastNormal_le hexact hafter
    push_cast at hlt ⊢
    linarith
  have hlast : (bin : ℤ) - 1 < ⌈f.nearest (f.nearest (d + 1 : ℕ) / s)⌉ := by
    rw [Int.lt_ceil]
    have hedge : f.edge s bin < (d + 1 : ℕ) := by
      push_cast
      exact hbefore
    have hlt := Format.lt_nearest_div h.pos h.leastNormal_le (Nat.le_of_succ_le hexact) hedge
    push_cast at hlt ⊢
    exact hlt
  have hdown := (h.denotes_div (d := d) hgrid.le).floorGrid
  have hup := (h.denotes_div (d := d + 1) hgrid).ceilGrid
  have hoffset : saturate ((cell : ℤ) - a.origin) = d := by
    rw [hd]
    exact saturate_of_mem (by unfold gridMin; omega) hgrid.le
  have hnext : saturate ((d : ℤ) + 1) = (d + 1 : ℕ) :=
    saturate_of_mem (by unfold gridMin; omega) hgrid
  have hcand : a.candidates bins cell =
      ⟨clamp bins (saturate (saturate ⌊f.nearest (f.nearest d / s)⌋ - 1)),
        clamp bins (saturate (saturate ⌈f.nearest (f.nearest (d + 1 : ℕ) / s)⌉ + 1))⟩ := by
    rw [← hdown, ← hup, ← hnext]
    unfold candidates
    rw [hoffset, if_neg (Int.not_lt.2 (Int.natCast_nonneg d))]
    rfl
  rw [Span.mem_toList, hcand]
  simp only [clamp, saturate, gridMin, gridMax]
  omega

end BinAxis

end RegionPooling
