import RegionPooling.Proofs.Bins.Coverage
import RegionPooling.Proofs.Numeric.Spacing

/-!
# Reach of the bins of an axis

The last bin of an interval may end past it: its end is formed with a rounded length and a rounded
share, and is rounded up to a whole cell. Main statement: bins cover a cell of a map only if the
interval, with its length rounded in the format and with one more cell at its far side, has a cell
in common with the map. Specification §10.10 names the last bin that is rounded past the box.
-/

namespace RegionPooling

/-- A cell lies in an interval whose length is rounded in a format and which has one more cell at
its far side. -/
def Interval.Widened (f : Format) (i : Interval) (cell : ℕ) : Prop :=
  (i.first : ℚ) ≤ cell ∧ (cell : ℚ) ≤ i.first + f.nearest i.length

namespace Format

variable {f : Format}

private theorem edge_le_of_lt {i : Interval} {bins : ℕ} {m : ℚ} (hpos : 0 < bins)
    (hle : bins ≤ twoPow 64) (hm : f.nearest m = m) (h : f.nearest i.length < m) :
    f.edge (f.share i bins) bins ≤ m := by
  -- one rounding error of the length fits between it and the next number of the format
  have herr := (abs_le.1 (f.abs_mul_share_sub_le i hpos hle)).2
  have hgap := add_div_twoPow_le (nearest_nearest _) hm h
  have hall : f.nearest bins * f.share i bins ≤ m := by linarith
  unfold edge
  rw [← hm]
  exact f.nearest_mono hall

end Format

namespace BinAxis

variable {f : Format} {i : Interval} {bins limit bin cell : ℕ}

/-- A covered cell lies at or after the start of the interval and before the last edge. -/
theorem mem_span_divide (hl : limit ≤ storageLimit) (hle : bins ≤ twoPow 64) (hbin : bin < bins)
    (h : cell ∈ ((divide i bins : BinAxis (Binary f)).span limit bin).toList) :
    cell < limit ∧ i.first ≤ cell ∧
      (cell : ℚ) - i.first < f.edge (f.share i bins) bins := by
  have hpos : 0 < bins := Nat.zero_lt_of_lt hbin
  have hshare := hasShare_divide (f := f) i hpos hle
  obtain ⟨hcell, d, hd, -, -, hedge⟩ := (hshare.mem_span_iff_edge hl (by omega)).1 h
  change (cell : ℤ) - i.first = d at hd
  have hlast := Format.edge_mono (f := f) hshare.pos.le (show bin + 1 ≤ bins from hbin)
  have hdq : (cell : ℚ) - i.first = d := by exact_mod_cast hd
  refine ⟨hcell, by omega, ?_⟩
  rw [hdq]
  exact lt_of_lt_of_le hedge hlast

/-- If a bin covers a cell of a map, then some cell of the map lies in the widened interval, which
need not be the same cell. -/
theorem exists_widened (hfirst : i.first ≤ 0 → f.nearest i.first.natAbs = i.first.natAbs)
    (hl : limit ≤ storageLimit) (hle : bins ≤ twoPow 64) (hbin : bin < bins)
    (h : cell ∈ ((divide i bins : BinAxis (Binary f)).span limit bin).toList) :
    ∃ near < limit, i.Widened f near := by
  obtain ⟨hcell, hstart, hedge⟩ := mem_span_divide hl hle hbin h
  have hlen := f.nearest_nonneg i.length
  by_cases hneg : i.first ≤ 0
  · refine ⟨0, by omega, ?_, ?_⟩
    · exact_mod_cast hneg
    · -- otherwise the distance to the map is a number of the format that no edge passes
      by_contra hmiss
      have habs : (i.first.natAbs : ℚ) = -i.first := by
        rw [Nat.cast_natAbs, abs_of_nonpos hneg, Int.cast_neg]
      have hbound := Format.edge_le_of_lt (i := i) (Nat.zero_lt_of_lt hbin) hle (hfirst hneg)
        (by rw [habs]; push_cast at hmiss; linarith)
      rw [habs] at hbound
      have hcell0 : (0 : ℚ) ≤ cell := Nat.cast_nonneg _
      linarith
  · refine ⟨i.first.toNat, by omega, ?_, ?_⟩
    · have : i.first ≤ (i.first.toNat : ℤ) := by omega
      exact_mod_cast this
    · have : ((i.first.toNat : ℕ) : ℤ) = i.first := by omega
      have hcast : ((i.first.toNat : ℕ) : ℚ) = i.first := by exact_mod_cast this
      rw [hcast]
      linarith

end BinAxis

end RegionPooling
