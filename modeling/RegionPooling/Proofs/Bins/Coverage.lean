import RegionPooling.Proofs.Bins.Candidates

/-!
# Cells covered by the bins of an axis

Bins leave no gap: each starts at or before the end of the one before it. So the bins of an interval
that starts at or before the map cover every cell up to the end of the last bin. Main statements:
they cover the whole map exactly if the last bin reaches its far border, and they do if the interval
reaches it and is not longer than the exact halves of the format. A longer interval may fall short
of the border, since its length is rounded and its bins are saturated. Specification §10.6 says of
extreme regions that they simply clamp.
-/

namespace RegionPooling

/-- A length is a positive natural number. -/
theorem Interval.exists_length_eq (i : Interval) : ∃ n : ℕ, i.length = n ∧ 1 ≤ n := by
  have hone := i.one_le_length
  exact ⟨i.length.toNat, by omega, by omega⟩

namespace Format

variable {f : Format}

/-- Size of the shares of an interval in a number of bins. -/
def share (f : Format) (i : Interval) (bins : ℕ) : ℚ :=
  f.nearest (f.nearest i.length / f.nearest bins)

/-- All shares together differ from the rounded length by at most one rounding error of it. -/
theorem abs_mul_share_sub_le (f : Format) (i : Interval) {bins : ℕ} (hpos : 0 < bins)
    (hle : bins ≤ twoPow 64) :
    |f.nearest bins * f.share i bins - f.nearest i.length| ≤
      f.nearest i.length / twoPow f.precision := by
  have hb1 : 1 ≤ f.nearest bins := one_le_nearest (by exact_mod_cast hpos)
  have hb64 := nearest_natCast_le (f := f) hle
  have hb : 0 < f.nearest bins := lt_of_lt_of_le zero_lt_one hb1
  have hlen1 : 1 ≤ f.nearest i.length := one_le_nearest (by exact_mod_cast i.one_le_length)
  have hsize : f.leastNormal ≤ f.nearest i.length / f.nearest bins :=
    leastNormal_le_of_le (div_le_div₀ (by linarith) hlen1 hb hb64)
  have hsplit : f.nearest bins * f.share i bins - f.nearest i.length =
      f.nearest bins * (f.share i bins - f.nearest i.length / f.nearest bins) := by
    field_simp
  calc |f.nearest bins * f.share i bins - f.nearest i.length|
    _ = f.nearest bins * |f.share i bins - f.nearest i.length / f.nearest bins| := by
      rw [hsplit, abs_mul, abs_of_pos hb]
    _ ≤ f.nearest bins * (f.nearest i.length / f.nearest bins / twoPow f.precision) :=
      mul_le_mul_of_nonneg_left (abs_nearest_sub_le hsize) hb.le
    _ = f.nearest i.length / twoPow f.precision := by field_simp

/-- A length up to the number of exact halves is not rounded. -/
theorem nearest_length {i : Interval} (h : i.length ≤ twoPow (f.precision - 1)) :
    f.nearest i.length = i.length := by
  have hfull := f.two_mul_twoPow_precision
  obtain ⟨n, hn, -⟩ := i.exists_length_eq
  rw [hn] at h ⊢
  exact nearest_natCast (by omega)

/-- All shares of an exact length together differ from it by at most half a cell. -/
theorem abs_mul_share_sub_length_le {i : Interval} {bins : ℕ} (hpos : 0 < bins)
    (hle : bins ≤ twoPow 64) (hlength : i.length ≤ twoPow (f.precision - 1)) :
    |f.nearest bins * f.share i bins - i.length| ≤ 1 / 2 := by
  have hp : (0 : ℚ) < twoPow f.precision := twoPow_pos_rat _
  have hhalf : 2 * (i.length : ℚ) ≤ twoPow f.precision := by
    rw [← f.two_mul_twoPow_precision]
    exact_mod_cast (by omega : 2 * i.length ≤ 2 * twoPow (f.precision - 1))
  have herr := f.abs_mul_share_sub_le i hpos hle
  rw [nearest_length hlength] at herr
  apply le_trans herr
  rw [div_le_iff₀ hp]
  linarith

private theorem length_sub_half_le_edge {i : Interval} {bins : ℕ} (hpos : 0 < bins)
    (hle : bins ≤ twoPow 64) (hlength : i.length ≤ twoPow (f.precision - 1)) :
    (i.length : ℚ) - 1 / 2 ≤ f.edge (f.share i bins) bins := by
  have hfull := f.two_mul_twoPow_precision
  have herr := (abs_le.1 (abs_mul_share_sub_length_le hpos hle hlength)).1
  obtain ⟨n, hn, hn1⟩ := i.exists_length_eq
  have hcast : ((2 * n - 1 : ℕ) : ℚ) / 2 = i.length - 1 / 2 := by
    rw [hn, Nat.cast_sub (by omega)]
    push_cast
    ring
  have hprod : ((2 * n - 1 : ℕ) : ℚ) / 2 ≤ f.nearest bins * f.share i bins := by
    rw [hcast]
    linarith
  have hround := f.nearest_mono hprod
  rw [nearest_half (by omega), hcast] at hround
  exact hround

/-- The last edge of an interval of exact length lies in its last cell or after it. -/
theorem length_le_ceil_edge {i : Interval} {bins : ℕ} (hpos : 0 < bins) (hle : bins ≤ twoPow 64)
    (hlength : i.length ≤ twoPow (f.precision - 1)) :
    i.length ≤ ⌈f.edge (f.share i bins) bins⌉ := by
  have hedge := length_sub_half_le_edge hpos hle hlength
  rw [Int.le_ceil_iff]
  linarith

end Format

/-- Of pieces that each start at or before the end of the one before, one holds any given point from
the first start to the last end. -/
theorem exists_piece_of_joined {β : Type} [LinearOrder β] (start stop : ℕ → β) {last : ℕ} {x : β}
    (hjoined : ∀ n < last, start (n + 1) ≤ stop n) (hfirst : start 0 ≤ x) (hlast : x < stop last) :
    ∃ n ≤ last, start n ≤ x ∧ x < stop n := by
  induction last with
  | zero => exact ⟨0, le_rfl, hfirst, hlast⟩
  | succ last ih =>
    -- either the pieces before the last one reach past the point, or the last one starts before it
    by_cases hbefore : x < stop last
    · obtain ⟨n, hn, hx⟩ := ih (fun n hn ↦ hjoined n (by omega)) hbefore
      exact ⟨n, by omega, hx⟩
    · exact ⟨last + 1, le_rfl, le_trans (hjoined last (by omega)) (not_lt.1 hbefore), hlast⟩

namespace BinAxis

section

variable {f : Format} {a : BinAxis (Binary f)} {s : ℚ}

/-- Bins end in order. -/
theorem HasShare.ceilStop_mono (h : a.HasShare s) {m n : ℕ} (hmn : m ≤ n)
    (hn : n + 1 ≤ twoPow 64) : a.ceilStop m ≤ a.ceilStop n := by
  rw [h.ceilStop_eq hn, h.ceilStop_eq (by omega)]
  exact saturate_mono (Int.ceil_mono (Format.edge_mono h.pos.le (by omega)))

/-- A bin starts at or before the end of the bin before it. -/
theorem HasShare.floorStart_succ_le (h : a.HasShare s) {bin : ℕ} (hn : bin + 1 ≤ twoPow 64) :
    a.floorStart (bin + 1) ≤ a.ceilStop bin := by
  rw [h.floorStart_eq hn, h.ceilStop_eq hn]
  exact saturate_mono (Int.floor_le_ceil _)

/-- The first bin starts with the interval. -/
theorem HasShare.floorStart_zero (h : a.HasShare s) : a.floorStart 0 = 0 := by
  rw [h.floorStart_eq (Nat.zero_le _), Format.edge_zero]
  rfl

/-- Of an interval that starts at or before the map, the bins cover the cells of the map up to the
end of the last bin. -/
theorem HasShare.exists_mem_span_iff (h : a.HasShare s) {bins limit cell : ℕ}
    (hl : limit ≤ storageLimit) (hbins : bins + 1 ≤ twoPow 64) (hcell : cell < limit)
    (horigin : a.origin ≤ 0) :
    (∃ bin ≤ bins, cell ∈ (a.span limit bin).toList) ↔
      (cell : ℤ) < a.ceilStop bins + a.origin := by
  constructor
  · rintro ⟨bin, hbin, hmem⟩
    have hstop := ((mem_span_iff hl).1 hmem).2.2
    have hmono := h.ceilStop_mono hbin hbins
    omega
  · intro hlast
    have hjoined (bin : ℕ) (hbin : bin < bins) :
        a.floorStart (bin + 1) + a.origin ≤ a.ceilStop bin + a.origin :=
      add_le_add_left (h.floorStart_succ_le (by omega)) _
    have hfirst : a.floorStart 0 + a.origin ≤ (cell : ℤ) := by
      rw [h.floorStart_zero]
      omega
    obtain ⟨bin, hbin, hbetween⟩ := exists_piece_of_joined
      (a.floorStart · + a.origin) (a.ceilStop · + a.origin) hjoined hfirst hlast
    exact ⟨bin, hbin, (mem_span_iff hl).2 ⟨hcell, hbetween⟩⟩

end

variable {f : Format} {i : Interval} {bins limit : ℕ}

/-- The bins of an interval that starts at or before the map and has its end at or after the far
border cover every cell of the map exactly if the last bin reaches the border. -/
theorem covers_iff (hpos : 0 < bins) (hle : bins ≤ twoPow 64) (hl : limit ≤ storageLimit)
    (hlimit : 0 < limit) (hfirst : i.first ≤ 0) :
    (∀ cell < limit, ∃ bin < bins,
        cell ∈ ((divide i bins : BinAxis (Binary f)).span limit bin).toList) ↔
      (limit : ℤ) ≤ (divide i bins : BinAxis (Binary f)).ceilStop (bins - 1) + i.first := by
  have hshare := hasShare_divide (f := f) i hpos hle
  have hbins : bins - 1 + 1 ≤ twoPow 64 := by omega
  have hcovered (cell : ℕ) (hcell : cell < limit) :=
    hshare.exists_mem_span_iff hl hbins hcell hfirst
  constructor
  · intro hall
    obtain ⟨bin, hbin, hmem⟩ := hall (limit - 1) (by omega)
    have hlast := (hcovered (limit - 1) (by omega)).1 ⟨bin, by omega, hmem⟩
    change ((limit - 1 : ℕ) : ℤ) < _ + i.first at hlast
    omega
  · intro hlast cell hcell
    have hbefore : (cell : ℤ) < (divide i bins : BinAxis (Binary f)).ceilStop (bins - 1) +
        i.first := by omega
    obtain ⟨bin, hbin, hmem⟩ := (hcovered cell hcell).2 hbefore
    exact ⟨bin, by omega, hmem⟩

/-- The last bin reaches the far border if the interval does and has an exact length. -/
theorem limit_le_ceilStop (hpos : 0 < bins) (hle : bins ≤ twoPow 64)
    (hlast : (limit : ℤ) - 1 ≤ i.last) (hfirst : i.first ≤ 0) (hlimit : 0 < limit)
    (hlength : i.length ≤ twoPow (f.precision - 1)) :
    (limit : ℤ) ≤ (divide i bins : BinAxis (Binary f)).ceilStop (bins - 1) + i.first := by
  have hshare := hasShare_divide (f := f) i hpos hle
  have hceil := Format.length_le_ceil_edge hpos hle hlength
  have hstop : (divide i bins : BinAxis (Binary f)).ceilStop (bins - 1) =
      saturate ⌈f.edge (f.share i bins) bins⌉ := by
    have hsucc : bins - 1 + 1 = bins := by omega
    rw [hshare.ceilStop_eq (by omega), hsucc]
    rfl
  have hsize : (twoPow (f.precision - 1) : ℤ) < gridMax := by
    cases f <;> decide
  rw [hstop]
  generalize ⌈f.edge (f.share i bins) bins⌉ = last at hceil
  simp only [Interval.length, saturate, gridMin, gridMax] at hceil hlength hsize ⊢
  omega

end BinAxis

end RegionPooling
