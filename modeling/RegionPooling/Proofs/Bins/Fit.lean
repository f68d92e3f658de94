import RegionPooling.Proofs.Bins.Coverage

/-!
# Bins of boxes of exact size

If the length of an interval and the number of its bins are at most the exact halves of the format,
then rounding moves no edge far: by half a share at most, and by half a cell for all shares
together. Main statement: every bin then holds a cell of the interval, the bins cover the interval,
and none reaches further past it than one cell. The length is the guarded one, so that a reversed
interval counts as its first cell. Specification §4.2, steps 2 to 4.
-/

namespace RegionPooling

/-- A format tells the bins of an interval apart if neither their number nor the length of the
interval is greater than the number of exact halves. -/
structure Format.Resolves (f : Format) (i : Interval) (bins : ℕ) : Prop where
  pos : 0 < bins
  bins_le : bins ≤ twoPow (f.precision - 1)
  length_le : i.length ≤ twoPow (f.precision - 1)

namespace Format

variable {f : Format} {s : ℚ}

private theorem edge_lt {n : ℕ} (hs : 0 < s) (hnormal : f.leastNormal ≤ s)
    (hn : n < twoPow (f.precision - 1)) : f.edge s n < (n + 1 / 2) * s := by
  have hfull := f.two_mul_twoPow_precision
  have hp : (0 : ℚ) < twoPow f.precision := twoPow_pos_rat _
  have herr := (abs_le.1 (abs_edge_sub_le hs hnormal (show n ≤ twoPow f.precision by omega))).2
  have hshare : n * s / twoPow f.precision < s / 2 := by
    have hhalf : 2 * (n : ℚ) < twoPow f.precision := by exact_mod_cast (by omega)
    rw [div_lt_iff₀ hp]
    nlinarith
  linarith

private theorem edge_lt_edge_succ {n : ℕ} (hs : 0 < s) (hnormal : f.leastNormal ≤ s)
    (hn : n + 1 ≤ twoPow (f.precision - 1)) : f.edge s n < f.edge s (n + 1 : ℕ) := by
  have hle := le_edge hs hnormal hn
  push_cast at hle
  calc f.edge s n
    _ < (n + 1 / 2) * s := edge_lt hs hnormal hn
    _ = (n + 1 - 1 / 2) * s := by ring
    _ ≤ f.edge s (n + 1 : ℕ) := hle

namespace Resolves

variable {i : Interval} {bins : ℕ}

/-- The number of bins is a size word. -/
theorem bins_le_twoPow (h : f.Resolves i bins) : bins ≤ twoPow 64 := by
  apply le_trans h.bins_le
  cases f <;> decide

/-- The division of the interval has a share. -/
theorem hasShare (h : f.Resolves i bins) :
    (BinAxis.divide i bins : BinAxis (Binary f)).HasShare (f.share i bins) :=
  BinAxis.hasShare_divide i h.pos h.bins_le_twoPow

private theorem mul_share_lt_length (h : f.Resolves i bins) :
    (bins - 1 / 2) * f.share i bins < i.length := by
  have hfull := f.two_mul_twoPow_precision
  have hexact : f.nearest bins = bins := nearest_natCast (by have := h.bins_le; omega)
  have herr := (abs_le.1 (f.abs_mul_share_sub_le i h.pos h.bins_le_twoPow)).2
  rw [nearest_length h.length_le, hexact] at herr
  have hlen : (0 : ℚ) < i.length := by exact_mod_cast i.one_le_length
  have hp : (0 : ℚ) < twoPow f.precision := twoPow_pos_rat _
  have hone : (1 : ℚ) / twoPow f.precision ≤ 1 := by
    rw [div_le_one hp]
    exact_mod_cast twoPow_pos _
  calc (bins - 1 / 2) * f.share i bins
    _ ≤ bins * f.share i bins * (1 - 1 / twoPow f.precision) := by
      have hloss := mul_div_twoPow_le h.hasShare.pos h.bins_le
      rw [mul_sub, mul_one, mul_one_div]
      linarith
    -- one rounding error of the length up and one down again do not make up for each other
    _ ≤ (i.length + i.length / twoPow f.precision) * (1 - 1 / twoPow f.precision) :=
      mul_le_mul_of_nonneg_right (by linarith) (by linarith)
    _ = i.length - i.length / (twoPow f.precision * twoPow f.precision) := by
      field_simp
      ring
    _ < i.length := sub_lt_self _ (by positivity)

private theorem edge_lt_length (h : f.Resolves i bins) {n : ℕ} (hn : n < bins) :
    f.edge (f.share i bins) n < i.length := by
  have hsucc : (n : ℚ) + 1 ≤ bins := by exact_mod_cast hn
  have hs := h.hasShare.pos
  calc f.edge (f.share i bins) n
    _ ≤ (n + 1 / 2) * f.share i bins :=
      edge_le hs h.hasShare.leastNormal_le (le_trans hn.le h.bins_le)
    _ ≤ (bins - 1 / 2) * f.share i bins := mul_le_mul_of_nonneg_right (by linarith) hs.le
    _ < i.length := h.mul_share_lt_length

private theorem edge_lt_length_add_one (h : f.Resolves i bins) :
    f.edge (f.share i bins) bins < i.length + 1 := by
  have herr := (abs_le.1 (abs_mul_share_sub_length_le h.pos h.bins_le_twoPow h.length_le)).2
  have hlength := h.length_le
  obtain ⟨n, hn, -⟩ := i.exists_length_eq
  rw [hn] at herr hlength ⊢
  have hsum : f.nearest bins * f.share i bins ≤ (2 * n + 1 : ℕ) / 2 := by
    push_cast at herr ⊢
    linarith
  exact lt_of_le_of_lt (f.nearest_mono hsum) (nearest_add_half_lt (by exact_mod_cast hlength))

private theorem floor_edge_mem (h : f.Resolves i bins) {n : ℕ} (hn : n < bins) :
    0 ≤ ⌊f.edge (f.share i bins) n⌋ ∧ ⌊f.edge (f.share i bins) n⌋ < i.length :=
  ⟨Int.floor_nonneg.2 (edge_nonneg _), Int.floor_lt.2 (h.edge_lt_length hn)⟩

private theorem ceil_edge_le (h : f.Resolves i bins) {n : ℕ} (hn : n ≤ bins) :
    ⌈f.edge (f.share i bins) n⌉ ≤ i.length + 1 := by
  have hlast := edge_mono (f := f) h.hasShare.pos.le hn
  have hend := h.edge_lt_length_add_one
  rw [Int.ceil_le]
  push_cast
  linarith

end Resolves

end Format

/-- Cells of an interval that is divided into bins; of a reversed one this is the first cell. -/
def Interval.Counts (i : Interval) (cell : ℤ) : Prop :=
  i.first ≤ cell ∧ cell < i.first + i.length

/-- Cells of a box that is divided into bins. -/
def Box.Counts (b : Box) (row column : ℤ) : Prop := b.rows.Counts row ∧ b.columns.Counts column

namespace BinAxis

variable {α : Type} [Scalar α]

/-- Cells of a bin before they are moved onto a map. -/
def Spans (a : BinAxis α) (bin : ℕ) (cell : ℤ) : Prop :=
  a.floorStart bin + a.origin ≤ cell ∧ cell < a.ceilStop bin + a.origin

/-- The bins of an axis fit an interval up to one cell: the first starts with the interval, each has
a length and starts before the end of the interval, and the last ends with the interval or one cell
after it. So every bin has a cell of the interval, every cell of the interval lies in a bin, and no
bin reaches further than one cell past the far end. -/
structure Fits (a : BinAxis α) (i : Interval) (bins : ℕ) : Prop where
  first_start : a.floorStart 0 = 0
  start_lt_stop : ∀ bin < bins, a.floorStart bin < a.ceilStop bin
  start_mem : ∀ bin < bins, 0 ≤ a.floorStart bin ∧ a.floorStart bin ≤ i.length - 1
  last_stop : a.ceilStop (bins - 1) = i.length ∨ a.ceilStop (bins - 1) = i.length + 1
  meets : ∀ bin < bins, ∃ cell, a.Spans bin cell ∧ i.Counts cell
  covers : ∀ cell, i.Counts cell → ∃ bin < bins, a.Spans bin cell
  reach : ∀ bin < bins, ∀ cell, a.Spans bin cell → i.first ≤ cell ∧ cell ≤ i.first + i.length

namespace Fits

variable {a : BinAxis α} {i : Interval} {bins : ℕ}

private theorem of_joined (hpos : 0 < bins) (horigin : a.origin = i.first)
    (hfirst : a.floorStart 0 = 0) (hlt : ∀ bin < bins, a.floorStart bin < a.ceilStop bin)
    (hstart : ∀ bin < bins, 0 ≤ a.floorStart bin ∧ a.floorStart bin ≤ i.length - 1)
    (hjoined : ∀ bin < bins - 1, a.floorStart (bin + 1) ≤ a.ceilStop bin)
    (hstop : ∀ bin < bins, a.ceilStop bin ≤ i.length + 1)
    (hlast : i.length ≤ a.ceilStop (bins - 1)) : a.Fits i bins where
  first_start := hfirst
  start_lt_stop := hlt
  start_mem := hstart
  last_stop := by
    have := hstop (bins - 1) (by omega)
    omega
  meets bin hbin := by
    have := hlt bin hbin
    have := hstart bin hbin
    refine ⟨a.floorStart bin + i.first, ?_⟩
    simp only [Spans, Interval.Counts, horigin]
    omega
  covers cell hcell := by
    simp only [Interval.Counts] at hcell
    have hfrom : a.floorStart 0 ≤ cell - i.first := by omega
    have hto : cell - i.first < a.ceilStop (bins - 1) := by omega
    obtain ⟨bin, hbin, hbetween⟩ := exists_piece_of_joined a.floorStart a.ceilStop hjoined hfrom hto
    refine ⟨bin, by omega, ?_⟩
    simp only [Spans, horigin]
    omega
  reach bin hbin cell hcell := by
    have := hstop bin hbin
    have := hstart bin hbin
    simp only [Spans, horigin] at hcell
    omega

private theorem isEmpty_span {limit bin : ℕ} (h : a.Fits i bins) (hl : limit ≤ storageLimit)
    (hfirst : 0 ≤ i.first) (hlast : i.first + i.length ≤ limit) (hbin : bin < bins) :
    (a.span limit bin).isEmpty = false := by
  obtain ⟨cell, hspans, hcounts⟩ := h.meets bin hbin
  have hcell : cell.toNat ∈ (a.span limit bin).toList := by
    simp only [mem_span_iff hl, Spans, Interval.Counts] at *
    omega
  simp only [Span.mem_toList] at hcell
  simp only [Span.isEmpty, decide_eq_false_iff_not]
  omega

end Fits

variable {f : Format} {i : Interval} {bins bin : ℕ}

private theorem floorStart_divide (h : f.Resolves i bins) (hbin : bin < bins) :
    (divide i bins : BinAxis (Binary f)).floorStart bin = ⌊f.edge (f.share i bins) bin⌋ := by
  have hmem := h.floor_edge_mem hbin
  have hword := h.bins_le_twoPow
  have hgrid := i.length_le_gridMax
  rw [h.hasShare.floorStart_eq (by omega)]
  exact saturate_of_mem (by unfold gridMin; omega) (by omega)

private theorem ceilStop_divide (h : f.Resolves i bins) (hbin : bin < bins) :
    (divide i bins : BinAxis (Binary f)).ceilStop bin =
      ⌈f.edge (f.share i bins) (bin + 1 : ℕ)⌉ := by
  have hnonneg : 0 ≤ ⌈f.edge (f.share i bins) (bin + 1 : ℕ)⌉ :=
    Int.ceil_nonneg (Format.edge_nonneg _)
  have hle := h.ceil_edge_le (show bin + 1 ≤ bins from hbin)
  have hword := h.bins_le_twoPow
  have hgrid : (twoPow (f.precision - 1) : ℤ) < gridMax := by cases f <;> decide
  have hlength := h.length_le
  rw [h.hasShare.ceilStop_eq (by omega)]
  exact saturate_of_mem (by unfold gridMin; omega) (by omega)

/-- The bins of an interval that the format tells apart fit it. -/
theorem fits_divide (h : f.Resolves i bins) : (divide i bins : BinAxis (Binary f)).Fits i bins := by
  have hpos := h.pos
  have hword := h.bins_le_twoPow
  apply Fits.of_joined h.pos rfl h.hasShare.floorStart_zero
  · intro bin hbin
    have hedges := Format.edge_lt_edge_succ h.hasShare.pos h.hasShare.leastNormal_le
      (le_trans hbin h.bins_le)
    rw [floorStart_divide h hbin, ceilStop_divide h hbin, Int.lt_ceil]
    exact lt_of_le_of_lt (Int.floor_le _) hedges
  · intro bin hbin
    have hmem := h.floor_edge_mem hbin
    rw [floorStart_divide h hbin]
    omega
  · intro bin hbin
    exact h.hasShare.floorStart_succ_le (by omega)
  · intro bin hbin
    rw [ceilStop_divide h hbin]
    exact h.ceil_edge_le hbin
  · have hsucc : bins - 1 + 1 = bins := by omega
    rw [ceilStop_divide h (by omega), hsucc]
    exact Format.length_le_ceil_edge hpos hword h.length_le

end BinAxis

/-- Cells of a bin of a box before they are moved onto a map. -/
def BinGrid.Spans {α : Type} [Scalar α] (g : BinGrid α) (row column : ℕ) (y x : ℤ) : Prop :=
  g.rows.Spans row y ∧ g.columns.Spans column x

/-- Suppose the sides of the box of a region and the numbers of its bins are at most the exact
halves of the format. Then the rows and the columns of bins fit the box up to one cell. So every bin
has a cell of the box, every cell of the box lies in a bin, no bin reaches further than one row and
one column past the far sides, and on a map that contains the box no bin is empty. -/
theorem bins_fit_box {f : Format} (region : Region) {config : PoolConfig}
    (hvalid : config.validate = .ok ())
    (hheight : config.height ≤ twoPow (f.precision - 1))
    (hwidth : config.width ≤ twoPow (f.precision - 1))
    (hrows : (region.box (Binary f) config.scale).height ≤ twoPow (f.precision - 1))
    (hcolumns : (region.box (Binary f) config.scale).width ≤ twoPow (f.precision - 1)) :
    let box := region.box (Binary f) config.scale
    let grid : BinGrid (Binary f) := .ofRegion region config
    grid.rows.Fits box.rows config.height ∧ grid.columns.Fits box.columns config.width ∧
      (∀ row < config.height, ∀ column < config.width,
        ∃ y x, grid.Spans row column y x ∧ box.Counts y x) ∧
      (∀ y x, box.Counts y x →
        ∃ row < config.height, ∃ column < config.width, grid.Spans row column y x) ∧
      (∀ row < config.height, ∀ column < config.width, ∀ y x, grid.Spans row column y x →
        (box.rows.first ≤ y ∧ y ≤ box.rows.first + box.height) ∧
          box.columns.first ≤ x ∧ x ≤ box.columns.first + box.width) ∧
      ∀ height ≤ storageLimit, ∀ width ≤ storageLimit,
        0 ≤ box.rows.first → box.rows.first + box.height ≤ height →
        0 ≤ box.columns.first → box.columns.first + box.width ≤ width →
        ∀ row < config.height, ∀ column < config.width,
          (grid.extent height width row column).isEmpty = false := by
  intro box grid
  obtain ⟨hpos, hpos', -⟩ := PoolConfig.validate_eq_ok_iff.1 hvalid
  have hfit : grid.rows.Fits box.rows config.height :=
    BinAxis.fits_divide ⟨hpos, hheight, hrows⟩
  have hfit' : grid.columns.Fits box.columns config.width :=
    BinAxis.fits_divide ⟨hpos', hwidth, hcolumns⟩
  refine ⟨hfit, hfit', ?_, ?_, ?_, ?_⟩
  · intro row hrow column hcolumn
    obtain ⟨y, hy, hbox⟩ := hfit.meets row hrow
    obtain ⟨x, hx, hbox'⟩ := hfit'.meets column hcolumn
    exact ⟨y, x, ⟨hy, hx⟩, hbox, hbox'⟩
  · intro y x hcounts
    obtain ⟨row, hrow, hy⟩ := hfit.covers y hcounts.1
    obtain ⟨column, hcolumn, hx⟩ := hfit'.covers x hcounts.2
    exact ⟨row, hrow, column, hcolumn, hy, hx⟩
  · intro row hrow column hcolumn y x hspans
    exact ⟨hfit.reach row hrow y hspans.1, hfit'.reach column hcolumn x hspans.2⟩
  · intro height hheight width hwidth htop hbottom hleft hright row hrow column hcolumn
    simp only [BinGrid.extent, BinExtent.isEmpty, hfit.isEmpty_span hheight htop hbottom hrow,
      hfit'.isEmpty_span hwidth hleft hright hcolumn, Bool.or_false]

/-- Three rows in twenty-one bins: no bin is empty on a map of three rows, and the last bin ends one
row after the box. -/
theorem bins_fit_box_three_rows :
    let region : Region := ⟨0, .zero, .zero, .zero, .ofInt 2⟩
    let config : PoolConfig := ⟨21, 1, .ofInt 1⟩
    let grid : BinGrid (Binary .single) := .ofRegion region config
    config.validate = .ok () ∧ config.height ≤ twoPow 23 ∧ config.width ≤ twoPow 23 ∧
      (region.box (Binary .single) config.scale).height = 3 ∧
      (region.box (Binary .single) config.scale).width = 1 ∧
      grid.rows.Fits ⟨0, 2⟩ 21 ∧ grid.columns.Fits ⟨0, 0⟩ 1 ∧ grid.rows.ceilStop 20 = 4 ∧
      ∀ row < 21, (grid.extent 3 1 row 0).isEmpty = false := by
  intro region config grid
  have hbox : region.box (Binary .single) config.scale = ⟨⟨0, 2⟩, ⟨0, 0⟩⟩ := by decide +kernel
  have hvalid : config.validate = .ok () := by decide +kernel
  have hheight : config.height ≤ twoPow 23 := by decide
  have hwidth : config.width ≤ twoPow 23 := by decide
  obtain ⟨hrows, hcolumns, -, -, -, hinside⟩ :=
    bins_fit_box (f := .single) region hvalid hheight hwidth (by rw [hbox]; decide)
      (by rw [hbox]; decide)
  rw [hbox] at hrows hcolumns hinside ⊢
  have hextent := hinside 3 (by decide) 1 (by decide) (by decide) (by decide) (by decide)
    (by decide)
  exact ⟨hvalid, hheight, hwidth, by decide, by decide, hrows, hcolumns, by decide +kernel,
    fun row hrow ↦ hextent row hrow 0 (by decide)⟩

end RegionPooling
