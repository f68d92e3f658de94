import RegionPooling.Proofs.Bins.Coverage

/-!
# Tiling of a clamped axis

An edge is rounded down where a bin starts and up where the bin before it ends, so neighbouring bins
meet or share the one cell that the edge divides. Main statement: saturation, the shift to the
origin and the clamping to the map keep this for every interval and every number of bins. So the
bins of an axis run in order, leave no cell between them out, and any two neighbours have at most
one cell in common. Specification §4.2, step 4.
-/

namespace RegionPooling

namespace Binary

variable {f : Format} {x : Binary f} {q : ℚ}

/-- What denotes a rational number is finite. -/
theorem Denotes.isFinite (h : x.Denotes q) : x.isFinite = true := by
  obtain ⟨u, _, rfl, -⟩ := denotes_iff.1 h
  rfl

private theorem Denotes.zero_lt (h : x.Denotes q) (hq : 0 < q) : zero.lt x = true := by
  obtain ⟨u, _, rfl, rfl⟩ := denotes_iff.1 h
  have hu : 0 < u := by
    rw [div_pos_iff_of_pos_right f.one_pos_rat] at hq
    exact_mod_cast hq
  simp [zero, signedZero, lt, signed, hu]

end Binary

namespace BinAxis

section

variable {α : Type} {a : BinAxis α} {limit : ℕ} {v w : ℤ}

/-- Cell of the map at a distance from the start of the interval, moved onto the map. -/
def place (a : BinAxis α) (limit : ℕ) (v : ℤ) : ℕ := clamp limit (saturate (v + a.origin))

/-- Larger distances lead to later cells. -/
theorem place_mono (h : v ≤ w) : a.place limit v ≤ a.place limit w :=
  clamp_mono limit (saturate_mono (by omega))

private theorem place_le_succ (h : v ≤ w + 1) : a.place limit v ≤ a.place limit w + 1 := by
  simp only [place, clamp, saturate, gridMin, gridMax]
  omega

end

/-- The bins of an axis on a map: each has its start at or before its end, which is on the map;
starts and ends are in order; neighbours meet or overlap by one cell, the one that the later starts
with; and no cell from the first start to the last end is left out. -/
structure Tiles {α : Type} [Scalar α] (a : BinAxis α) (bins limit : ℕ) : Prop where
  ordered : ∀ bin < bins, (a.span limit bin).start ≤ (a.span limit bin).stop
  inside : ∀ bin < bins, (a.span limit bin).stop ≤ limit
  start_mono : ∀ m n, m ≤ n → n < bins → (a.span limit m).start ≤ (a.span limit n).start
  stop_mono : ∀ m n, m ≤ n → n < bins → (a.span limit m).stop ≤ (a.span limit n).stop
  joined : ∀ bin, bin + 1 < bins →
    (a.span limit (bin + 1)).start ≤ (a.span limit bin).stop ∧
      (a.span limit bin).stop ≤ (a.span limit (bin + 1)).start + 1
  covered : ∀ cell, (a.span limit 0).start ≤ cell → cell < (a.span limit (bins - 1)).stop →
    ∃ bin < bins, cell ∈ (a.span limit bin).toList
  shared : ∀ bin, bin + 1 < bins → ∀ cell ∈ (a.span limit bin).toList,
    cell ∈ (a.span limit (bin + 1)).toList → cell = (a.span limit (bin + 1)).start

variable {f : Format} {a : BinAxis (Binary f)} {s : ℚ}

private theorem HasShare.floorStart_mono (h : a.HasShare s) {m n : ℕ} (hmn : m ≤ n)
    (hn : n ≤ twoPow 64) : a.floorStart m ≤ a.floorStart n := by
  rw [h.floorStart_eq hn, h.floorStart_eq (by omega)]
  exact saturate_mono (Int.floor_mono (Format.edge_mono h.pos.le hmn))

private theorem HasShare.floorStart_le_ceilStop (h : a.HasShare s) {bin : ℕ}
    (hn : bin + 1 ≤ twoPow 64) : a.floorStart bin ≤ a.ceilStop bin :=
  le_trans (h.floorStart_mono (Nat.le_succ bin) hn) (h.floorStart_succ_le hn)

private theorem HasShare.ceilStop_le_floorStart_succ (h : a.HasShare s) {bin : ℕ}
    (hn : bin + 1 ≤ twoPow 64) : a.ceilStop bin ≤ a.floorStart (bin + 1) + 1 := by
  have hedge := Int.ceil_le_floor_add_one (f.edge s (bin + 1 : ℕ))
  rw [h.floorStart_eq hn, h.ceilStop_eq hn]
  simp only [saturate, gridMin, gridMax]
  omega

/-- The bins of an axis with a share tile it. -/
theorem HasShare.tiles (h : a.HasShare s) {bins : ℕ} (hpos : 0 < bins) (hbins : bins ≤ twoPow 64)
    (limit : ℕ) : a.Tiles bins limit := by
  have hjoined : ∀ bin, bin + 1 < bins →
      (a.span limit (bin + 1)).start ≤ (a.span limit bin).stop ∧
        (a.span limit bin).stop ≤ (a.span limit (bin + 1)).start + 1 := by
    intro bin hbin
    exact ⟨place_mono (h.floorStart_succ_le (by omega)),
      place_le_succ (h.ceilStop_le_floorStart_succ (by omega))⟩
  refine ⟨?_, ?_, ?_, ?_, hjoined, ?_, ?_⟩
  · intro bin hbin
    exact place_mono (h.floorStart_le_ceilStop (by omega))
  · intro bin _
    exact a.span_stop_le limit bin
  · intro m n hmn hn
    exact place_mono (h.floorStart_mono hmn (by omega))
  · intro m n hmn hn
    exact place_mono (h.ceilStop_mono hmn (by omega))
  · intro cell hfirst hlast
    obtain ⟨bin, hbin, hcell⟩ := exists_piece_of_joined
      (fun bin ↦ (a.span limit bin).start) (fun bin ↦ (a.span limit bin).stop)
      (fun bin hbin ↦ (hjoined bin (by omega)).1) hfirst hlast
    exact ⟨bin, by omega, Span.mem_toList.2 hcell⟩
  · intro bin hbin cell hcell hnext
    have hle := (hjoined bin hbin).2
    rw [Span.mem_toList] at hcell hnext
    omega

end BinAxis

/-- Whatever a region is and however it is divided, its box is between one cell and the greatest
grid coordinate long and wide, the shares are finite numbers above zero, and the bins tile the rows
and the columns of the map. -/
theorem bins_tile {f : Format} (region : Region) {config : PoolConfig}
    (hvalid : config.validate = .ok ()) (hheight : config.height < wordSize)
    (hwidth : config.width < wordSize) (height width : ℕ) :
    let box := region.box (Binary f) config.scale
    let grid : BinGrid (Binary f) := .ofRegion region config
    (1 ≤ box.height ∧ box.height ≤ gridMax) ∧ (1 ≤ box.width ∧ box.width ≤ gridMax) ∧
      (grid.rows.share.isFinite = true ∧ Binary.zero.lt grid.rows.share = true) ∧
      (grid.columns.share.isFinite = true ∧ Binary.zero.lt grid.columns.share = true) ∧
      grid.rows.Tiles config.height height ∧ grid.columns.Tiles config.width width := by
  intro box grid
  obtain ⟨hpos, hpos', -⟩ := PoolConfig.validate_eq_ok_iff.1 hvalid
  have hword : wordSize = twoPow 64 := rfl
  have hrows := BinAxis.hasShare_divide (f := f) box.rows hpos (hword ▸ hheight.le)
  have hcolumns := BinAxis.hasShare_divide (f := f) box.columns hpos' (hword ▸ hwidth.le)
  exact ⟨⟨box.rows.one_le_length, box.rows.length_le_gridMax⟩,
    ⟨box.columns.one_le_length, box.columns.length_le_gridMax⟩,
    ⟨hrows.denotes.isFinite, hrows.denotes.zero_lt hrows.pos⟩,
    ⟨hcolumns.denotes.isFinite, hcolumns.denotes.zero_lt hcolumns.pos⟩,
    hrows.tiles hpos (hword ▸ hheight.le) height, hcolumns.tiles hpos' (hword ▸ hwidth.le) width⟩

/-- Three rows in two bins share the row in the middle, and five columns in one bin share none. -/
theorem bins_tile_three_rows :
    let region : Region := ⟨0, .zero, .zero, .ofInt 4, .ofInt 2⟩
    let config : PoolConfig := ⟨2, 1, .ofInt 1⟩
    let grid : BinGrid (Binary .single) := .ofRegion region config
    config.validate = .ok () ∧ config.height < wordSize ∧ config.width < wordSize ∧
      grid.rows.share.isFinite = true ∧ grid.rows.Tiles 2 3 ∧ grid.columns.Tiles 1 5 ∧
      grid.rows.span 3 0 = ⟨0, 2⟩ ∧ grid.rows.span 3 1 = ⟨1, 3⟩ ∧
      grid.columns.span 5 0 = ⟨0, 5⟩ := by
  intro region config grid
  have hvalid : config.validate = .ok () := by decide +kernel
  have hheight : config.height < wordSize := by decide
  have hwidth : config.width < wordSize := by decide
  obtain ⟨-, -, ⟨hfinite, -⟩, -, hrows, hcolumns⟩ :=
    bins_tile (f := .single) region hvalid hheight hwidth 3 5
  exact ⟨hvalid, hheight, hwidth, hfinite, hrows, hcolumns, by decide +kernel, by decide +kernel,
    by decide +kernel⟩

end RegionPooling
