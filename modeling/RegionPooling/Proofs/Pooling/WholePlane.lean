import Mathlib.Data.List.Sort
import RegionPooling.Proofs.Bins.Coverage
import RegionPooling.Proofs.Pooling.Reference

/-!
# Regions that cover the map

The bins of a region whose box covers the map cover all of it exactly if the last row and the last
column of bins reach the far borders. Main statement: this is so as long as neither side of the box
is longer than the exact halves of the format, and then pooling into a single bin gives the maximum
of the whole plane. The box of a region with coordinates of great magnitude may be longer; its
length is saturated and rounded, and its bins may miss rows, columns or the whole map. Specification
§10.6.
-/

namespace RegionPooling

/-- A box covers a map if it contains every cell of a plane. -/
def Box.Covers (b : Box) (d : MapDims) : Prop :=
  ∀ row < d.height, ∀ column < d.width, b.contains row column = true

/-- The last row and the last column of bins end at or past the far borders of a map. -/
def BinGrid.Reaches {α : Type} [Scalar α] (g : BinGrid α) (config : PoolConfig) (d : MapDims) :
    Prop :=
  (d.height : ℤ) ≤ g.rows.ceilStop (config.height - 1) + g.rows.origin ∧
    (d.width : ℤ) ≤ g.columns.ceilStop (config.width - 1) + g.columns.origin

variable {d : MapDims}

private theorem Box.Covers.borders {b : Box} (h : b.Covers d) (hheight : 0 < d.height)
    (hwidth : 0 < d.width) : (b.rows.first ≤ 0 ∧ (d.height : ℤ) - 1 ≤ b.rows.last) ∧
      b.columns.first ≤ 0 ∧ (d.width : ℤ) - 1 ≤ b.columns.last := by
  have hnear := h 0 hheight 0 hwidth
  have hfar := h (d.height - 1) (by omega) (d.width - 1) (by omega)
  simp only [contains, Bool.and_eq_true, Interval.contains_iff] at hnear hfar
  omega

variable {f : Format} {region : Region} {config : PoolConfig} {q : PooledPosition}

/-- The bins of a region whose box covers the map cover every plane position exactly if they reach
the far borders. -/
theorem Region.binCells_cover_iff (hvalid : config.validate = .ok ())
    (hheight : config.height ≤ twoPow 64) (hwidth : config.width ≤ twoPow 64)
    (hfits : d.shape.occupied ≤ storageLimit) (hrows : 0 < d.height) (hcolumns : 0 < d.width)
    (hcovers : (region.box (Binary f) config.scale).Covers d) (index channel : ℕ) :
    (∀ k < d.plane, ∃ row < config.height, ∃ column < config.width,
        k ∈ region.binCells (Binary f) config d ⟨index, channel, row, column⟩) ↔
      (BinGrid.ofRegion region config : BinGrid (Binary f)).Reaches config d := by
  obtain ⟨hpos, hpos', -⟩ := PoolConfig.validate_eq_ok_iff.1 hvalid
  obtain ⟨⟨hfirst, -⟩, hfirst', -⟩ := hcovers.borders hrows hcolumns
  obtain ⟨hlimit, hlimit'⟩ := MapDims.sides_le_storageLimit hfits
  have hrow := BinAxis.covers_iff (f := f) hpos hheight hlimit hrows hfirst
  have hcolumn := BinAxis.covers_iff (f := f) hpos' hwidth hlimit' hcolumns hfirst'
  refine Iff.trans ?_ (and_congr hrow hcolumn)
  constructor
  · intro h
    have hcell (y x : ℕ) (hy : y < d.height) (hx : x < d.width) :
        ∃ row < config.height, ∃ column < config.width,
          y ∈ (region.binExtent (Binary f) config d ⟨index, channel, row, column⟩).rows.toList ∧
          x ∈ (region.binExtent (Binary f) config d
            ⟨index, channel, row, column⟩).columns.toList := by
      let p : MapPosition := ⟨0, 0, y, x⟩
      obtain ⟨row, hrow, column, hcolumn, hmem⟩ :=
        h (d.planeOffset p) (MapDims.planeOffset_lt_plane hy hx)
      rw [Region.mem_binCells_iff, MapDims.planeOffset_div hx, MapDims.planeOffset_mod hx] at hmem
      exact ⟨row, hrow, column, hcolumn, hmem⟩
    constructor
    · intro y hy
      obtain ⟨row, hrow, _, -, hmem, -⟩ := hcell y 0 hy hcolumns
      exact ⟨row, hrow, hmem⟩
    · intro x hx
      obtain ⟨_, -, column, hcolumn, -, hmem⟩ := hcell 0 x hrows hx
      exact ⟨column, hcolumn, hmem⟩
  · rintro ⟨hrow, hcolumn⟩ k hk
    obtain ⟨row, hrow, hmem⟩ := hrow (k / d.width) (MapDims.div_width_lt hk)
    obtain ⟨column, hcolumn, hmem'⟩ := hcolumn (k % d.width) (Nat.mod_lt _ hcolumns)
    exact ⟨row, hrow, column, hcolumn, Region.mem_binCells_iff.2 ⟨hmem, hmem'⟩⟩

/-- The bins reach the far borders if the box covers the map and its sides are of exact length. -/
theorem BinGrid.reaches_of_covers (hvalid : config.validate = .ok ())
    (hheight : config.height ≤ twoPow 64) (hwidth : config.width ≤ twoPow 64)
    (hrows : 0 < d.height) (hcolumns : 0 < d.width)
    (hcovers : (region.box (Binary f) config.scale).Covers d)
    (hexact : (region.box (Binary f) config.scale).height ≤ twoPow (f.precision - 1))
    (hexact' : (region.box (Binary f) config.scale).width ≤ twoPow (f.precision - 1)) :
    (BinGrid.ofRegion region config : BinGrid (Binary f)).Reaches config d := by
  obtain ⟨hpos, hpos', -⟩ := PoolConfig.validate_eq_ok_iff.1 hvalid
  obtain ⟨⟨hfirst, hlast⟩, hfirst', hlast'⟩ := hcovers.borders hrows hcolumns
  exact ⟨BinAxis.limit_le_ceilStop hpos hheight hlast hfirst hrows hexact,
    BinAxis.limit_le_ceilStop hpos' hwidth hlast' hfirst' hcolumns hexact'⟩

private theorem Region.binCells_eq_range
    (h : ∀ k < d.plane, k ∈ region.binCells (Binary f) config d q) :
    region.binCells (Binary f) config d q = List.range d.plane := by
  have hordered : (region.binCells (Binary f) config d q).Pairwise (· < ·) :=
    BinExtent.pairwise_offsets (BinAxis.span_stop_le _ _ _)
  apply hordered.eq_of_mem_iff List.pairwise_lt_range
  intro k
  rw [List.mem_range]
  exact ⟨lt_plane_of_mem_binCells, h k⟩

variable {map output : Tensor (Binary f)} {regions : List Region} {w : Winners}

/-- A bin that covers the whole plane holds its first maximum. -/
theorem IsPooledMap.isPooled_range (h : IsPooledMap map regions config d output w)
    (hq : w.dims.Contains q) (hr : regions[q.region]? = some region)
    (hall : ∀ k < d.plane, k ∈ region.binCells (Binary f) config d q) :
    ∃ plane value winner,
      (∀ k < d.plane,
        map.get? [region.batch, q.channel, k / d.width, k % d.width] = some (plane k)) ∧
      output.get? q.toList = some value ∧
      w.get q.region q.channel q.row q.column = .ok winner ∧
      IsPooled plane (List.range d.plane) value winner := by
  rw [← Region.binCells_eq_range hall]
  exact h.isPooled hq hr

/-- Inputs in order are pooled if the result fits into storage. Then the bins of a region whose box
covers the map cover every element exactly if they reach the far borders; they do if neither side of
the box is longer than the exact halves of the format. A single bin that reaches the far borders
gives the maximum of the plane. -/
theorem pool_whole_plane (hmap : map.shape = d.shape) (hrows : 0 < d.height)
    (hcolumns : 0 < d.width) (hvalid : config.validate = .ok ())
    (hregions : ∀ r ∈ regions, r.batch < d.batch ∧ r.isFinite = true) :
    ((∃ result, (pool map regions config).outcome = .ok result) ↔
        (d.pooled config regions.length).shape.occupied ≤ storageLimit) ∧
      ∀ output w, (pool map regions config).outcome = .ok (output, w) →
        ∀ index region, regions[index]? = some region →
          (region.box (Binary f) config.scale).Covers d →
          (∀ channel, (∀ k < d.plane, ∃ row < config.height, ∃ column < config.width,
              k ∈ region.binCells (Binary f) config d ⟨index, channel, row, column⟩) ↔
            (BinGrid.ofRegion region config : BinGrid (Binary f)).Reaches config d) ∧
          ((region.box (Binary f) config.scale).height ≤ twoPow (f.precision - 1) →
            (region.box (Binary f) config.scale).width ≤ twoPow (f.precision - 1) →
            (BinGrid.ofRegion region config : BinGrid (Binary f)).Reaches config d) ∧
          ((BinGrid.ofRegion region config : BinGrid (Binary f)).Reaches config d →
            config.height = 1 → config.width = 1 → ∀ channel < d.channels,
              ∃ plane value winner,
                (∀ k < d.plane, map.get? [region.batch, channel, k / d.width, k % d.width] =
                  some (plane k)) ∧
                output.get? [index, channel, 0, 0] = some value ∧
                w.get index channel 0 0 = .ok winner ∧
                IsPooled plane (List.range d.plane) value winner) := by
  refine ⟨exists_outcome_pool_iff hmap hvalid hregions, ?_⟩
  intro output w h index region hregion hcovers
  have hd := IsPooledMap.of_outcome_pool hmap h
  obtain ⟨hheight, hwidth⟩ := hd.sizes_le
  have hcover (channel : ℕ) := Region.binCells_cover_iff hvalid hheight hwidth
    (Tensor.occupied_le hmap) hrows hcolumns hcovers index channel
  refine ⟨hcover, BinGrid.reaches_of_covers hvalid hheight hwidth hrows hcolumns hcovers, ?_⟩
  intro hreaches hone hone' channel hchannel
  have hq : w.dims.Contains ⟨index, channel, 0, 0⟩ := by
    rw [hd.dims_eq]
    refine ⟨(List.getElem?_eq_some_iff.1 hregion).1, hchannel, ?_, ?_⟩
    · show 0 < config.height
      omega
    · show 0 < config.width
      omega
  apply hd.isPooled_range (q := ⟨index, channel, 0, 0⟩) hq hregion
  intro k hk
  obtain ⟨row, hrow, column, hcolumn, hmem⟩ := (hcover channel).2 hreaches k hk
  obtain rfl : row = 0 := by omega
  obtain rfl : column = 0 := by omega
  exact hmem

/-- A region that is larger than the map, pooled into a single bin. -/
theorem pool_whole_plane_larger :
    let map : Tensor (Binary .single) :=
      ⟨⟨[1, 1, 2, 2]⟩, #[.ofInt 1, .ofInt 2, .ofInt 4, .ofInt 3], rfl, by decide⟩
    let region : Region := ⟨0, .ofInt (-3), .ofInt (-1), .ofInt 5, .ofInt 1⟩
    let config : PoolConfig := ⟨1, 1, .ofInt 1⟩
    ∃ output w, (pool map [region] config).outcome = .ok (output, w) ∧
      output.data = #[.ofInt 4] ∧
      ∃ plane value winner, output.get? [0, 0, 0, 0] = some value ∧
        w.get 0 0 0 0 = .ok winner ∧ IsPooled plane (List.range 4) value winner := by
  intro map region config
  have hmap : map.shape = MapDims.shape ⟨1, 1, 2, 2⟩ := rfl
  have hvalid : config.validate = .ok () := by decide +kernel
  have hregions : ∀ r ∈ [region], r.batch < 1 ∧ r.isFinite = true := by decide +kernel
  obtain ⟨hiff, hwhole⟩ := pool_whole_plane hmap (by decide) (by decide) hvalid hregions
  obtain ⟨⟨output, w⟩, h⟩ := hiff.2 (by decide)
  have hok : ((pool map [region] config).outcome.map fun result ↦ result.1.data) =
      .ok #[.ofInt 4] := by
    decide +kernel
  rw [h] at hok
  have hcovers : (region.box (Binary .single) config.scale).Covers ⟨1, 1, 2, 2⟩ := by
    unfold Box.Covers
    decide +kernel
  obtain ⟨-, hreaches, hsingle⟩ := hwhole output w h 0 region rfl hcovers
  obtain ⟨plane, value, winner, -, hvalue, hwinner, hpooled⟩ :=
    hsingle (hreaches (by decide +kernel) (by decide +kernel)) rfl rfl 0 (by decide)
  exact ⟨output, w, h, Except.ok.inj hok, plane, value, winner, hvalue, hwinner, hpooled⟩

/-- A region from the least to the greatest coordinate contains the map and pools nothing of it. -/
theorem pool_misses_covered_map :
    let map : Tensor (Binary .single) :=
      ⟨⟨[1, 1, 2, 2]⟩, #[.ofInt 1, .ofInt 2, .ofInt 3, .ofInt 4], rfl, by decide⟩
    let greatest : Int := (2 ^ 24 - 1) * 2 ^ 104
    let region : Region :=
      ⟨0, .ofInt (-greatest), .ofInt (-greatest), .ofInt greatest, .ofInt greatest⟩
    let config : PoolConfig := ⟨1, 1, .ofInt 1⟩
    region.isFinite = true ∧ (region.box (Binary .single) config.scale).Covers ⟨1, 1, 2, 2⟩ ∧
      ∃ output w, (pool map [region] config).outcome = .ok (output, w) ∧
        output.data = #[.zero] ∧ w.cells = #[none] := by
  intro map greatest region config
  have hok : ((pool map [region] config).outcome.map fun result ↦
      (result.1.data, result.2.cells)) = .ok (#[.zero], #[none]) := by
    decide +kernel
  have hcovers : (region.box (Binary .single) config.scale).Covers ⟨1, 1, 2, 2⟩ := by
    unfold Box.Covers
    decide +kernel
  obtain ⟨output, w, h, hread⟩ := exists_outcome_pool_of_map hok
  obtain ⟨hdata, hcells⟩ := Prod.mk.inj hread
  exact ⟨by decide +kernel, hcovers, output, w, h, hdata, hcells⟩

end RegionPooling
