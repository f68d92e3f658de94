import RegionPooling.Proofs.Pooling.Records

/-!
# Pooling against its reference

What a successful pooling of a map holds, bin by bin; inputs in order are pooled exactly if the
result fits into storage. Main statement: at every bin of every region and channel the pooled value
and the winner are those of the first maximum of the cells that the bin covers, read in the plane of
the region's batch entry and the channel; no bin is left out. Specification §4.2.
-/

namespace RegionPooling

variable {α : Type} [Scalar α]

/-- Pooled values and winners of a map, bin by bin. -/
structure IsPooledMap (map : Tensor α) (regions : List Region) (config : PoolConfig) (d : MapDims)
    (output : Tensor α) (w : Winners) : Prop where
  map_shape : map.shape = d.shape
  valid : config.validate = .ok ()
  regions_ok : ∀ r ∈ regions, r.batch < d.batch ∧ r.isFinite = true
  fits : (d.pooled config regions.length).shape.occupied ≤ storageLimit
  output_shape : output.shape = (d.pooled config regions.length).shape
  output_data : output.data = (((d.pooled config regions.length).positions.map
    (resultAt map.data d config regions)).map BinResult.value).toArray
  winners : w = d.winners map.data config regions

/-- A successful pooling is described bin by bin. -/
theorem isPooledMap_of_outcome_pool {map : Tensor α} {regions : List Region} {config : PoolConfig}
    {output : Tensor α} {w : Winners} (h : (pool map regions config).outcome = .ok (output, w)) :
    ∃ d, IsPooledMap map regions config d output w := by
  obtain ⟨d, filled, hshape, hvalid, hfill, houtput, rfl⟩ := exists_fill_of_outcome_pool h
  obtain ⟨-, e, haccept, rfl⟩ := Buffers.outcome_fill_eq_ok_iff_filled.1 hfill
  obtain ⟨hshape', -, hregions⟩ := Buffers.accept_eq_ok_iff.1 haccept
  obtain rfl : e = d := MapDims.shape_injective (hshape'.symm.trans hshape)
  obtain ⟨-, hfits, hout, hdata⟩ := Tensor.ofArray_eq_ok_iff.1 houtput
  exact ⟨e, hshape, hvalid, hregions, hfits, hout, hdata, rfl⟩

section

variable {map : Tensor α} {d : MapDims} {regions : List Region} {config : PoolConfig}

/-- Inputs in order whose result fits into storage are pooled. -/
theorem exists_outcome_pool (hmap : map.shape = d.shape) (hvalid : config.validate = .ok ())
    (hregions : ∀ r ∈ regions, r.batch < d.batch ∧ r.isFinite = true)
    (hfits : (d.pooled config regions.length).shape.occupied ≤ storageLimit) :
    ∃ output, (pool map regions config).outcome =
        .ok (output, d.winners map.data config regions) ∧
      IsPooledMap map regions config d output (d.winners map.data config regions) := by
  let fresh := (PooledShape.mk d.channels config).fresh α regions.length
  have haccept : fresh.accept map regions = .ok d :=
    Buffers.accept_eq_ok_iff.2 ⟨hmap, rfl, hregions⟩
  obtain ⟨output, hpool, hshape, hdata⟩ := Buffers.exists_outcome_pool hvalid haccept hfits
  exact ⟨output, hpool, hmap, hvalid, hregions, hfits, hshape, hdata, rfl⟩

/-- A successful pooling of a map of known dimensions is described bin by bin. -/
theorem IsPooledMap.of_outcome_pool {output : Tensor α} {w : Winners} (hmap : map.shape = d.shape)
    (h : (pool map regions config).outcome = .ok (output, w)) :
    IsPooledMap map regions config d output w := by
  obtain ⟨e, he⟩ := isPooledMap_of_outcome_pool h
  obtain rfl : e = d := MapDims.shape_injective (he.map_shape.symm.trans hmap)
  exact he

/-- Of inputs in order exactly those are pooled whose result fits into storage. -/
theorem exists_outcome_pool_iff (hmap : map.shape = d.shape) (hvalid : config.validate = .ok ())
    (hregions : ∀ r ∈ regions, r.batch < d.batch ∧ r.isFinite = true) :
    (∃ result, (pool map regions config).outcome = .ok result) ↔
      (d.pooled config regions.length).shape.occupied ≤ storageLimit := by
  constructor
  · rintro ⟨⟨output, w⟩, h⟩
    exact (IsPooledMap.of_outcome_pool hmap h).fits
  · intro hfits
    obtain ⟨output, h, -⟩ := exists_outcome_pool hmap hvalid hregions hfits
    exact ⟨_, h⟩

end

namespace IsPooledMap

variable {map output : Tensor α} {regions : List Region} {config : PoolConfig} {d : MapDims}
  {w : Winners}

/-- The winners have the dimensions of the result. -/
theorem dims_eq (h : IsPooledMap map regions config d output w) :
    w.dims = d.pooled config regions.length := by
  rw [h.winners]
  rfl

/-- The table of a pooling records it. -/
theorem records (h : IsPooledMap map regions config d output w) : w.Records α regions d config := by
  rw [h.winners]
  exact d.records_winners map.data (PooledDims.countable_of_fits h.fits) h.regions_ok

/-- The numbers of rows and columns of bins are size words. -/
theorem sizes_le (h : IsPooledMap map regions config d output w) :
    config.height ≤ twoPow 64 ∧ config.width ≤ twoPow 64 := by
  have hword : storageLimit ≤ twoPow 64 := by decide
  obtain ⟨hheight, hwidth⟩ := PooledDims.sides_le_storageLimit h.fits
  exact ⟨le_trans hheight hword, le_trans hwidth hword⟩

/-- One winner is stored for every bin. -/
theorem size_cells (h : IsPooledMap map regions config d output w) :
    w.cells.size = w.dims.shape.count := by
  rw [h.dims_eq, h.winners]
  exact d.size_cells_winners map.data config regions

/-- The winner of a bin is stored at its place. -/
theorem cells_getElem? (h : IsPooledMap map regions config d output w) {q : PooledPosition}
    (hq : w.dims.Contains q) {region : Region} (hr : regions[q.region]? = some region) :
    w.cells[w.dims.cell q]? = some (pooledCell map.data d config region q).winner := by
  rw [h.dims_eq] at hq ⊢
  rw [h.winners]
  exact MapDims.winners_getElem? hq hr

/-- The value of a bin is stored at its place. -/
theorem output_getElem? (h : IsPooledMap map regions config d output w) {q : PooledPosition}
    (hq : w.dims.Contains q) {region : Region} (hr : regions[q.region]? = some region) :
    output.get? q.toList = some (pooledCell map.data d config region q).value := by
  rw [h.dims_eq] at hq
  rw [Tensor.get?_pooled h.output_shape hq, h.output_data]
  simp [PooledDims.getElem?_positions hq, resultAt, hr]

/-- The winner of a bin is read at its place. -/
theorem get_eq_ok (h : IsPooledMap map regions config d output w) {q : PooledPosition}
    (hq : w.dims.Contains q) {region : Region} (hr : regions[q.region]? = some region) :
    w.get q.region q.channel q.row q.column =
      .ok (pooledCell map.data d config region q).winner := by
  rw [Winners.get_eq_fetch hq, fetch_eq_ok_iff]
  exact h.cells_getElem? hq hr

/-- The channel of a bin is one of the map. -/
theorem channel_lt (h : IsPooledMap map regions config d output w) {q : PooledPosition}
    (hq : w.dims.Contains q) : q.channel < d.channels := by
  rw [h.dims_eq] at hq
  exact hq.2.1

/-- The result has the bins that the configuration gives a region. -/
theorem contains_bin (h : IsPooledMap map regions config d output w) {index channel row column : ℕ}
    {region : Region} (hregion : regions[index]? = some region) (hchannel : channel < d.channels)
    (hrow : row < config.height) (hcolumn : column < config.width) :
    w.dims.Contains ⟨index, channel, row, column⟩ := by
  rw [h.dims_eq]
  exact ⟨(List.getElem?_eq_some_iff.1 hregion).1, hchannel, hrow, hcolumn⟩

/-- Every bin of the result belongs to a region. -/
theorem exists_region (h : IsPooledMap map regions config d output w) {q : PooledPosition}
    (hq : w.dims.Contains q) : ∃ region, regions[q.region]? = some region := by
  have hlt : q.region < regions.length := by
    have := hq.1
    rw [h.dims_eq] at this
    exact this
  exact ⟨regions[q.region], List.getElem?_eq_getElem hlt⟩

/-- Every bin holds the first maximum of the cells that it covers in its plane. -/
theorem isPooled {f : Format} {map output : Tensor (Binary f)}
    (h : IsPooledMap map regions config d output w) {q : PooledPosition} (hq : w.dims.Contains q)
    {region : Region} (hr : regions[q.region]? = some region) :
    ∃ plane value winner,
      (∀ k < d.plane,
        map.get? [region.batch, q.channel, k / d.width, k % d.width] = some (plane k)) ∧
      output.get? q.toList = some value ∧
      w.get q.region q.channel q.row q.column = .ok winner ∧
      IsPooled plane (region.binCells (Binary f) config d q) value winner := by
  have hbatch := (h.regions_ok region (List.mem_of_getElem? hr)).1
  exact ⟨d.planeValue map.data region.batch q.channel,
    (pooledCell map.data d config region q).value,
    (pooledCell map.data d config region q).winner,
    fun k hk ↦ Tensor.get?_plane h.map_shape hbatch (h.channel_lt hq) hk, h.output_getElem? hq hr,
    h.get_eq_ok hq hr, isPooled_pooledBin _ (BinAxis.span_stop_le _ _ _)⟩

end IsPooledMap

/-- Pooling gives at every bin of every region and channel the first maximum of the cells that the
bin covers on the plane of the region's batch entry and the channel. The covered cells are in raster
order, so that the first maximum is the one with the least position. -/
theorem pool_isPooled {f : Format} {map output : Tensor (Binary f)} {regions : List Region}
    {config : PoolConfig} {w : Winners} (h : (pool map regions config).outcome = .ok (output, w)) :
    ∃ d : MapDims, map.shape = d.shape ∧ w.dims = d.pooled config regions.length ∧
      output.shape = w.dims.shape ∧ w.cells.size = w.dims.shape.count ∧
      ∀ q, w.dims.Contains q → ∃ region, regions[q.region]? = some region ∧
        (region.binCells (Binary f) config d q).Pairwise (· < ·) ∧
        ∃ plane value winner,
          (∀ k ∈ region.binCells (Binary f) config d q,
            map.get? [region.batch, q.channel, k / d.width, k % d.width] = some (plane k)) ∧
          output.get? q.toList = some value ∧
          w.get q.region q.channel q.row q.column = .ok winner ∧
          IsPooled plane (region.binCells (Binary f) config d q) value winner := by
  obtain ⟨d, hd⟩ := isPooledMap_of_outcome_pool h
  refine ⟨d, hd.map_shape, hd.dims_eq, ?_, hd.size_cells, ?_⟩
  · rw [hd.dims_eq, hd.output_shape]
  · intro q hq
    obtain ⟨region, hr⟩ := hd.exists_region hq
    have hstop : (region.binExtent (Binary f) config d q).columns.stop ≤ d.width :=
      BinAxis.span_stop_le _ _ _
    refine ⟨region, hr, BinExtent.pairwise_offsets hstop,
      d.planeValue map.data region.batch q.channel,
      (pooledCell map.data d config region q).value,
      (pooledCell map.data d config region q).winner, ?_, hd.output_getElem? hq hr,
      hd.get_eq_ok hq hr, isPooled_pooledBin _ hstop⟩
    intro k hk
    have hbatch := (hd.regions_ok region (List.mem_of_getElem? hr)).1
    exact Tensor.get?_plane hd.map_shape hbatch (hd.channel_lt hq) (lt_plane_of_mem_binCells hk)

/-- Two rows of a map with a tie and a not-a-number, pooled into two bins and a bin off the map. -/
theorem pool_isPooled_tie :
    let map : Tensor (Binary .single) :=
      ⟨⟨[1, 1, 2, 3]⟩, #[.nan, .ofInt 3, .ofInt 3, .ofInt (-1), .ofInt 3, .nan], rfl, by decide⟩
    let regions : List Region :=
      [⟨0, .zero, .zero, .ofInt 1, .ofInt 1⟩, ⟨0, .ofInt 7, .ofInt 7, .ofInt 9, .ofInt 9⟩]
    let config : PoolConfig := ⟨1, 2, .ofInt 1⟩
    ∃ output w, (pool map regions config).outcome = .ok (output, w) ∧
      w.cells = #[some 3, some 1, none, none] ∧
      ∃ d : MapDims, map.shape = d.shape ∧ w.dims = d.pooled config regions.length ∧
        ∀ q, w.dims.Contains q → ∃ region, regions[q.region]? = some region ∧
          ∃ plane value winner, output.get? q.toList = some value ∧
            w.get q.region q.channel q.row q.column = .ok winner ∧
            IsPooled plane (region.binCells (Binary .single) config d q) value winner := by
  intro map regions config
  have hok : ((pool map regions config).outcome.map fun result ↦ result.2.cells) =
      .ok #[some 3, some 1, none, none] := by
    decide +kernel
  obtain ⟨output, w, h, hcells⟩ := exists_outcome_pool_of_map hok
  obtain ⟨d, hmap, hdims, -, -, heach⟩ := pool_isPooled h
  refine ⟨output, w, h, hcells, d, hmap, hdims, ?_⟩
  intro q hq
  obtain ⟨region, hr, -, plane, value, winner, -, hvalue, hwinner, hpooled⟩ := heach q hq
  exact ⟨region, hr, plane, value, winner, hvalue, hwinner, hpooled⟩

end RegionPooling
