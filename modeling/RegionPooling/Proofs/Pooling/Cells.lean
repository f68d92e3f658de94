import RegionPooling.Proofs.Pooling.FirstMaximum
import RegionPooling.Proofs.Pooling.Sizes

/-!
# Pooled results bin by bin

Pooling walks regions, channels and bins and reads each plane as a slice of the map. Here its result
is described by what it holds at every bin, with no walk and no slices. Main statement: filling
buffers refuses exactly what is not accepted and never leaves the storage of the map; otherwise they
hold `pooledCell` at every bin, if the result can be counted, and filling ends in an overflow if
not.
-/

namespace RegionPooling

/-- A bin inside the dimensions is read at its place. -/
theorem Winners.get_eq_fetch {w : Winners} {q : PooledPosition} (h : w.dims.Contains q) :
    w.get q.region q.channel q.row q.column = fetch w.cells (w.dims.cell q) := if_pos h

/-- A bin with a winner lies inside the dimensions. -/
theorem Winners.contains_of_get {w : Winners} {q : PooledPosition} {offset : ℕ}
    (h : w.get q.region q.channel q.row q.column = .ok (some offset)) : w.dims.Contains q := by
  by_contra hout
  have hnone : w.get q.region q.channel q.row q.column = .ok none := if_neg hout
  rw [hnone] at h
  cases h

variable {α : Type} [Scalar α]

/-- Elements of one plane of a map. -/
def MapDims.planeValue (map : MapDims) (data : Array α) (batch channel k : ℕ) : α :=
  data.getD (map.planeStart batch channel + k) Scalar.zero

/-- The elements of a plane are stored from its start on. -/
theorem MapDims.getElem?_planeStart_add {map : MapDims} {data : Array α} {batch channel k : ℕ}
    (hsize : data.size = map.shape.count) (hb : batch < map.batch) (hc : channel < map.channels)
    (hk : k < map.plane) :
    data[map.planeStart batch channel + k]? = some (map.planeValue data batch channel k) := by
  have hle := planeStart_add_plane_le hb hc
  have hlt : map.planeStart batch channel + k < data.size := by omega
  simp [planeValue, hlt]

/-- The elements of a plane are those of the map. -/
theorem Tensor.get?_plane {map : Tensor α} {d : MapDims} {batch channel k : ℕ}
    (hmap : map.shape = d.shape) (hb : batch < d.batch) (hc : channel < d.channels)
    (hk : k < d.plane) : map.get? [batch, channel, k / d.width, k % d.width] =
      some (d.planeValue map.data batch channel k) := by
  have hsize : map.data.size = d.shape.count := by rw [map.size_data, hmap]
  have hget := Tensor.get?_map hmap (MapDims.contains_planeElement hb hc hk)
  rw [MapDims.place_planeElement, MapDims.getElem?_planeStart_add hsize hb hc hk] at hget
  exact hget

/-- Dimensions of the result of pooling a map under a configuration. -/
def MapDims.pooled (map : MapDims) (config : PoolConfig) (regions : ℕ) : PooledDims :=
  ⟨regions, map.channels, config.height, config.width⟩

/-- Rows and columns that a bin of a region covers on a map. -/
def Region.binExtent (α : Type) [Scalar α] (region : Region) (config : PoolConfig) (map : MapDims)
    (q : PooledPosition) : BinExtent :=
  (BinGrid.ofRegion region config : BinGrid α).extent map.height map.width q.row q.column

/-- Plane positions that a bin of a region covers on a map, in raster order. -/
def Region.binCells (α : Type) [Scalar α] (region : Region) (config : PoolConfig) (map : MapDims)
    (q : PooledPosition) : List ℕ :=
  (region.binExtent α config map q).offsets map.width

/-- Result of one bin of a region on a map. -/
def pooledCell (data : Array α) (map : MapDims) (config : PoolConfig) (region : Region)
    (q : PooledPosition) : BinResult α :=
  pooledBin (map.planeValue data region.batch q.channel) map.width
    (region.binExtent α config map q)

/-- The covered positions of a bin are read back as a covered row and a covered column. -/
theorem mem_binExtent_of_mem_binCells {region : Region} {config : PoolConfig} {map : MapDims}
    {q : PooledPosition} {k : ℕ} (h : k ∈ region.binCells α config map q) :
    k / map.width ∈ (region.binExtent α config map q).rows.toList ∧
      k % map.width ∈ (region.binExtent α config map q).columns.toList := by
  obtain ⟨row, hrow, column, hcolumn, rfl⟩ := BinExtent.mem_offsets.1 h
  have hlt : column < map.width := lt_of_lt_of_le (Span.mem_toList.1 hcolumn).2
    (BinAxis.span_stop_le _ _ _)
  have hk : map.planeOffset ⟨0, 0, row, column⟩ = row * map.width + column := rfl
  rw [← hk, MapDims.planeOffset_div hlt, MapDims.planeOffset_mod hlt]
  exact ⟨hrow, hcolumn⟩

/-- A plane position is covered by a bin if its row and its column are. -/
theorem Region.mem_binCells_iff {region : Region} {config : PoolConfig} {map : MapDims}
    {q : PooledPosition} {k : ℕ} :
    k ∈ region.binCells α config map q ↔
      k / map.width ∈ (region.binExtent α config map q).rows.toList ∧
        k % map.width ∈ (region.binExtent α config map q).columns.toList := by
  constructor
  · exact mem_binExtent_of_mem_binCells
  · rintro ⟨hrow, hcolumn⟩
    exact BinExtent.mem_offsets.2 ⟨_, hrow, _, hcolumn, Nat.div_add_mod' k map.width⟩

/-- The covered positions of a bin lie in the plane. -/
theorem lt_plane_of_mem_binCells {region : Region} {config : PoolConfig} {map : MapDims}
    {q : PooledPosition} {k : ℕ} (h : k ∈ region.binCells α config map q) : k < map.plane := by
  obtain ⟨row, hrow, column, hcolumn, rfl⟩ := BinExtent.mem_offsets.1 h
  have hrow' : row < map.height := lt_of_lt_of_le (Span.mem_toList.1 hrow).2
    (BinAxis.span_stop_le _ _ _)
  have hcolumn' : column < map.width := lt_of_lt_of_le (Span.mem_toList.1 hcolumn).2
    (BinAxis.span_stop_le _ _ _)
  exact MapDims.planeOffset_lt_plane (p := ⟨0, 0, row, column⟩) hrow' hcolumn'

private theorem slice_plane_eq_ok {data : Array α} {map : MapDims} {batch channel : ℕ}
    (hsize : data.size = map.shape.count) (hb : batch < map.batch) (hc : channel < map.channels) :
    ∃ plane, slice data (map.planeStart batch channel) map.plane = .ok plane ∧
      ∀ k < map.plane, plane[k]? = some (map.planeValue data batch channel k) := by
  have hle : map.planeStart batch channel + map.plane ≤ data.size := by
    rw [hsize]
    exact MapDims.planeStart_add_plane_le hb hc
  refine ⟨_, slice_of_le hle, ?_⟩
  intro k hk
  rw [Array.getElem?_extract, if_pos (by omega), MapDims.getElem?_planeStart_add hsize hb hc hk]

/-- Pooling a region of the batch holds its bins in order. -/
theorem poolRegion_eq_ok {data : Array α} {map : MapDims} {d : PooledDims} {config : PoolConfig}
    {region : Region} (index : ℕ) (hsize : data.size = map.shape.count)
    (hb : region.batch < map.batch) (hd : d.channels = map.channels)
    (hh : d.height = config.height) (hw : d.width = config.width) :
    poolRegion data map config region =
      .ok ((d.regionPositions index).map (pooledCell data map config region)) := by
  have hchannel : ∀ channel ∈ List.range map.channels,
      (do
        let plane ← slice data (map.planeStart region.batch channel) map.plane
        poolPlane plane map.width
          ((BinGrid.ofRegion region config : BinGrid α).extents config map.height map.width)) =
      .ok ((d.planePositions index channel).map (pooledCell data map config region)) := by
    intro channel hmem
    obtain ⟨plane, hslice, hplane⟩ := slice_plane_eq_ok hsize hb (List.mem_range.1 hmem)
    rw [hslice]
    show poolPlane plane map.width _ = _
    have heach : ∀ e ∈ (BinGrid.ofRegion region config : BinGrid α).extents config map.height
        map.width, poolBin plane map.width e =
          .ok (pooledBin (map.planeValue data region.batch channel) map.width e) := by
      intro e he
      rw [BinGrid.extents_eq] at he
      simp only [List.mem_flatMap, List.mem_map] at he
      obtain ⟨row, -, column, -, rfl⟩ := he
      apply poolBin_eq_ok
      intro k hk
      exact hplane k (lt_plane_of_mem_binCells (q := ⟨index, channel, row, column⟩) hk)
    unfold poolPlane
    rw [mapM_eq_ok heach, BinGrid.extents_eq, PooledDims.planePositions, List.map_flatMap,
      List.map_flatMap, hh, hw]
    simp only [List.map_map]
    rfl
  unfold poolRegion
  dsimp only
  rw [mapM_eq_ok hchannel]
  show Except.ok _ = Except.ok _
  rw [PooledDims.regionPositions, List.map_flatMap, hd, List.flatMap_def]

/-- Result at a bin of a list of regions. -/
def resultAt (data : Array α) (map : MapDims) (config : PoolConfig) (regions : List Region)
    (q : PooledPosition) : BinResult α :=
  match regions[q.region]? with
  | some region => pooledCell data map config region q
  | none => .vacant

/-- Winners of a map, bin by bin. -/
def MapDims.winners (map : MapDims) (data : Array α) (config : PoolConfig)
    (regions : List Region) : Winners where
  dims := map.pooled config regions.length
  cells := (((map.pooled config regions.length).positions.map
    (resultAt data map config regions)).map BinResult.winner).toArray
  provenance := some ⟨regions, map, config⟩

/-- One winner is stored for every bin. -/
theorem MapDims.size_cells_winners (map : MapDims) (data : Array α) (config : PoolConfig)
    (regions : List Region) : (map.winners data config regions).cells.size =
      (map.pooled config regions.length).shape.count := by
  simp [winners]

/-- The winner of a bin is stored at its place. -/
theorem MapDims.winners_getElem? {map : MapDims} {data : Array α} {config : PoolConfig}
    {regions : List Region} {q : PooledPosition}
    (hq : (map.pooled config regions.length).Contains q) {region : Region}
    (hr : regions[q.region]? = some region) :
    (map.winners data config regions).cells[(map.pooled config regions.length).cell q]? =
      some (pooledCell data map config region q).winner := by
  simp [winners, PooledDims.getElem?_positions hq, resultAt, hr]

/-- Pooling one of a list of regions holds the bins of its place in the list. -/
theorem poolRegion_eq_ok_of_mem {data : Array α} {map : MapDims} {shape : PooledShape}
    {regions : List Region} (hsize : data.size = map.shape.count)
    (hb : ∀ r ∈ regions, r.batch < map.batch) (hc : map.channels = shape.channels)
    {entry : Region × ℕ} (hmem : entry ∈ regions.zipIdx) :
    poolRegion data map shape.config entry.1 =
      .ok (((shape.dims regions.length).regionPositions entry.2).map
        (resultAt data map shape.config regions)) := by
  obtain ⟨region, index⟩ := entry
  have hget := List.mem_zipIdx_iff_getElem?.1 hmem
  have hbatch := hb region (List.mem_of_getElem? hget)
  rw [poolRegion_eq_ok (d := shape.dims regions.length) index hsize hbatch hc.symm rfl rfl]
  congr 1
  apply List.map_congr_left
  intro q hq
  have hindex := (PooledDims.mem_regionPositions.1 hq).1
  unfold resultAt
  rw [hindex, hget]

/-- Pooling regions of the batch holds all bins in order, if the result can be counted. -/
theorem poolRegions_eq_ok {data : Array α} {map : MapDims} {shape : PooledShape}
    {regions : List Region} (hsize : data.size = map.shape.count)
    (hb : ∀ r ∈ regions, r.batch < map.batch) (hc : map.channels = shape.channels)
    (hcount : (shape.dims regions.length).Countable) :
    ∃ results, poolRegions data map shape regions = .ok results ∧
      results.flatten =
        (shape.dims regions.length).positions.map (resultAt data map shape.config regions) := by
  unfold poolRegions
  rw [PooledShape.cellsPerRegion_of_countable hcount, ok_bind]
  split
  · next hzero =>
    exact ⟨[], rfl, by rw [PooledDims.positions_eq_nil hzero]; rfl⟩
  · have hregion : ∀ entry ∈ regions.zipIdx, poolRegion data map shape.config entry.1 =
        .ok (((shape.dims regions.length).regionPositions entry.2).map
          (resultAt data map shape.config regions)) :=
      fun entry hmem ↦ poolRegion_eq_ok_of_mem hsize hb hc hmem
    have hmap : regions.mapM (poolRegion data map shape.config) =
        regions.zipIdx.mapM fun entry ↦ poolRegion data map shape.config entry.1 := by
      conv_lhs => rw [← List.zipIdx_map_fst 0 regions, List.mapM_map]
      rfl
    rw [hmap, mapM_eq_ok hregion]
    refine ⟨_, rfl, ?_⟩
    rw [← List.flatMap_def, PooledDims.positions, List.map_flatMap]
    exact flatMap_zipIdx_eq_range fun _ _ _ ↦ rfl

namespace Buffers

/-- Buffers that hold the results of a pass. -/
def filled (b : Buffers α) (map : Tensor α) (dims : MapDims) (regions : List Region) :
    Buffers α :=
  let results := (b.shape.dims regions.length).positions.map
    (resultAt map.data dims b.shape.config regions)
  { shape := b.shape
    regions := regions.length
    output := (results.map BinResult.value).toArray
    winners :=
      { dims := b.shape.dims regions.length
        cells := (results.map BinResult.winner).toArray
        provenance := some ⟨regions, dims, b.shape.config⟩ } }

/-- The winners held are those of the map. -/
theorem winners_filled {b : Buffers α} {map : Tensor α} {dims : MapDims} (regions : List Region)
    (hc : dims.channels = b.shape.channels) :
    (b.filled map dims regions).winners = dims.winners map.data b.shape.config regions := by
  unfold filled MapDims.winners MapDims.pooled
  rw [hc]
  rfl

/-- Accepted inputs whose result can be counted are pooled: the buffers then hold the results. -/
theorem outcome_fill_of_accept {b : Buffers α} {map : Tensor α} {regions : List Region}
    {d : MapDims} (haccept : b.accept map regions = .ok d)
    (hcount : (b.shape.dims regions.length).Countable) :
    (b.fill map regions).outcome = .ok (b.filled map d regions) := by
  obtain ⟨hshape, hchannels, hregions⟩ := accept_eq_ok_iff.1 haccept
  have hsize : map.data.size = d.shape.count := by rw [map.size_data, hshape]
  obtain ⟨results, hpool, hflat⟩ :=
    poolRegions_eq_ok hsize (fun r hr ↦ (hregions r hr).1) hchannels hcount
  refine outcome_fill_eq_ok_iff.2
    ⟨d, haccept, _, PooledShape.allocate_eq_ok hcount, results, hpool, ?_⟩
  unfold hold filled
  rw [hflat]
  rfl

/-- Filling succeeds exactly with the results of accepted inputs, if these can be counted. -/
theorem outcome_fill_eq_ok_iff_filled {b after : Buffers α} {map : Tensor α}
    {regions : List Region} :
    (b.fill map regions).outcome = .ok after ↔ (b.shape.dims regions.length).Countable ∧
      ∃ d, b.accept map regions = .ok d ∧ b.filled map d regions = after := by
  constructor
  · intro h
    obtain ⟨d, haccept, fresh, hfresh, -⟩ := outcome_fill_eq_ok_iff.1 h
    have hcount := (PooledShape.allocate_eq_ok_iff.1 hfresh).1
    rw [outcome_fill_of_accept haccept hcount] at h
    exact ⟨hcount, d, haccept, Except.ok.inj h⟩
  · rintro ⟨hcount, d, haccept, rfl⟩
    exact outcome_fill_of_accept haccept hcount

/-- Filling refuses what is not accepted and otherwise holds the results of the pass, if these can
be counted. In particular it never leaves the storage of the map. -/
theorem outcome_fill {b : Buffers α} {map : Tensor α} {regions : List Region}
    (hcount : (b.shape.dims regions.length).Countable) :
    (b.fill map regions).outcome =
      Fault.ofRefusal ((b.accept map regions).map fun dims ↦ b.filled map dims regions) := by
  cases haccept : b.accept map regions with
  | error e =>
    unfold fill
    rw [Run.outcome_bind, haccept]
    rfl
  | ok d => exact outcome_fill_of_accept haccept hcount

/-- Filling with accepted inputs ends in an overflow if their result cannot be counted. -/
theorem outcome_fill_of_not_countable {b : Buffers α} {map : Tensor α} {regions : List Region}
    {d : MapDims} (haccept : b.accept map regions = .ok d)
    (hcount : ¬ (b.shape.dims regions.length).Countable) :
    (b.fill map regions).outcome = .error .overflow := by
  have hresize : b.resize regions.length = .error .overflow :=
    PooledShape.allocate_of_not_countable hcount
  unfold fill
  rw [Run.outcome_bind, haccept, hresize]
  rfl

/-- Filled buffers come apart into a tensor and the winners, if the result fits into storage. -/
theorem parts_filled (b : Buffers α) (map : Tensor α) (dims : MapDims) {regions : List Region}
    (hfits : (b.shape.dims regions.length).shape.occupied ≤ storageLimit) :
    ∃ output, (b.filled map dims regions).parts =
        .ok (output, (b.filled map dims regions).winners) ∧
      output.shape = (b.shape.dims regions.length).shape ∧
      output.data = (b.filled map dims regions).output := by
  have hsize : (b.filled map dims regions).output.size =
      (b.shape.dims regions.length).shape.count := by
    simp [filled]
  refine ⟨⟨_, _, hsize, hfits⟩, ?_, rfl, rfl⟩
  refine parts_eq_ok_iff.2 ⟨Tensor.ofArray_eq_ok_iff.2 ⟨?_, hfits, rfl, rfl⟩, rfl⟩
  rw [hsize]
  exact (Shape.size_eq_count hfits).symm

/-- Pooling under the configuration of buffers gives what they hold after a pass over the same
inputs, if the result fits into storage. -/
theorem exists_outcome_pool {b : Buffers α} {map : Tensor α} {d : MapDims} {regions : List Region}
    (hvalid : b.shape.config.validate = .ok ()) (haccept : b.accept map regions = .ok d)
    (hfits : (b.shape.dims regions.length).shape.occupied ≤ storageLimit) :
    ∃ output, (pool map regions b.shape.config).outcome =
        .ok (output, (b.filled map d regions).winners) ∧
      output.shape = (b.shape.dims regions.length).shape ∧
      output.data = (b.filled map d regions).output := by
  obtain ⟨hmap, hchannels, -⟩ := accept_eq_ok_iff.1 haccept
  have hresolve : (PooledShape.resolveFor b.shape.config map.shape).outcome = .ok b.shape := by
    refine PooledShape.outcome_resolveFor_eq_ok_iff.2 ⟨d, hmap, hvalid, ?_⟩
    rw [hchannels]
  -- fresh buffers of the shape accept the same inputs and are filled alike
  have hcount := PooledDims.countable_of_fits hfits
  have hfill : ((b.shape.fresh α regions.length).fill map regions).outcome =
      .ok (b.filled map d regions) := outcome_fill_of_accept haccept hcount
  obtain ⟨output, hparts, hshape, hdata⟩ := b.parts_filled map d hfits
  exact ⟨output, outcome_pool_eq_ok_iff.2 ⟨b.shape, hresolve, _,
    PooledShape.allocate_eq_ok hcount, _, hfill, hparts⟩, hshape, hdata⟩

end Buffers

/-- What is read off a success is read off its result. -/
theorem exists_of_map_eq_ok {ε β γ : Type} {outcome : Except ε β} {read : β → γ} {c : γ}
    (h : outcome.map read = .ok c) : ∃ b, outcome = .ok b ∧ read b = c := by
  cases outcome with
  | error e => cases h
  | ok b => exact ⟨b, rfl, Except.ok.inj h⟩

/-- What is read off a successful pooling is read off its result. -/
theorem exists_outcome_pool_of_map {α β : Type} [Scalar α] {map : Tensor α} {regions : List Region}
    {config : PoolConfig} {read : Tensor α × Winners → β} {b : β}
    (h : (pool map regions config).outcome.map read = .ok b) :
    ∃ output w, (pool map regions config).outcome = .ok (output, w) ∧ read (output, w) = b := by
  obtain ⟨⟨output, w⟩, hpool, hread⟩ := exists_of_map_eq_ok h
  exact ⟨output, w, hpool, hread⟩

end RegionPooling
