import RegionPooling.Proofs.Pooling.Overwriting
import RegionPooling.Proofs.Strict.Storage

/-!
# Strict filling

Filling as loops over regions, channels and bins. The entry of the batch that a region lies in is a
stretch of the map, and every plane a stretch of the entry; the results of a region are a chunk of
the buffers, and those of a channel a stretch of the chunk. Main statement: once the inputs are
accepted, these loops never break off and leave what filling leaves, if the result fits into
storage.
-/

namespace RegionPooling

namespace Strict

variable {α : Type} [Scalar α]

/-- Cells of a bin along one axis. -/
def span (a : BinAxis α) (limit bin : ℕ) : Except Breach Span := do
  let start ← clamp limit (saturate (a.floorStart bin + a.origin))
  let next ← plus bin 1
  let stop ← clamp limit
    (saturate (Scalar.ceilGrid (Scalar.mul (Scalar.ofInt next) a.share) + a.origin))
  pure ⟨start, stop⟩

/-- Cells of one bin on a map. -/
def extent (g : BinGrid α) (height width row column : ℕ) : Except Breach BinExtent := do
  let rows ← span g.rows height row
  let columns ← span g.columns width column
  pure ⟨rows, columns⟩

/-- First largest element of a rectangle of a plane. -/
def scan (data : Array α) (plane : Stretch) (width : ℕ) (e : BinExtent) :
    Except Breach (Option (Sample α)) :=
  e.rows.toList.foldlM (fun best row ↦ e.columns.toList.foldlM (fun best column ↦ do
    let before ← times row width
    let offset ← plus before column
    let value ← plane.read data offset
    pure (better best ⟨offset, value⟩)) best) none

/-- Pools one bin of a plane. -/
def poolBin (data : Array α) (plane : Stretch) (width : ℕ) (e : BinExtent) :
    Except Breach (BinResult α) :=
  if e.isEmpty then .ok .vacant
  else do
    let best ← scan data plane width e
    pure (.ofBest best)

/-- Writes the result of a bin to its place in a stretch of the values and one of the winners. -/
def write (values winners : Stretch) (b : Buffers α) (i : ℕ) (result : BinResult α) :
    Except Breach (Buffers α) := do
  let output ← values.modify b.output i fun _ ↦ result.value
  let cells ← winners.modify b.winners.cells i fun _ ↦ result.winner
  pure { b with output := output, winners := { b.winners with cells := cells } }

/-- Pools one bin and writes its result. -/
def fillBin (data : Array α) (map : MapDims) (config : PoolConfig) (grid : BinGrid α)
    (source values winners : Stretch) (b : Buffers α) (row column : ℕ) :
    Except Breach (Buffers α) := do
  let before ← times row config.width
  let i ← plus before column
  let e ← extent grid map.height map.width row column
  let result ← poolBin data source map.width e
  write values winners b i result

/-- Pools one channel of a region and writes its results. -/
def fillChannel (data : Array α) (map : MapDims) (config : PoolConfig) (grid : BinGrid α)
    (plane bins : ℕ) (source values winners : Stretch) (b : Buffers α) (channel : ℕ) :
    Except Breach (Buffers α) := do
  let first ← times channel plane
  let source ← source.part first plane
  let start ← times channel bins
  let values ← values.part start bins
  let winners ← winners.part start bins
  (List.range config.height).foldlM (fun b row ↦
    (List.range config.width).foldlM (fun b column ↦
      fillBin data map config grid source values winners b row column) b) b

/-- Pools every channel of a region into its chunks of the values and of the winners. -/
def fillRegion (data : Array α) (map : MapDims) (config : PoolConfig) (stride : ℕ)
    (values winners : Stretch) (b : Buffers α) (region : Region) : Except Breach (Buffers α) := do
  let start ← times region.batch stride
  let source ← (Stretch.mk 0 data.size).part start stride
  let plane ← times map.height map.width
  let bins ← times config.height config.width
  (List.range map.channels).foldlM
    (fillChannel data map config (.ofRegion region config) plane bins source values winners) b

/-- Chunks of storage, one after another; the last one takes what is left. -/
def chunks (length size : ℕ) : List Stretch :=
  (List.range ((length + size - 1) / size)).map fun i ↦ ⟨i * size, min size (length - i * size)⟩

/-- Pools all regions into cleared buffers. Without bins there is nothing to pool. -/
def fillRegions (cleared : Buffers α) (data : Array α) (map : MapDims) (regions : List Region) :
    Except Breach (Buffers α) := do
  let block ← Breach.ofFault cleared.shape.cellsPerRegion
  let stride ← product [map.channels, map.height, map.width]
  if block = 0 then pure cleared
  else
    let chunks := (chunks cleared.output.size block).zip (chunks cleared.winners.cells.size block)
    (chunks.zip regions).foldlM (fun b entry ↦
      fillRegion data map cleared.shape.config stride entry.1.1 entry.1.2 b entry.2) cleared

/-- Pools a map into buffers. -/
def fill (b : Buffers α) (map : Tensor α) (regions : List Region) :
    Except Breach (Buffers α) := do
  let dims ← Breach.ofRefusal (b.accept map regions)
  let cleared ← Breach.ofFault (b.resize regions.length)
  let written ← fillRegions cleared map.data dims regions
  pure (written.note dims regions)

private theorem scan_eq_ok {data : Array α} {plane : Stretch} {width : ℕ} {e : BinExtent}
    {value : ℕ → α} (hsize : plane.length ≤ storageLimit)
    (hinside : ∀ k ∈ e.offsets width, k < plane.length)
    (hvalue : ∀ k < plane.length, data[plane.start + k]? = some (value k)) :
    scan data plane width e =
      .ok ((e.offsets width).foldl (fun best k ↦ better best ⟨k, value k⟩) none) := by
  have hscan : scan data plane width e =
      (e.offsets width).foldlM (fun best k ↦ .ok (better best ⟨k, value k⟩)) none := by
    unfold scan BinExtent.offsets
    rw [foldlM_flatMap]
    apply foldlM_congr
    intro row hrow best
    rw [List.foldlM_map]
    apply foldlM_congr
    intro column hcolumn best
    have hlt := hinside _ (BinExtent.mem_offsets.2 ⟨row, hrow, column, hcolumn, rfl⟩)
    simp (disch := omega) only [times_eq_ok, plus_eq_ok, ok_bind, Stretch.read_of_lt hlt,
      fetch_eq_ok_iff.2 (hvalue _ hlt)]
    rfl
  rw [hscan]
  exact List.foldlM_pure

end Strict

/-- Bins of one region over all channels. -/
def PooledShape.block (s : PooledShape) : ℕ := s.channels * (s.config.height * s.config.width)

namespace Buffers

variable {α : Type} [Scalar α]

end Buffers

/-- A map and a result that fit into storage, and regions of the batch. -/
structure Fillable {α : Type} (data : Array α) (map : MapDims) (s : PooledShape)
    (regions : List Region) : Prop where
  size : data.size = map.shape.count
  map_fits : map.shape.occupied ≤ storageLimit
  result_fits : (s.dims regions.length).shape.occupied ≤ storageLimit
  channels : map.channels = s.channels
  batch : ∀ r ∈ regions, r.batch < map.batch

namespace Fillable

variable {α : Type} {data : Array α} {map : MapDims} {s : PooledShape}
  {regions : List Region} {index channel : ℕ} {region : Region}

private theorem batch_lt (h : Fillable data map s regions)
    (hregion : regions[index]? = some region) :
    region.batch < map.batch := h.batch region (List.mem_of_getElem? hregion)

private theorem strides_le (h : Fillable data map s regions) :
    map.plane ≤ storageLimit ∧ map.channels * map.plane ≤ storageLimit :=
  have hproducts := Shape.products_le h.map_fits
  ⟨hproducts.2.1, hproducts.2.2.1⟩

variable [Scalar α]

/-- A bin is pooled on the stretch of its plane. -/
theorem poolBin_eq_ok (h : Fillable data map s regions) {q : PooledPosition}
    (hregion : regions[q.region]? = some region) (hc : q.channel < map.channels) :
    Strict.poolBin data ⟨map.planeStart region.batch q.channel, map.plane⟩ map.width
        (region.binExtent α s.config map q) = .ok (resultAt data map s.config regions q) := by
  have hinside : ∀ k ∈ (region.binExtent α s.config map q).offsets map.width, k < map.plane :=
    fun k hk ↦ lt_plane_of_mem_binCells hk
  have hvalue : ∀ k < map.plane, data[map.planeStart region.batch q.channel + k]? =
      some (map.planeValue data region.batch q.channel k) :=
    fun k hk ↦ MapDims.getElem?_planeStart_add h.size (h.batch_lt hregion) hc hk
  have hscan : Strict.scan data ⟨map.planeStart region.batch q.channel, map.plane⟩ map.width
      (region.binExtent α s.config map q) = _ :=
    Strict.scan_eq_ok h.strides_le.1 hinside hvalue
  have hresult : resultAt data map s.config regions q = pooledCell data map s.config region q := by
    rw [resultAt, hregion]
  rw [hresult]
  unfold Strict.poolBin pooledCell pooledBin
  split
  · rfl
  · rw [hscan]
    rfl

end Fillable

end RegionPooling
