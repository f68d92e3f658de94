import Mathlib.Data.List.Sort
import RegionPooling.Gradient.Gather
import RegionPooling.Proofs.Bins.Candidates
import RegionPooling.Proofs.Gradient.ElementSums

/-!
# Scattering and gathering agree

Gathering looks for the bins that an element won among the candidates of its row and its column. As
long as bin numbers are exact in the format, no bin is missed, so that the same bins are visited in
the same order as in scattering. Main statement: after a successful pooling both forms give the same
tensor. Specification §4.3 asks this of the two forms, and §10.10 describes them.
-/

namespace RegionPooling

/-- Candidates of one region for a map element, in row-major order. -/
def PlacedGrid.candidateBins {α : Type} [Scalar α] (g : PlacedGrid α) (dims : PooledDims)
    (p : MapPosition) : List PooledPosition :=
  (g.grid.rows.candidates dims.height p.row).toList.flatMap fun row ↦
    (g.grid.columns.candidates dims.width p.column).toList.map fun column ↦
      ⟨g.index, p.channel, row, column⟩

/-- Candidates of all regions of the batch entry of a map element. -/
def candidateBins {α : Type} [Scalar α] (grids : List (PlacedGrid α)) (dims : PooledDims)
    (p : MapPosition) : List PooledPosition :=
  (grids.filter (·.batch = p.batch)).flatMap (·.candidateBins dims p)

section

variable {α : Type} [Scalar α] {dims : PooledDims} {p : MapPosition}

/-- A candidate has the region of the grid, the channel of the element, and a candidate row and
column. -/
theorem PlacedGrid.mem_candidateBins {g : PlacedGrid α} {q : PooledPosition} :
    q ∈ g.candidateBins dims p ↔ q.region = g.index ∧ q.channel = p.channel ∧
      q.row ∈ (g.grid.rows.candidates dims.height p.row).toList ∧
      q.column ∈ (g.grid.columns.candidates dims.width p.column).toList := by
  obtain ⟨region, channel, row, column⟩ := q
  simp only [candidateBins, List.mem_flatMap, List.mem_map, PooledPosition.mk.injEq]
  constructor
  · rintro ⟨_, hrow, _, hcolumn, rfl, rfl, rfl, rfl⟩
    exact ⟨rfl, rfl, hrow, hcolumn⟩
  · rintro ⟨rfl, rfl, hrow, hcolumn⟩
    exact ⟨row, hrow, column, hcolumn, rfl, rfl, rfl, rfl⟩

/-- The cells that are looked up are those of the candidates. -/
theorem PlacedGrid.candidateCells_eq (g : PlacedGrid α) (p : MapPosition) :
    g.candidateCells dims dims.channels (dims.height * dims.width) p =
      (g.candidateBins dims p).map dims.cell := by
  unfold candidateCells candidateBins
  rw [List.map_flatMap]
  apply List.flatMap_congr
  intro row _
  rw [List.map_map]
  apply List.map_congr_left
  intro column _
  simp only [Function.comp_apply, PooledDims.cell]
  ring

/-- The candidates of one region are in row-major order. -/
theorem PlacedGrid.pairwise_candidateBins (g : PlacedGrid α) (dims : PooledDims)
    (p : MapPosition) : (g.candidateBins dims p).Pairwise PooledPosition.Precedes := by
  unfold candidateBins
  rw [List.pairwise_flatMap]
  constructor
  · intro row _
    rw [List.pairwise_map]
    apply List.Pairwise.imp _ List.pairwise_lt_range'
    intro i j hij
    simp [PooledPosition.Precedes, hij]
  · apply List.Pairwise.imp _ List.pairwise_lt_range'
    intro i j hij x hx y hy
    obtain ⟨_, _, rfl⟩ := List.mem_map.1 hx
    obtain ⟨_, _, rfl⟩ := List.mem_map.1 hy
    simp [PooledPosition.Precedes, hij]

private theorem pairwise_placeGrids (regions : List Region) (config : PoolConfig) :
    (placeGrids regions config : List (PlacedGrid α)).Pairwise (·.index < ·.index) := by
  unfold placeGrids
  rw [List.pairwise_map, ← List.pairwise_map (f := Prod.snd) (R := (· < ·)), List.zipIdx_map_snd]
  exact List.pairwise_lt_range'

/-- A grid is placed exactly if it is that of the region at its place. -/
theorem mem_placeGrids {regions : List Region} {config : PoolConfig} {g : PlacedGrid α} :
    g ∈ placeGrids regions config ↔ ∃ region, regions[g.index]? = some region ∧
      g.batch = region.batch ∧ g.grid = .ofRegion region config := by
  obtain ⟨index, batch, grid⟩ := g
  simp only [placeGrids, List.mem_map, PlacedGrid.mk.injEq, Prod.exists,
    List.mem_zipIdx_iff_getElem?]
  constructor
  · rintro ⟨region, _, hget, rfl, rfl, rfl⟩
    exact ⟨region, hget, rfl, rfl⟩
  · rintro ⟨region, hget, rfl, rfl⟩
    exact ⟨region, index, hget, rfl, rfl, rfl⟩

/-- A candidate belongs to a region of the batch entry of the element. -/
theorem mem_candidateBins {regions : List Region} {config : PoolConfig} {q : PooledPosition} :
    q ∈ candidateBins (placeGrids regions config : List (PlacedGrid α)) dims p ↔
      ∃ region, regions[q.region]? = some region ∧ region.batch = p.batch ∧
        q.channel = p.channel ∧
        q.row ∈ ((BinGrid.ofRegion region config : BinGrid α).rows.candidates dims.height
          p.row).toList ∧
        q.column ∈ ((BinGrid.ofRegion region config : BinGrid α).columns.candidates dims.width
          p.column).toList := by
  simp only [candidateBins, List.mem_flatMap, List.mem_filter, mem_placeGrids, decide_eq_true_eq,
    PlacedGrid.mem_candidateBins]
  constructor
  · rintro ⟨g, ⟨⟨region, hregion, hbatch, hgrid⟩, hentry⟩, hindex, hchannel, hrow, hcolumn⟩
    rw [← hindex] at hregion
    rw [hgrid] at hrow hcolumn
    exact ⟨region, hregion, hbatch.symm.trans hentry, hchannel, hrow, hcolumn⟩
  · rintro ⟨region, hregion, hbatch, hchannel, hrow, hcolumn⟩
    exact ⟨⟨q.region, region.batch, .ofRegion region config⟩,
      ⟨⟨region, hregion, rfl, rfl⟩, hbatch⟩, rfl, hchannel, hrow, hcolumn⟩

/-- The candidates of all regions are in row-major order. -/
theorem pairwise_candidateBins (regions : List Region) (config : PoolConfig) (dims : PooledDims)
    (p : MapPosition) : (candidateBins (placeGrids regions config : List (PlacedGrid α)) dims
      p).Pairwise PooledPosition.Precedes := by
  unfold candidateBins
  rw [List.pairwise_flatMap]
  refine ⟨fun g _ ↦ g.pairwise_candidateBins dims p, ?_⟩
  apply List.Pairwise.imp _ ((pairwise_placeGrids regions config).filter _)
  intro g h hlt x hx y hy
  rw [← (PlacedGrid.mem_candidateBins.1 hx).1, ← (PlacedGrid.mem_candidateBins.1 hy).1] at hlt
  exact .inl hlt

private theorem foldlM_addIfWon {w : Winners} {gradient : Array α} {offset : ℕ}
    {bins : List PooledPosition} {total : α}
    (h : ∀ q ∈ bins, w.dims.cell q < w.cells.size ∧ w.dims.cell q < gradient.size) :
    (bins.map w.dims.cell).foldlM (addIfWon w gradient offset) total =
      .ok ((bins.filter fun q ↦ w.winnerAt q = some offset).foldl
        (fun total q ↦ Scalar.add total (gradient.getD (w.dims.cell q) Scalar.zero)) total) := by
  induction bins generalizing total with
  | nil => rfl
  | cons q bins ih =>
    obtain ⟨hcell, hterm⟩ := h q List.mem_cons_self
    have hmem : ∀ r ∈ bins, w.dims.cell r < w.cells.size ∧ w.dims.cell r < gradient.size :=
      fun r hr ↦ h r (List.mem_cons_of_mem _ hr)
    have hwinner : w.cells[w.dims.cell q] = w.winnerAt q := Array.getElem_eq_getD _
    have hadd : gradient[w.dims.cell q] = gradient.getD (w.dims.cell q) Scalar.zero :=
      Array.getElem_eq_getD _
    have hstep : addIfWon w gradient offset total (w.dims.cell q) =
        .ok (if w.winnerAt q = some offset then
          Scalar.add total (gradient.getD (w.dims.cell q) Scalar.zero) else total) := by
      unfold addIfWon
      rw [fetch_of_lt hcell, fetch_of_lt hterm, hwinner, hadd]
      show (if w.winnerAt q = some offset then Except.ok _ else Except.ok total) = _
      split <;> rfl
    rw [List.map_cons, List.foldlM_cons, hstep]
    refine (ih hmem).trans ?_
    by_cases hwon : w.winnerAt q = some offset
    · rw [if_pos hwon, List.filter_cons_of_pos (by simpa using hwon), List.foldl_cons]
    · rw [if_neg hwon, List.filter_cons_of_neg (by simpa using hwon)]

end

/-- Candidates of a map element that it won, in row-major order. -/
def Winners.takenBins (α : Type) [Scalar α] (w : Winners) (regions : List Region)
    (config : PoolConfig) (map : MapDims) (p : MapPosition) : List PooledPosition :=
  (candidateBins (placeGrids regions config : List (PlacedGrid α)) w.dims p).filter
    fun q ↦ w.winnerAt q = some (map.planeOffset p)

namespace Winners.Records

variable {α β : Type} [Scalar α] [Scalar β] {w : Winners} {regions : List Region} {map : MapDims}
  {config : PoolConfig}

private theorem contains_of_mem_candidateBins (hr : w.Records β regions map config)
    {p : MapPosition} (hp : map.Contains p) {q : PooledPosition}
    (hq : q ∈ candidateBins (placeGrids regions config : List (PlacedGrid α)) w.dims p) :
    w.dims.Contains q := by
  obtain ⟨region, hregion, -, hchannel, hrow, hcolumn⟩ := mem_candidateBins.1 hq
  refine ⟨hr.lt_regions hregion, ?_, ?_, ?_⟩
  · rw [hr.channels_eq, hchannel]
    exact hp.2.1
  · exact lt_of_lt_of_le (Span.mem_toList.1 hrow).2 (BinAxis.candidates_stop_le _ _ _)
  · exact lt_of_lt_of_le (Span.mem_toList.1 hcolumn).2 (BinAxis.candidates_stop_le _ _ _)

/-- The candidates that an element won are those of the bins it won that are candidates. -/
theorem takenBins_eq_filter (hr : w.Records β regions map config) {p : MapPosition}
    (hp : map.Contains p) : w.takenBins α regions config map p = (w.wonBins regions map p).filter
      (· ∈ candidateBins (placeGrids regions config : List (PlacedGrid α)) w.dims p) := by
  -- both lists are in row-major order, so only their members are compared
  apply ((pairwise_candidateBins regions config w.dims p).filter _).eq_of_mem_iff
    ((w.pairwise_wonBins regions map p).filter _)
  intro q
  simp only [List.mem_filter, mem_wonBins, decide_eq_true_eq]
  constructor
  · rintro ⟨hq, hwon⟩
    obtain ⟨region, hregion, hbatch, hchannel, -, -⟩ := mem_candidateBins.1 hq
    refine ⟨⟨hr.contains_of_mem_candidateBins hp hq, ?_, hchannel, hwon⟩, hq⟩
    rw [batchAt_eq hregion]
    exact hbatch
  · rintro ⟨⟨-, -, -, hwon⟩, hq⟩
    exact ⟨hq, hwon⟩

/-- Gathering at an element adds up those of its candidates that it won. -/
theorem gatherAt_eq_ok_candidates (hr : w.Records β regions map config) {gradient : Tensor α}
    (hg : gradient.shape = w.dims.shape) {p : MapPosition} (hp : map.Contains p) :
    gatherAt w gradient.data (placeGrids regions config) map (w.dims.height * w.dims.width) p =
      .ok ((w.takenBins α regions config map p).foldl
          (fun total q ↦ Scalar.add total (gradient.data.getD (w.dims.cell q) Scalar.zero))
          Scalar.zero) := by
  have hcells : ((placeGrids regions config : List (PlacedGrid α)).filter
      (·.batch = p.batch)).flatMap (·.candidateCells w.dims map.channels
        (w.dims.height * w.dims.width) p) =
      (candidateBins (placeGrids regions config : List (PlacedGrid α)) w.dims p).map
        w.dims.cell := by
    rw [candidateBins, List.map_flatMap, ← hr.channels_eq]
    exact List.flatMap_congr fun g _ ↦ g.candidateCells_eq p
  have hinside : ∀ q ∈ candidateBins (placeGrids regions config : List (PlacedGrid α)) w.dims p,
      w.dims.cell q < w.cells.size ∧ w.dims.cell q < gradient.data.size := by
    intro q hq
    have hcontains := hr.contains_of_mem_candidateBins hp hq
    rw [hr.size_cells]
    exact ⟨PooledDims.cell_lt_count hcontains, cell_lt_size hg hcontains⟩
  unfold gatherAt
  rw [hcells, foldlM_addIfWon hinside]
  rfl

/-- Gathering succeeds if it does at every element, and holds the gradient of every element. -/
theorem outcome_gather_of_each (hr : w.Records β regions map config)
    (hmap : map.shape.occupied ≤ storageLimit) {gradient : Tensor α}
    (hg : gradient.shape = w.dims.shape) {sum : MapPosition → α}
    (heach : ∀ p, map.Contains p →
      gatherAt w gradient.data (placeGrids regions config) map (w.dims.height * w.dims.width) p =
        .ok (sum p)) :
    ∃ t : Tensor α, (gather w gradient regions map.shape).outcome = .ok t ∧
      t.shape = map.shape ∧
      t.data = ((List.range map.shape.count).map fun k ↦ sum (map.position k)).toArray := by
  have hsums : ∀ k ∈ List.range map.shape.size,
      gatherAt w gradient.data (placeGrids regions ⟨w.dims.height, w.dims.width, config.scale⟩)
        map (w.dims.height * w.dims.width) (map.position k) = .ok (sum (map.position k)) := by
    intro k hk
    rw [Shape.size_eq_count hmap, List.mem_range] at hk
    rw [hr.config_dims]
    exact heach _ (MapDims.contains_position hk)
  have hsize : ((List.range map.shape.count).map fun k ↦ sum (map.position k)).toArray.size =
      map.shape.count := by simp
  refine ⟨⟨map.shape, _, hsize, hmap⟩, ?_, rfl, rfl⟩
  refine outcome_gather_eq_ok_iff.2 ⟨map, hr.acceptGradient_eq_ok hg _, _, hr.bins_eq_ok,
    config, hr.config_eq, _,
    mapM_eq_ok hsums, Tensor.ofArray_eq_ok_iff.2 ⟨?_, hmap, rfl, ?_⟩⟩
  · simp
  · rw [Shape.size_eq_count hmap]

/-- Gathering through a table that records a pass never leaves the storage of the table, of the
gradient or of the map. -/
theorem exists_outcome_gather (hr : w.Records β regions map config)
    (hmap : map.shape.occupied ≤ storageLimit) {gradient : Tensor α}
    (hg : gradient.shape = w.dims.shape) :
    ∃ t : Tensor α, (gather w gradient regions map.shape).outcome = .ok t := by
  obtain ⟨t, ht, -, -⟩ :=
    hr.outcome_gather_of_each hmap hg fun p hp ↦ hr.gatherAt_eq_ok_candidates hg hp
  exact ⟨t, ht⟩

end Winners.Records

namespace Winners.Records

variable {f : Format} {w : Winners} {regions : List Region} {map : MapDims} {config : PoolConfig}

/-- A bin is a candidate of the element that won it, if bin numbers are exact. -/
theorem mem_candidates (hr : w.Records (Binary f) regions map config)
    (hheight : config.height ≤ twoPow (f.precision - 1))
    (hwidth : config.width ≤ twoPow (f.precision - 1)) (hmap : map.shape.occupied ≤ storageLimit)
    {p : MapPosition} (hp : map.Contains p) {q : PooledPosition} (hq : w.dims.Contains q)
    (hwon : w.winnerAt q = some (map.planeOffset p)) {region : Region}
    (hregion : regions[q.region]? = some region) :
    q.row ∈ ((BinGrid.ofRegion region config : BinGrid (Binary f)).rows.candidates config.height
        p.row).toList ∧
      q.column ∈ ((BinGrid.ofRegion region config : BinGrid (Binary f)).columns.candidates
        config.width p.column).toList := by
  obtain ⟨region', hregion', -, hrow, hcolumn⟩ := hr.covered q hq _ (winnerAt_eq_some_iff.1 hwon)
  rw [hregion] at hregion'
  cases hregion'
  have hplane := MapDims.planeStart_add_plane_le hp.1 hp.2.1
  obtain ⟨-, -, hrowlt, hcolumnlt⟩ := hp
  rw [MapDims.planeOffset_div hcolumnlt] at hrow
  rw [MapDims.planeOffset_mod hcolumnlt] at hcolumn
  have hfits : map.plane ≤ storageLimit :=
    le_trans (le_trans (Nat.le_add_left _ _) hplane) (le_trans map.shape.count_le_occupied hmap)
  have hheightfits : map.height ≤ storageLimit :=
    le_trans (Nat.le_mul_of_pos_right _ (by omega)) hfits
  have hwidthfits : map.width ≤ storageLimit :=
    le_trans (Nat.le_mul_of_pos_left _ (by omega)) hfits
  rw [hr.dims] at hq
  have hq' : q.row < config.height ∧ q.column < config.width := hq.2.2
  have hexact : twoPow (f.precision - 1) ≤ twoPow 64 := by cases f <;> decide
  constructor
  · have hshare := BinAxis.hasShare_divide (f := f) (region.box (Binary f) config.scale).rows
      (Nat.zero_lt_of_lt hq'.1) (le_trans hheight hexact)
    exact hshare.mem_candidates hq'.1 hheight hheightfits hrow
  · have hshare := BinAxis.hasShare_divide (f := f) (region.box (Binary f) config.scale).columns
      (Nat.zero_lt_of_lt hq'.2) (le_trans hwidth hexact)
    exact hshare.mem_candidates hq'.2 hwidth hwidthfits hcolumn

/-- The candidates that an element won are the bins that it won, if bin numbers are exact. -/
theorem takenBins_eq_wonBins (hr : w.Records (Binary f) regions map config)
    (hheight : config.height ≤ twoPow (f.precision - 1))
    (hwidth : config.width ≤ twoPow (f.precision - 1)) (hmap : map.shape.occupied ≤ storageLimit)
    {p : MapPosition} (hp : map.Contains p) :
    w.takenBins (Binary f) regions config map p = w.wonBins regions map p := by
  rw [hr.takenBins_eq_filter hp, List.filter_eq_self]
  intro q hq
  obtain ⟨hcontains, hbatch, hchannel, hwon⟩ := mem_wonBins.1 hq
  obtain ⟨region, hregion, -⟩ := hr.covered q hcontains _ (winnerAt_eq_some_iff.1 hwon)
  obtain ⟨hrow, hcolumn⟩ := hr.mem_candidates hheight hwidth hmap hp hcontains hwon hregion
  rw [batchAt_eq hregion] at hbatch
  rw [decide_eq_true_eq, mem_candidateBins, hr.dims]
  exact ⟨region, hregion, hbatch, hchannel, hrow, hcolumn⟩

/-- Gathering at an element gives its sum. -/
theorem gatherAt_eq_ok (hr : w.Records (Binary f) regions map config)
    (hheight : config.height ≤ twoPow (f.precision - 1))
    (hwidth : config.width ≤ twoPow (f.precision - 1)) (hmap : map.shape.occupied ≤ storageLimit)
    {gradient : Tensor (Binary f)} (hg : gradient.shape = w.dims.shape) {p : MapPosition}
    (hp : map.Contains p) :
    gatherAt w gradient.data (placeGrids regions config) map (w.dims.height * w.dims.width) p =
      .ok (w.elementSum gradient.data regions map p) := by
  rw [hr.gatherAt_eq_ok_candidates hg hp, hr.takenBins_eq_wonBins hheight hwidth hmap hp]
  rfl

/-- Gathering gives the sum of every element. -/
theorem outcome_gather (hr : w.Records (Binary f) regions map config)
    (hheight : config.height ≤ twoPow (f.precision - 1))
    (hwidth : config.width ≤ twoPow (f.precision - 1)) (hmap : map.shape.occupied ≤ storageLimit)
    {gradient : Tensor (Binary f)} (hg : gradient.shape = w.dims.shape) :
    ∃ t : Tensor (Binary f), (gather w gradient regions map.shape).outcome = .ok t ∧
      t.shape = map.shape ∧ t.data = w.gradientSums gradient.data regions map :=
  hr.outcome_gather_of_each hmap hg fun _ hp ↦ hr.gatherAt_eq_ok hheight hwidth hmap hg hp

end Winners.Records

/-- After a successful pooling with exact bin numbers, scattering and gathering a gradient of the
pooled result both succeed and give the same tensor. The candidates of an element never miss a bin
that it won. -/
theorem scatter_gather_agree {f : Format} {map output gradient : Tensor (Binary f)}
    {regions : List Region} {config : PoolConfig} {w : Winners}
    (h : (pool map regions config).outcome = .ok (output, w))
    (hheight : config.height ≤ twoPow (f.precision - 1))
    (hwidth : config.width ≤ twoPow (f.precision - 1)) (hg : gradient.shape = w.dims.shape) :
    (∃ t, (scatter w gradient regions map.shape).outcome = .ok t ∧
      (gather w gradient regions map.shape).outcome = .ok t) ∧
    ∃ d : MapDims, map.shape = d.shape ∧ ∀ p, d.Contains p → ∀ q, w.dims.Contains q →
      ∀ region, regions[q.region]? = some region →
        w.get q.region q.channel q.row q.column = .ok (some (d.planeOffset p)) →
          q.row ∈ ((BinGrid.ofRegion region config : BinGrid (Binary f)).rows.candidates
              config.height p.row).toList ∧
            q.column ∈ ((BinGrid.ofRegion region config : BinGrid (Binary f)).columns.candidates
              config.width p.column).toList := by
  obtain ⟨_, filled, -, -, hfill, -, rfl⟩ := exists_fill_of_outcome_pool h
  obtain ⟨d, hshape, hr⟩ := Buffers.records_of_outcome_fill hfill
  have hmap := Tensor.occupied_le hshape
  constructor
  · obtain ⟨t, ht, htshape, htdata⟩ := hr.outcome_scatter hg hmap
    obtain ⟨u, hu, hushape, hudata⟩ := hr.outcome_gather hheight hwidth hmap hg
    have heq : u = t := Tensor.ext (hushape.trans htshape.symm) (hudata.trans htdata.symm)
    rw [heq] at hu
    rw [hshape]
    exact ⟨t, ht, hu⟩
  · refine ⟨d, hshape, ?_⟩
    intro p hp q hq region hregion hwinner
    rw [Winners.get_eq_fetch hq, fetch_eq_ok_iff] at hwinner
    exact hr.mem_candidates hheight hwidth hmap hp hq
      (Winners.winnerAt_eq_some_iff.2 hwinner) hregion

/-- Three rows in twenty-one bins: the last bin is rounded past the box and won by the fourth row.
-/
theorem scatter_gather_agree_past_box :
    let map : Tensor (Binary .single) :=
      ⟨⟨[1, 1, 4, 1]⟩, #[.ofInt 1, .ofInt 2, .ofInt 3, .ofInt 4], rfl, by decide⟩
    let regions : List Region := [⟨0, .zero, .zero, .zero, .ofInt 2⟩]
    let config : PoolConfig := ⟨21, 1, .ofInt 1⟩
    let gradient : Tensor (Binary .single) :=
      ⟨⟨[1, 1, 21, 1]⟩, Array.replicate 21 (.ofInt 1), rfl, by decide⟩
    ∃ output w, (pool map regions config).outcome = .ok (output, w) ∧
      w.get 0 0 20 0 = .ok (some 3) ∧
      ∃ t, (scatter w gradient regions map.shape).outcome = .ok t ∧
        (gather w gradient regions map.shape).outcome = .ok t := by
  intro map regions config gradient
  have hok : ((pool map regions config).outcome.map fun result ↦
      (result.2.dims.shape, result.2.get 0 0 20 0)) = .ok (⟨[1, 1, 21, 1]⟩, .ok (some 3)) := by
    decide +kernel
  obtain ⟨output, w, h, hread⟩ := exists_outcome_pool_of_map hok
  obtain ⟨hdims, hwinner⟩ := Prod.mk.inj hread
  have hg : gradient.shape = w.dims.shape := hdims.symm
  have hagree := scatter_gather_agree h (by decide) (by decide) hg
  exact ⟨output, w, h, hwinner, hagree.1⟩

end RegionPooling
