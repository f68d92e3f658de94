import Mathlib.Data.List.Basic
import RegionPooling.Gradient.Scatter
import RegionPooling.Proofs.Pooling.Records

/-!
# Gradient sums of elements

The gradient of a map element is the sum of the gradients of the bins that it won, in row-major
order. Main statement: scattering through a table that records a pass gives exactly these sums.
Specification §4.3 (a).
-/

namespace RegionPooling

private theorem zipIdx_extract {α : Type} {xs : Array α} {start n : ℕ} (h : start + n ≤ xs.size)
    (default : α) : (xs.extract start (start + n)).toList.zipIdx start =
      (List.range' start n).map fun k ↦ (xs.getD k default, k) := by
  apply List.ext_getElem?
  intro i
  rw [List.getElem?_zipIdx, List.getElem?_map, Array.getElem?_toList]
  by_cases hi : i < n
  · have hlt : start + i < xs.size := by omega
    rw [Array.getElem?_extract_of_lt (by omega), List.getElem?_range' hi]
    simp [hlt]
  · rw [Array.getElem?_eq_none (by simp; omega), List.getElem?_eq_none (by simp; omega)]
    rfl

/-- Batch entry of a region in a list. -/
def batchAt (regions : List Region) (index : ℕ) : ℕ := (regions.map Region.batch).getD index 0

/-- The batch entry of a region that is in the list. -/
theorem batchAt_eq {regions : List Region} {index : ℕ} {region : Region}
    (h : regions[index]? = some region) : batchAt regions index = region.batch := by
  simp [batchAt, h]

namespace Winners

/-- Winner stored for a bin. -/
def winnerAt (w : Winners) (q : PooledPosition) : Option ℕ := w.cells.getD (w.dims.cell q) none

/-- Route of a bin of a region with a given batch entry. -/
def routeAt (w : Winners) (map : MapDims) (batch : ℕ) (q : PooledPosition) : Option Route :=
  (w.winnerAt q).map fun offset ↦ ⟨w.dims.cell q, map.planeStart batch q.channel + offset⟩

/-- A winner is stored exactly if it is in storage. -/
theorem winnerAt_eq_some_iff {w : Winners} {q : PooledPosition} {offset : ℕ} :
    w.winnerAt q = some offset ↔ w.cells[w.dims.cell q]? = some (some offset) := by
  rw [winnerAt, Array.getD_eq_getD_getElem?]
  cases w.cells[w.dims.cell q]? with
  | none => simp
  | some winner => simp

variable {α : Type} [Scalar α] {w : Winners} {regions : List Region} {map : MapDims}
  {config : PoolConfig}

/-- Winners that a table records lie in their plane. -/
theorem Records.lt_plane (hr : w.Records α regions map config) {q : PooledPosition} {offset : ℕ}
    (hq : w.dims.Contains q) (h : w.winnerAt q = some offset) : offset < map.plane := by
  obtain ⟨_, -, hlt, -⟩ := hr.covered q hq offset (winnerAt_eq_some_iff.1 h)
  exact hlt

private theorem zipIdx_extract_plane {index channel : ℕ}
    (h : (index * w.dims.channels + channel) * (w.dims.height * w.dims.width) +
      w.dims.height * w.dims.width ≤ w.cells.size) :
    (w.cells.extract ((index * w.dims.channels + channel) * (w.dims.height * w.dims.width))
        ((index * w.dims.channels + channel) * (w.dims.height * w.dims.width) +
          w.dims.height * w.dims.width)).toList.zipIdx
        ((index * w.dims.channels + channel) * (w.dims.height * w.dims.width)) =
      (w.dims.planePositions index channel).map fun q ↦ (w.winnerAt q, w.dims.cell q) := by
  rw [zipIdx_extract h none, ← PooledDims.map_cell_planePositions, List.map_map]
  rfl

private theorem Records.route_eq_ok (hr : w.Records α regions map config) {q : PooledPosition}
    (hq : w.dims.Contains q) (batch : ℕ) :
    route map.plane (map.planeStart batch q.channel) (w.dims.cell q) (w.winnerAt q) =
      .ok (w.routeAt map batch q) := by
  unfold route routeAt
  cases hwinner : w.winnerAt q with
  | none => rfl
  | some offset => exact if_pos (hr.lt_plane hq hwinner)

private theorem Records.channelRoutes_eq_ok (hr : w.Records α regions map config)
    {index channel : ℕ}
    {region : Region} (hindex : index < regions.length) (hchannel : channel < map.channels) :
    w.channelRoutes map (w.dims.height * w.dims.width) index region channel =
      .ok ((w.dims.planePositions index channel).filterMap (w.routeAt map region.batch)) := by
  rw [← hr.regions_eq] at hindex
  rw [← hr.channels_eq] at hchannel
  have hle := PooledDims.planeCells_le hindex hchannel
  rw [← hr.size_cells] at hle
  have hroute : ∀ q ∈ w.dims.planePositions index channel,
      route map.plane (map.planeStart region.batch channel) (w.dims.cell q) (w.winnerAt q) =
        .ok (w.routeAt map region.batch q) := by
    intro q hq
    obtain ⟨rfl, rfl, hrow, hcolumn⟩ := PooledDims.mem_planePositions.1 hq
    exact hr.route_eq_ok ⟨hindex, hchannel, hrow, hcolumn⟩ region.batch
  unfold channelRoutes
  rw [← hr.channels_eq]
  simp only [slice_of_le hle, zipIdx_extract_plane hle, List.mapM_map, Function.comp_def,
    mapM_eq_ok hroute, ok_bind, List.filterMap_map]
  rfl

/-- Routes are listed bin by bin. -/
theorem Records.routes_eq_ok (hr : w.Records α regions map config) :
    w.routes regions map = .ok (w.dims.positions.filterMap fun q ↦
      w.routeAt map (batchAt regions q.region) q) := by
  have hregion : ∀ entry ∈ regions.zipIdx, ((List.range map.channels).mapM
      (w.channelRoutes map (w.dims.height * w.dims.width) entry.2 entry.1) >>= fun channels ↦
        Except.ok channels.flatten) =
      .ok ((w.dims.regionPositions entry.2).filterMap fun q ↦
        w.routeAt map (batchAt regions q.region) q) := by
    rintro ⟨region, index⟩ hmem
    have hget := List.mem_zipIdx_iff_getElem?.1 hmem
    have hindex : index < regions.length := (List.getElem?_eq_some_iff.1 hget).1
    have hchannel : ∀ channel ∈ List.range map.channels,
        w.channelRoutes map (w.dims.height * w.dims.width) index region channel =
          .ok ((w.dims.planePositions index channel).filterMap (w.routeAt map region.batch)) :=
      fun channel hc ↦ hr.channelRoutes_eq_ok hindex (List.mem_range.1 hc)
    dsimp only
    rw [mapM_eq_ok hchannel, ok_bind, PooledDims.regionPositions, List.filterMap_flatMap,
      hr.channels_eq, List.flatMap_def]
    congr 2
    apply List.map_congr_left
    intro channel _
    apply List.filterMap_congr
    intro q hq
    obtain ⟨rfl, -, -, -⟩ := PooledDims.mem_planePositions.1 hq
    rw [batchAt_eq hget]
  simp only [routes, hr.bins_eq_ok, pure, Except.pure, mapM_eq_ok hregion, ok_bind]
  rw [← List.flatMap_def, PooledDims.positions, List.filterMap_flatMap, hr.regions_eq]
  congr 1
  exact flatMap_zipIdx_eq_range fun _ _ _ ↦ rfl

/-- A bin is won by a map element if its region belongs to the element's batch entry, the channels
are the same, and the element is the winner. -/
def WonBy (w : Winners) (regions : List Region) (map : MapDims) (p : MapPosition)
    (q : PooledPosition) : Prop :=
  batchAt regions q.region = p.batch ∧ q.channel = p.channel ∧
    w.winnerAt q = some (map.planeOffset p)

instance (w : Winners) (regions : List Region) (map : MapDims) (p : MapPosition)
    (q : PooledPosition) : Decidable (w.WonBy regions map p q) :=
  inferInstanceAs (Decidable (_ ∧ _))

/-- Bins won by a map element, in row-major order. -/
def wonBins (w : Winners) (regions : List Region) (map : MapDims) (p : MapPosition) :
    List PooledPosition :=
  w.dims.positions.filter fun q ↦ w.WonBy regions map p q

/-- The bins won by an element are bins of the pooled result. -/
@[simp] theorem mem_wonBins {p : MapPosition} {q : PooledPosition} :
    q ∈ w.wonBins regions map p ↔ w.dims.Contains q ∧ w.WonBy regions map p q := by
  simp [wonBins]

private theorem Records.wonBy_iff (hr : w.Records α regions map config) {p : MapPosition}
    {q : PooledPosition} (hq : w.dims.Contains q) : w.WonBy regions map p q ↔
      q.channel = p.channel ∧ (∃ region, regions[q.region]? = some region ∧
        region.batch = p.batch) ∧
        w.get q.region q.channel q.row q.column = .ok (some (map.planeOffset p)) := by
  have hget := List.getElem?_eq_getElem (hr.region_lt hq)
  rw [WonBy, winnerAt_eq_some_iff, get_eq_fetch hq, fetch_eq_ok_iff, batchAt_eq hget, hget]
  constructor
  · rintro ⟨hbatch, hchannel, hwinner⟩
    exact ⟨hchannel, ⟨_, rfl, hbatch⟩, hwinner⟩
  · rintro ⟨hchannel, ⟨_, hregion, hbatch⟩, hwinner⟩
    cases hregion
    exact ⟨hbatch, hchannel, hwinner⟩

/-- The bins won by an element are those that it can be read from as the winner. -/
theorem Records.mem_wonBins_iff (hr : w.Records α regions map config) {p : MapPosition}
    {q : PooledPosition} :
    q ∈ w.wonBins regions map p ↔ w.dims.Contains q ∧ q.channel = p.channel ∧
      (∃ region, regions[q.region]? = some region ∧ region.batch = p.batch) ∧
      w.get q.region q.channel q.row q.column = .ok (some (map.planeOffset p)) := by
  rw [mem_wonBins]
  exact and_congr_right fun hq ↦ hr.wonBy_iff hq

/-- The bins won by an element are in row-major order. -/
theorem pairwise_wonBins (w : Winners) (regions : List Region) (map : MapDims) (p : MapPosition) :
    (w.wonBins regions map p).Pairwise PooledPosition.Precedes :=
  w.dims.pairwise_positions.filter _

/-- Every bin won by an element is listed once. -/
theorem nodup_wonBins (w : Winners) (regions : List Region) (map : MapDims) (p : MapPosition) :
    (w.wonBins regions map p).Nodup := by
  apply (w.pairwise_wonBins regions map p).imp
  rintro q r hprecedes rfl
  exact q.not_precedes_self hprecedes

/-- The routes that end at a place are those of the bins won by its element. -/
theorem Records.filter_routes (hr : w.Records α regions map config) (k : ℕ) :
    ((w.dims.positions.filterMap fun q ↦ w.routeAt map (batchAt regions q.region) q).filter
      fun r ↦ r.target = k) =
      (w.wonBins regions map (map.position k)).map fun q ↦ ⟨w.dims.cell q, k⟩ := by
  rw [List.filter_filterMap, wonBins, ← List.filterMap_eq_filter, List.map_filterMap]
  apply List.filterMap_congr
  intro q hq
  have hcontains := PooledDims.mem_positions.1 hq
  have hchannel := hr.channel_lt hcontains
  unfold routeAt
  cases hwinner : w.winnerAt q with
  | none =>
    have hnot : ¬ w.WonBy regions map (map.position k) q := by
      rintro ⟨-, -, h⟩
      rw [hwinner] at h
      cases h
    simp [Option.guard, hnot]
  | some offset =>
    have htarget : map.planeStart (batchAt regions q.region) q.channel + offset = k ↔
        w.WonBy regions map (map.position k) q := by
      rw [MapDims.planeStart_add_eq_iff hchannel (hr.lt_plane hcontains hwinner), WonBy, hwinner,
        Option.some.injEq]
    by_cases hwon : w.WonBy regions map (map.position k) q
    · simp [Option.guard, hwon, htarget.2 hwon]
    · have hne := mt htarget.1 hwon
      simp [Option.guard, hwon, hne]

end Winners

section

variable {α : Type} [Scalar α]

private theorem adjust_eq_ok {β : Type} {n i : ℕ} {value : ℕ → β} (change : β → β) (hi : i < n) :
    adjust ((List.range n).map value).toArray i change =
      .ok ((List.range n).map fun k ↦ if i = k then change (value k) else value k).toArray := by
  have hsize : i < ((List.range n).map value).toArray.size := by
    simpa using hi
  rw [adjust_of_lt _ hsize]
  congr 1
  apply Array.ext
  · simp
  · intro k _ hk
    rw [Array.getElem_set]
    simp only [List.getElem_toArray, List.getElem_map, List.getElem_range]
    split
    · next heq => rw [heq]
    · rfl

/-- If every route changes the value at its end, each value is changed by the routes that end at it,
in order. -/
theorem foldlM_eq_ok_of_adjust {β : Type} {step : Array β → Route → Except Fault (Array β)}
    (change : β → Route → β) {n : ℕ} {routes : List Route} {value : ℕ → β}
    (h : ∀ r ∈ routes, r.target < n ∧
      ∀ values, step values r = adjust values r.target (change · r)) :
    routes.foldlM step ((List.range n).map value).toArray =
      .ok ((List.range n).map fun k ↦
        (routes.filter fun r ↦ r.target = k).foldl change (value k)).toArray := by
  induction routes generalizing value with
  | nil => rfl
  | cons r routes ih =>
    obtain ⟨htarget, hstep⟩ := h r List.mem_cons_self
    rw [List.foldlM_cons, hstep, adjust_eq_ok (change · r) htarget]
    refine (ih fun r' hr' ↦ h r' (List.mem_cons_of_mem _ hr')).trans ?_
    congr 3
    funext k
    by_cases hk : r.target = k
    · rw [List.filter_cons_of_pos (by simpa using hk), List.foldl_cons, if_pos hk]
    · rw [List.filter_cons_of_neg (by simpa using hk), if_neg hk]

/-- Every sum is formed from the terms of the routes that end at it, in order. -/
theorem foldlM_addRoute {gradient : Array α} {n : ℕ} {routes : List Route} {sum : ℕ → α}
    (h : ∀ r ∈ routes, r.cell < gradient.size ∧ r.target < n) :
    routes.foldlM (addRoute gradient) ((List.range n).map sum).toArray =
      .ok ((List.range n).map fun k ↦ (routes.filter fun r ↦ r.target = k).foldl
        (fun total r ↦ Scalar.add total (gradient.getD r.cell Scalar.zero)) (sum k)).toArray := by
  apply foldlM_eq_ok_of_adjust
  intro r hr
  obtain ⟨hcell, htarget⟩ := h r hr
  have hterm : gradient[r.cell] = gradient.getD r.cell Scalar.zero := Array.getElem_eq_getD _
  refine ⟨htarget, fun sums ↦ ?_⟩
  unfold addRoute
  rw [fetch_of_lt hcell, hterm]
  rfl

/-- Gradient of a map element: the gradients of the bins that it won, added up from zero. -/
def Winners.elementSum (w : Winners) (gradient : Array α) (regions : List Region) (map : MapDims)
    (p : MapPosition) : α :=
  (w.wonBins regions map p).foldl
    (fun total q ↦ Scalar.add total (gradient.getD (w.dims.cell q) Scalar.zero)) Scalar.zero

/-- Gradients of all elements of a map. -/
def Winners.gradientSums (w : Winners) (gradient : Array α) (regions : List Region)
    (map : MapDims) : Array α :=
  ((List.range map.shape.count).map fun k ↦
    w.elementSum gradient regions map (map.position k)).toArray

/-- There is one sum for every element of the map. -/
theorem Winners.size_gradientSums (w : Winners) (gradient : Array α) (regions : List Region)
    (map : MapDims) : (w.gradientSums gradient regions map).size = map.shape.count := by
  simp [gradientSums]

/-- The gradient of an element is stored at its place. -/
theorem Winners.gradientSums_getElem? (w : Winners) (gradient : Array α) (regions : List Region)
    {map : MapDims} {p : MapPosition} (hp : map.Contains p) :
    (w.gradientSums gradient regions map)[map.place p]? =
      some (w.elementSum gradient regions map p) := by
  rw [gradientSums, List.getElem?_toArray, MapDims.getElem?_map_position _ hp]

end

namespace Winners.Records

variable {α β : Type} [Scalar α] {w : Winners} {regions : List Region} {map : MapDims}
  {config : PoolConfig}

/-- A table belongs to the regions and the map of the pass that it records. -/
theorem acceptGradient_eq_ok (hr : w.Records α regions map config) {gradient : Tensor β}
    (hg : gradient.shape = w.dims.shape) (operation : String) :
    acceptGradient w gradient regions map.shape operation = .ok map := by
  refine acceptGradient_eq_ok_iff.2 ⟨rfl, hg, ?_⟩
  exact checkPairing_eq_ok_iff.2 ⟨hr.regions_eq, _, hr.provenance, rfl, rfl⟩

/-- Bins have gradients at their places. -/
theorem cell_lt_size {gradient : Tensor β} (hg : gradient.shape = w.dims.shape)
    {q : PooledPosition} (hq : w.dims.Contains q) : w.dims.cell q < gradient.data.size := by
  rw [gradient.size_data, hg]
  exact PooledDims.cell_lt_count hq

/-- The gradients of bins are read at their index lists. -/
theorem map_get?_bins [Scalar β] {gradient : Tensor β} (hg : gradient.shape = w.dims.shape)
    {bins : List PooledPosition} (h : ∀ q ∈ bins, w.dims.Contains q) :
    bins.map (fun q ↦ gradient.get? q.toList) =
      (bins.map fun q ↦ gradient.data.getD (w.dims.cell q) Scalar.zero).map some := by
  rw [List.map_map]
  apply List.map_congr_left
  intro q hq
  have hlt := cell_lt_size hg (h q hq)
  rw [Tensor.get?_pooled hg (h q hq)]
  simp [hlt]

/-- Routes end inside the map. -/
theorem target_lt_count (hr : w.Records α regions map config) {r : Route}
    (h : r ∈ w.dims.positions.filterMap fun q ↦ w.routeAt map (batchAt regions q.region) q) :
    r.target < map.shape.count := by
  obtain ⟨q, hq, hroute⟩ := List.mem_filterMap.1 h
  obtain ⟨offset, hwinner, rfl⟩ := Option.map_eq_some_iff.1 hroute
  have hcontains := PooledDims.mem_positions.1 hq
  obtain ⟨region, hregion, hoffset, -⟩ :=
    hr.covered q hcontains offset (winnerAt_eq_some_iff.1 hwinner)
  have hbatch := (hr.regions_ok region (List.mem_of_getElem? hregion)).1
  have hplane := MapDims.planeStart_add_plane_le hbatch (hr.channel_lt hcontains)
  rw [batchAt_eq hregion]
  dsimp only
  omega

private theorem routes_inside (hr : w.Records α regions map config) {gradient : Tensor β}
    (hg : gradient.shape = w.dims.shape) {r : Route}
    (h : r ∈ w.dims.positions.filterMap fun q ↦ w.routeAt map (batchAt regions q.region) q) :
    r.cell < gradient.data.size ∧ r.target < map.shape.count := by
  refine ⟨?_, hr.target_lt_count h⟩
  obtain ⟨q, hq, hroute⟩ := List.mem_filterMap.1 h
  obtain ⟨offset, -, rfl⟩ := Option.map_eq_some_iff.1 hroute
  exact cell_lt_size hg (PooledDims.mem_positions.1 hq)

/-- Scattering gives the sum of every element. -/
theorem outcome_scatter [Scalar β] (hr : w.Records α regions map config) {gradient : Tensor β}
    (hg : gradient.shape = w.dims.shape) (hmap : map.shape.occupied ≤ storageLimit) :
    ∃ t : Tensor β, (scatter w gradient regions map.shape).outcome = .ok t ∧
      t.shape = map.shape ∧ t.data = w.gradientSums gradient.data regions map := by
  have hsize := w.size_gradientSums gradient.data regions map
  refine ⟨⟨map.shape, w.gradientSums gradient.data regions map, hsize, hmap⟩, ?_, rfl, rfl⟩
  refine outcome_scatter_eq_ok_iff.2 ⟨map, hr.acceptGradient_eq_ok hg _, _,
    hr.routes_eq_ok, w.gradientSums gradient.data regions map, ?_, ?_⟩
  · have hstart : Array.replicate map.shape.count (Scalar.zero : β) =
        ((List.range map.shape.count).map fun _ ↦ Scalar.zero).toArray := by simp
    rw [Shape.size_eq_count hmap, hstart, foldlM_addRoute fun r h ↦ hr.routes_inside hg h]
    unfold gradientSums elementSum
    congr 3
    funext k
    rw [hr.filter_routes k, List.foldl_map]
  · refine Tensor.ofArray_eq_ok_iff.2 ⟨?_, hmap, rfl, rfl⟩
    rw [hsize, Shape.size_eq_count hmap]

/-- Scattering gives at every element the sum of the gradients of the bins that it won. -/
theorem outcome_scatter_won [Scalar β] (hr : w.Records α regions map config)
    {gradient : Tensor β} (hg : gradient.shape = w.dims.shape)
    (hmap : map.shape.occupied ≤ storageLimit) :
    ∃ t : Tensor β, (scatter w gradient regions map.shape).outcome = .ok t ∧
      t.shape = map.shape ∧ ∀ p, map.Contains p → t.get? p.toList =
        some (((w.wonBins regions map p).map fun q ↦
          gradient.data.getD (w.dims.cell q) Scalar.zero).foldl Scalar.add Scalar.zero) := by
  obtain ⟨t, ht, hshape, hdata⟩ := hr.outcome_scatter hg hmap
  refine ⟨t, ht, hshape, ?_⟩
  intro p hp
  rw [Tensor.get?_map hshape hp, hdata, gradientSums_getElem? _ _ _ hp, elementSum, List.foldl_map]

end Winners.Records

end RegionPooling
