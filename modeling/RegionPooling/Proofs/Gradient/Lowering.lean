import RegionPooling.Gradient.Gather
import RegionPooling.Proofs.Gradient.UnitGradient

/-!
# Lowering the elements that win nothing

Pooling is compared on two maps of which the second has smaller numbers, or none at all, wherever no
bin was won, and the same elements otherwise. Main statement: the values and the winners are the
same on both, and with them the gradients. So the elements that are not counted may take any values
below their own, all of them at once.
-/

namespace RegionPooling

namespace Binary

variable {f : Format} {old new : Binary f}

/-- An element is replaced by itself, by not-a-number, or by a number that is not larger. -/
def Lowers (old new : Binary f) : Prop :=
  new = old ∨ new.isNaN = true ∨ new.lt old = true ∨ new.numEq old = true

instance (old new : Binary f) : Decidable (old.Lowers new) := inferInstanceAs (Decidable (_ ∨ _))

private theorem isNaN_eq_false_of_numEq (h : new.numEq old = true) :
    new.isNaN = false ∧ old.isNaN = false := by
  cases new <;> cases old <;> simp_all [numEq, isNaN]

/-- A number that replaces an element replaces a number, of at least its rank. -/
theorem Lowers.rank_le (h : old.Lowers new) (hnew : new.isNaN = false) :
    old.isNaN = false ∧ new.rank ≤ old.rank := by
  rcases h with rfl | hnan | hlt | heq
  · exact ⟨hnew, le_rfl⟩
  · simp [hnew] at hnan
  · have hold := (isNaN_eq_false_of_lt hlt).2
    exact ⟨hold, ((lt_iff_rank_lt hnew hold).1 hlt).le⟩
  · have hold := (isNaN_eq_false_of_numEq heq).2
    exact ⟨hold, ((numEq_iff_rank_eq hnew hold).1 heq).le⟩

/-- What is not a number is replaced by what is not a number. -/
theorem Lowers.isNaN (h : old.Lowers new) (hold : old.isNaN = true) : new.isNaN = true := by
  by_contra hnew
  have hnumber := (h.rank_le (Bool.eq_false_iff.2 hnew)).1
  simp [hold] at hnumber

end Binary

section

variable {f : Format} {plane lowered : ℕ → Binary f} {cells : List ℕ}

/-- The first maximum stays where it is if it is kept and the other elements are lowered. -/
theorem IsFirstMaximum.of_lowers {j : ℕ} (h : IsFirstMaximum plane cells j)
    (hkeep : lowered j = plane j) (hlow : ∀ k ∈ cells, (plane k).Lowers (lowered k)) :
    IsFirstMaximum lowered cells j := by
  have hall := (isFirstMaximum_iff_rank.1 h).2.2
  refine isFirstMaximum_iff_rank.2 ⟨h.mem, by rw [hkeep]; exact h.number, ?_⟩
  intro k hk hkn
  obtain ⟨hnumber, hle⟩ := (hlow k hk).rank_le hkn
  have hmax := hall k hk hnumber
  rw [hkeep]
  omega

/-- A bin keeps its value and its winner if the winner is kept and the other elements are lowered.
-/
theorem IsPooled.of_lowers {value : Binary f} {winner : Option ℕ}
    (h : IsPooled plane cells value winner) (hkeep : ∀ j, winner = some j → lowered j = plane j)
    (hlow : ∀ k ∈ cells, (plane k).Lowers (lowered k)) : IsPooled lowered cells value winner := by
  cases h with
  | vacant hnil => exact .vacant hnil
  | undefined hcells hnan => exact .undefined hcells fun k hk ↦ (hlow k hk).isNaN (hnan k hk)
  | won j hj _ =>
    have hfirst := hj.of_lowers (hkeep j rfl) hlow
    rw [← hkeep j rfl]
    exact .won j hfirst fun i hi ↦ hi.unique hfirst

end

/-- A map of the same shape that keeps every element that is counted and lowers the others. -/
structure Tensor.LoweredFrom {f : Format} (lowered map : Tensor (Binary f)) (d : MapDims)
    (counts : Array ℕ) : Prop where
  shape : lowered.shape = map.shape
  kept : ∀ (p : MapPosition) n old new, counts[d.place p]? = some n → 0 < n →
    map.get? p.toList = some old → lowered.get? p.toList = some new → new = old
  lowers : ∀ (p : MapPosition) old new, map.get? p.toList = some old →
    lowered.get? p.toList = some new → old.Lowers new

private theorem Tensor.LoweredFrom.of_places {f : Format} {lowered map : Tensor (Binary f)}
    {d : MapDims} {counts : Array ℕ} (hmap : map.shape = d.shape)
    (hshape : lowered.shape = map.shape) (h : ∀ k < d.shape.count,
      (0 < counts.getD k 0 → lowered.data.getD k .zero = map.data.getD k .zero) ∧
        (map.data.getD k .zero).Lowers (lowered.data.getD k .zero)) :
    lowered.LoweredFrom map d counts := by
  have hread : ∀ (p : MapPosition) old new, map.get? p.toList = some old →
      lowered.get? p.toList = some new → d.place p < d.shape.count ∧
        map.data.getD (d.place p) .zero = old ∧ lowered.data.getD (d.place p) .zero = new := by
    intro p old new hold hnew
    have hp := contains_of_get? hmap hold
    rw [get?_map hmap hp] at hold
    rw [get?_map (hshape.trans hmap) hp] at hnew
    simpa [hold, hnew] using MapDims.place_lt_count hp
  refine ⟨hshape, ?_, ?_⟩
  · intro p n old new hn hpos hold hnew
    obtain ⟨hplace, rfl, rfl⟩ := hread p old new hold hnew
    apply (h _ hplace).1
    simpa [hn] using hpos
  · intro p old new hold hnew
    obtain ⟨hplace, rfl, rfl⟩ := hread p old new hold hnew
    exact (h _ hplace).2

namespace IsPooledMap

private theorem eq_of_pooledCell {α : Type} [Scalar α] {map other output output' : Tensor α}
    {regions : List Region} {config : PoolConfig} {d : MapDims} {w w' : Winners}
    (h : IsPooledMap map regions config d output w)
    (h' : IsPooledMap other regions config d output' w')
    (hcell : ∀ q, w.dims.Contains q → ∀ region, regions[q.region]? = some region →
      (pooledCell other.data d config region q).value =
          (pooledCell map.data d config region q).value ∧
        (pooledCell other.data d config region q).winner =
          (pooledCell map.data d config region q).winner) :
    output' = output ∧ w' = w := by
  have hresult : ∀ q ∈ (d.pooled config regions.length).positions,
      (resultAt other.data d config regions q).value =
          (resultAt map.data d config regions q).value ∧
        (resultAt other.data d config regions q).winner =
          (resultAt map.data d config regions q).winner := by
    intro q hq
    rw [PooledDims.mem_positions, ← h.dims_eq] at hq
    obtain ⟨region, hr⟩ := h.exists_region hq
    simp only [resultAt, hr]
    exact hcell q hq region hr
  constructor
  · apply Tensor.ext
    · rw [h'.output_shape, h.output_shape]
    · rw [h'.output_data, h.output_data, List.map_map, List.map_map]
      exact congrArg _ (List.map_congr_left fun q hq ↦ (hresult q hq).1)
  · rw [h'.winners, h.winners]
    simp only [MapDims.winners, List.map_map]
    congr 2
    exact List.map_congr_left fun q hq ↦ (hresult q hq).2

variable {f : Format} {map output : Tensor (Binary f)} {regions : List Region} {config : PoolConfig}
  {d : MapDims} {w : Winners}

private theorem wonCounts_pos (h : IsPooledMap map regions config d output w) {q : PooledPosition}
    (hq : w.dims.Contains q) {region : Region} (hr : regions[q.region]? = some region) {j : ℕ}
    (hj : (pooledCell map.data d config region q).winner = some j) :
    ∃ n, (w.wonCounts regions d)[d.place (d.planeElement region.batch q.channel j)]? = some n ∧
      0 < n := by
  have hplane : j < d.plane := lt_plane_of_mem_binCells (mem_offsets_of_winner_pooledBin hj)
  have hp : d.Contains (d.planeElement region.batch q.channel j) :=
    MapDims.contains_planeElement (h.regions_ok region (List.mem_of_getElem? hr)).1
      (h.channel_lt hq) hplane
  have hmem : q ∈ w.wonBins regions d (d.planeElement region.batch q.channel j) := by
    refine h.records.mem_wonBins_iff.2 ⟨hq, rfl, ⟨region, hr, rfl⟩, ?_⟩
    rw [h.get_eq_ok hq hr, hj, MapDims.planeOffset_planeElement]
  exact ⟨_, w.wonCounts_getElem? regions hp, List.length_pos_of_mem hmem⟩

/-- A bin has the same value and the same winner on a lowered map. -/
theorem pooledCell_of_lowered (h : IsPooledMap map regions config d output w)
    {lowered : Tensor (Binary f)} (hlow : lowered.LoweredFrom map d (w.wonCounts regions d))
    {q : PooledPosition} (hq : w.dims.Contains q) {region : Region}
    (hr : regions[q.region]? = some region) :
    (pooledCell lowered.data d config region q).value =
        (pooledCell map.data d config region q).value ∧
      (pooledCell lowered.data d config region q).winner =
        (pooledCell map.data d config region q).winner := by
  have hbatch := (h.regions_ok region (List.mem_of_getElem? hr)).1
  have hchannel := h.channel_lt hq
  have hread (k : ℕ) (hk : k < d.plane) :=
    Tensor.get?_plane h.map_shape hbatch hchannel hk
  have hread' (k : ℕ) (hk : k < d.plane) :=
    Tensor.get?_plane (hlow.shape.trans h.map_shape) hbatch hchannel hk
  have hstop : (region.binExtent (Binary f) config d q).columns.stop ≤ d.width :=
    BinAxis.span_stop_le _ _ _
  apply (IsPooled.of_lowers (isPooled_pooledBin _ hstop) ?_ ?_).unique (isPooled_pooledBin _ hstop)
  · intro j hj
    have hplane : j < d.plane := lt_plane_of_mem_binCells (mem_offsets_of_winner_pooledBin hj)
    obtain ⟨n, hn, hpos⟩ := h.wonCounts_pos hq hr hj
    exact hlow.kept _ n _ _ hn hpos (hread j hplane) (hread' j hplane)
  · intro k hk
    have hplane : k < d.plane := lt_plane_of_mem_binCells hk
    exact hlow.lowers (d.planeElement region.batch q.channel k) _ _ (hread k hplane)
      (hread' k hplane)

end IsPooledMap

/-- Suppose the elements of a map that win no bin are lowered: each is kept, or replaced by
not-a-number, or replaced by a number that is not larger. Then pooling succeeds again with the same
values and the same winners, and every gradient is carried back to the same gradient of the map. -/
theorem pool_lowered {f : Format} {map : Tensor (Binary f)} {regions : List Region}
    {config : PoolConfig} {result : Tensor (Binary f) × Winners}
    (h : (pool map regions config).outcome = .ok result) :
    ∃ (d : MapDims) (counts : Array ℕ), map.shape = d.shape ∧
      result.2.routeCounts regions d = .ok counts ∧ counts.size = d.shape.count ∧
      ∀ lowered : Tensor (Binary f), lowered.LoweredFrom map d counts →
        ∃ pooled, (pool lowered regions config).outcome = .ok pooled ∧ pooled.1 = result.1 ∧
          pooled.2 = result.2 ∧
          ∀ (g : Format) (gradient : Tensor (Binary g)),
            scatter pooled.2 gradient regions lowered.shape =
                scatter result.2 gradient regions map.shape ∧
              gather pooled.2 gradient regions lowered.shape =
                gather result.2 gradient regions map.shape := by
  obtain ⟨output, w⟩ := result
  obtain ⟨d, hd⟩ := isPooledMap_of_outcome_pool h
  refine ⟨d, _, hd.map_shape, hd.routeCounts_eq_ok, ?_, ?_⟩
  · simp [Winners.wonCounts]
  · intro lowered hlow
    obtain ⟨output', hpool, he⟩ := exists_outcome_pool (hlow.shape.trans hd.map_shape) hd.valid
      hd.regions_ok hd.fits
    obtain ⟨rfl, hw⟩ := hd.eq_of_pooledCell he fun q hq region hr ↦
      hd.pooledCell_of_lowered hlow hq hr
    rw [hw] at hpool
    exact ⟨_, hpool, rfl, rfl, fun g gradient ↦ by simp only [hlow.shape, and_self]⟩

/-- The first of two equal elements wins over a smaller one and a not-a-number, which also fills a
bin of its own. The smaller element is replaced by not-a-number and the second of the equal ones by
negative infinity. -/
theorem pool_lowered_tie :
    let map : Tensor (Binary .single) :=
      ⟨⟨[1, 1, 1, 4]⟩, #[.ofInt 4, .ofInt 5, .ofInt 5, .nan], rfl, by decide⟩
    let lowered : Tensor (Binary .single) :=
      ⟨⟨[1, 1, 1, 4]⟩, #[.nan, .ofInt 5, .infinity true, .nan], rfl, by decide⟩
    let regions : List Region := [⟨0, .zero, .zero, .ofInt 3, .zero⟩,
      ⟨0, .ofInt 3, .zero, .ofInt 3, .zero⟩]
    let config : PoolConfig := ⟨1, 1, .ofInt 1⟩
    ∃ result, (pool map regions config).outcome = .ok result ∧
      result.2.routeCounts regions ⟨1, 1, 1, 4⟩ = .ok #[0, 1, 0, 0] ∧
      lowered.LoweredFrom map ⟨1, 1, 1, 4⟩ #[0, 1, 0, 0] ∧
      (pool lowered regions config).outcome = .ok result ∧
      result.1.data = #[.ofInt 5, .nan] ∧ result.2.cells = #[some 1, none] := by
  intro map lowered regions config
  have hok : ((pool map regions config).outcome.map fun result ↦
      (result.2.routeCounts regions ⟨1, 1, 1, 4⟩, result.1.data, result.2.cells)) =
      .ok (.ok #[0, 1, 0, 0], #[.ofInt 5, .nan], #[some 1, none]) := by
    decide +kernel
  obtain ⟨output, w, h, hread⟩ := exists_outcome_pool_of_map hok
  simp only [Prod.mk.injEq] at hread
  obtain ⟨hcounts, hdata, hcells⟩ := hread
  obtain ⟨d, counts, hmap, hd, -, hsame⟩ := pool_lowered h
  obtain rfl : ⟨1, 1, 1, 4⟩ = d := MapDims.shape_injective hmap
  obtain rfl := Except.ok.inj (hcounts.symm.trans hd)
  have hlow : lowered.LoweredFrom map ⟨1, 1, 1, 4⟩ #[0, 1, 0, 0] :=
    .of_places rfl rfl (by decide +kernel)
  obtain ⟨pooled, hpool, houtput, hwinners, -⟩ := hsame lowered hlow
  obtain rfl : pooled = (output, w) := Prod.ext houtput hwinners
  exact ⟨_, h, hcounts, hlow, hpool, hdata, hcells⟩

end RegionPooling
