import Mathlib.Algebra.BigOperators.Group.Finset.Basic
import RegionPooling.Proofs.Gradient.Counting
import RegionPooling.Proofs.Numeric.WholeNumbers
import RegionPooling.Proofs.Pooling.Independence

/-!
# Route counts as a unit gradient

Main statement: the counts of a successful pooling say how many bins each element won, they add up
to the number of bins with a winner, scattering ones forms them by adding one again and again, and
the counts of a list of regions are the sums of those of its parts. Specification §8 asks for the
round trip of a unit gradient and for the doubling of two identical regions.
-/

namespace RegionPooling

private theorem sum_length_filter_eq_length {α : Type} {n : ℕ} {key : α → ℕ} {l : List α}
    (h : ∀ a ∈ l, key a < n) :
    ((List.range n).map fun k ↦ (l.filter fun a ↦ key a = k).length).sum = l.length := by
  have hcount (k : ℕ) : (l.filter fun a ↦ key a = k).length =
      Multiset.count k (l.map key : List ℕ) := by
    rw [Multiset.coe_count, List.count_eq_countP, List.countP_map, List.countP_eq_length_filter]
    rfl
  have hmem : ∀ k ∈ ((l.map key : List ℕ) : Multiset ℕ), k ∈ Finset.range n := by
    intro k hk
    obtain ⟨a, ha, rfl⟩ := List.mem_map.1 (Multiset.mem_coe.1 hk)
    exact Finset.mem_range.2 (h a ha)
  simp only [hcount]
  calc ((List.range n).map fun k ↦ Multiset.count k (l.map key : List ℕ)).sum
    _ = Multiset.card ((l.map key : List ℕ) : Multiset ℕ) := Multiset.sum_count_eq_card hmem
    _ = l.length := by rw [Multiset.coe_card, List.length_map]

section

variable {α : Type} [Scalar α] {map output : Tensor α} {regions : List Region}
  {config : PoolConfig} {d : MapDims} {w : Winners}

/-- Every element of the map is counted. -/
theorem IsPooledMap.routeCounts_eq_ok (h : IsPooledMap map regions config d output w) :
    w.routeCounts regions d = .ok (w.wonCounts regions d) :=
  h.records.routeCounts_eq_ok (Tensor.occupied_le h.map_shape)

private theorem IsPooledMap.winnerAt_eq (h : IsPooledMap map regions config d output w)
    {q : PooledPosition} (hq : w.dims.Contains q) {region : Region}
    (hr : regions[q.region]? = some region) :
    w.winnerAt q = (pooledCell map.data d config region q).winner := by
  simp [Winners.winnerAt, h.cells_getElem? hq hr]

/-- As many routes lead from a table as it has winners. -/
theorem IsPooledMap.won_eq (h : IsPooledMap map regions config d output w) :
    w.won = (w.dims.positions.filterMap fun q ↦
      w.routeAt d (batchAt regions q.region) q).length := by
  have hcells : w.won = w.dims.positions.countP fun q ↦
      (resultAt map.data d config regions q).winner.isSome := by
    rw [h.dims_eq, h.winners, Winners.won, MapDims.winners, List.countP_toArray, List.countP_map,
      List.countP_map]
    rfl
  rw [hcells, List.length_filterMap_eq_countP]
  apply List.countP_congr
  intro q hq
  obtain ⟨region, hr⟩ := h.exists_region (PooledDims.mem_positions.1 hq)
  rw [resultAt, hr, Winners.routeAt, Option.isSome_map,
    h.winnerAt_eq (PooledDims.mem_positions.1 hq) hr]

/-- The counts of all elements add up to the number of bins that have a winner. -/
theorem IsPooledMap.sum_wonCounts (h : IsPooledMap map regions config d output w) :
    (w.wonCounts regions d).toList.sum = w.won := by
  have hkey : ∀ r ∈ w.dims.positions.filterMap fun q ↦ w.routeAt d (batchAt regions q.region) q,
      r.target < d.shape.count := fun r hr ↦ h.records.target_lt_count hr
  rw [h.won_eq, ← sum_length_filter_eq_length hkey, Winners.wonCounts]
  congr 1
  apply List.map_congr_left
  intro k _
  rw [h.records.filter_routes k, List.length_map]

/-- Number of bins of a region that an element of a map wins. -/
def regionWins (data : Array α) (d : MapDims) (config : PoolConfig) (p : MapPosition)
    (region : Region) : ℕ :=
  ((d.pooled config 1).regionPositions 0).countP fun q ↦
    decide (region.batch = p.batch ∧ q.channel = p.channel ∧
      (pooledCell data d config region q).winner = some (d.planeOffset p))

private theorem IsPooledMap.length_wonBins (h : IsPooledMap map regions config d output w)
    (p : MapPosition) : (w.wonBins regions d p).length =
      (regions.map (regionWins map.data d config p)).sum := by
  have heach : ∀ i region, regions[i]? = some region →
      ((w.dims.regionPositions i).filter fun q ↦ w.WonBy regions d p q).length =
        regionWins map.data d config p region := by
    intro i region hi
    rw [← List.countP_eq_length_filter, ← PooledDims.map_regionPositions, List.countP_map]
    rw [regionWins, h.dims_eq]
    apply List.countP_congr
    intro q hq
    obtain ⟨-, hinside⟩ := PooledDims.mem_regionPositions.1 hq
    have hcontains : w.dims.Contains { q with region := i } := by
      rw [h.dims_eq]
      exact ⟨(List.getElem?_eq_some_iff.1 hi).1, hinside⟩
    rw [Function.comp_apply, decide_eq_true_eq, decide_eq_true_eq, Winners.WonBy, batchAt_eq hi,
      h.winnerAt_eq hcontains hi]
    rfl
  rw [Winners.wonBins, PooledDims.positions, List.filter_flatMap, List.length_flatMap]
  congr 1
  apply List.ext_getElem
  · simp [h.dims_eq, MapDims.pooled]
  · intro i hi hi'
    rw [List.length_map] at hi'
    rw [List.getElem_map, List.getElem_map, List.getElem_range]
    exact heach i _ (List.getElem?_eq_getElem hi')

/-- The counts of regions are the sums of the counts of their parts. -/
theorem IsPooledMap.wonCounts_append {before after : List Region} {left right : Tensor α}
    {first second : Winners} (h : IsPooledMap map (before ++ after) config d output w)
    (hbefore : IsPooledMap map before config d left first)
    (hafter : IsPooledMap map after config d right second) :
    w.wonCounts (before ++ after) d =
      Array.zipWith (· + ·) (first.wonCounts before d) (second.wonCounts after d) := by
  unfold Winners.wonCounts
  rw [List.zipWith_toArray, List.zipWith_map, List.zipWith_self]
  congr 1
  apply List.map_congr_left
  intro k _
  rw [h.length_wonBins, hbefore.length_wonBins, hafter.length_wonBins, List.map_append,
    List.sum_append]

end

/-- A sum of ones is formed by adding one as often as the element won a bin. -/
theorem Winners.elementSum_ones {f : Format} {w : Winners} {gradient : Array (Binary f)}
    (h : ∀ q, w.dims.Contains q → gradient.getD (w.dims.cell q) Scalar.zero = .ofInt 1)
    (regions : List Region) (map : MapDims) (p : MapPosition) :
    w.elementSum gradient regions map p =
      (fun x ↦ x.add (.ofInt 1))^[(w.wonBins regions map p).length] .zero := by
  rw [← List.foldl_const, elementSum]
  apply List.foldl_ext
  intro total q hq
  rw [h q (mem_wonBins.1 hq).1]
  rfl

/-- Scattering ones adds one at every element as often as the element won a bin. -/
theorem IsPooledMap.outcome_scatter_ones {α : Type} [Scalar α] {map output : Tensor α}
    {regions : List Region} {config : PoolConfig} {d : MapDims} {w : Winners} {f : Format}
    (h : IsPooledMap map regions config d output w) {ones : Tensor (Binary f)}
    (hshape : ones.shape = w.dims.shape)
    (hones : ∀ q, w.dims.Contains q → ones.get? q.toList = some (.ofInt 1)) :
    ∃ t, (scatter w ones regions map.shape).outcome = .ok t ∧ t.shape = map.shape ∧
      ∀ p, d.Contains p → t.get? p.toList =
        some ((fun x ↦ x.add (.ofInt 1))^[(w.wonBins regions d p).length] .zero) := by
  obtain ⟨t, ht, htshape, htdata⟩ :=
    h.records.outcome_scatter hshape (Tensor.occupied_le h.map_shape)
  rw [← h.map_shape] at ht htshape
  have hone : ∀ q, w.dims.Contains q →
      ones.data.getD (w.dims.cell q) Scalar.zero = .ofInt 1 := by
    intro q hq
    have hread := hones q hq
    rw [Tensor.get?_pooled hshape hq] at hread
    simp [hread]
  refine ⟨t, ht, htshape, ?_⟩
  intro p hp
  rw [Tensor.get?_map (htshape.trans h.map_shape) hp, htdata,
    Winners.gradientSums_getElem? _ _ _ hp, Winners.elementSum_ones hone]

/-- After a successful pooling every element of the map is counted: the count is the number of bins
of the element's channel, of regions of its batch entry, whose winner it is. The counts add up to
the number of bins with a winner. Scattering ones forms at each element the number got from zero by
adding one as often as the count says, which is the count itself up to a full significand. The
counts of regions in two parts are the sums of the counts of the parts, so that listing regions
twice doubles them. -/
theorem routeCounts_unitGradient {α : Type} [Scalar α] {map : Tensor α} {regions : List Region}
    {config : PoolConfig} {result : Tensor α × Winners}
    (h : (pool map regions config).outcome = .ok result) :
    ∃ (d : MapDims) (counts : Array ℕ), map.shape = d.shape ∧
      result.2.routeCounts regions d = .ok counts ∧ counts.size = d.shape.count ∧
      (∀ p, d.Contains p → ∃ bins : List PooledPosition, bins.Nodup ∧
        (∀ q, q ∈ bins ↔ result.2.dims.Contains q ∧ q.channel = p.channel ∧
          (∃ region, regions[q.region]? = some region ∧ region.batch = p.batch) ∧
          result.2.get q.region q.channel q.row q.column = .ok (some (d.planeOffset p))) ∧
        counts[d.place p]? = some bins.length) ∧
      counts.toList.sum = result.2.won ∧
      (∀ (f : Format) (ones : Tensor (Binary f)), ones.shape = result.2.dims.shape →
        (∀ q, result.2.dims.Contains q → ones.get? q.toList = some (.ofInt 1)) →
        ∃ t, (scatter result.2 ones regions map.shape).outcome = .ok t ∧ t.shape = map.shape ∧
          ∀ p, d.Contains p → ∃ n, counts[d.place p]? = some n ∧
            t.get? p.toList = some ((fun x ↦ x.add (.ofInt 1))^[n] .zero) ∧
            (n ≤ twoPow f.precision → t.get? p.toList = some (.ofInt n))) ∧
      (∀ before after, regions = before ++ after → ∃ first second left right,
        (pool map before config).outcome = .ok first ∧
        (pool map after config).outcome = .ok second ∧
        first.2.routeCounts before d = .ok left ∧ second.2.routeCounts after d = .ok right ∧
        counts = Array.zipWith (· + ·) left right) ∧
      ∀ half, regions = half ++ half → ∃ once counted,
        (pool map half config).outcome = .ok once ∧ once.2.routeCounts half d = .ok counted ∧
        counts = counted.map (2 * ·) := by
  obtain ⟨output, w⟩ := result
  obtain ⟨d, hd⟩ := isPooledMap_of_outcome_pool h
  refine ⟨d, w.wonCounts regions d, hd.map_shape, hd.routeCounts_eq_ok, ?_, ?_, hd.sum_wonCounts,
    ?_, ?_, ?_⟩
  · rw [Winners.wonCounts, List.size_toArray, List.length_map, List.length_range]
  · intro p hp
    exact ⟨w.wonBins regions d p, w.nodup_wonBins regions d p,
      fun q ↦ hd.records.mem_wonBins_iff, w.wonCounts_getElem? regions hp⟩
  · intro f ones hshape hones
    obtain ⟨t, ht, htshape, hsums⟩ := hd.outcome_scatter_ones hshape hones
    refine ⟨t, ht, htshape, ?_⟩
    intro p hp
    refine ⟨_, w.wonCounts_getElem? regions hp, hsums p hp, ?_⟩
    intro hexact
    rw [hsums p hp, Binary.iterate_add_one hexact]
  · rintro before after rfl
    obtain ⟨first, second, hfirst, hsecond, hleft, hright, -, -⟩ := hd.append
    exact ⟨first, second, _, _, hfirst, hsecond, hleft.routeCounts_eq_ok, hright.routeCounts_eq_ok,
      hd.wonCounts_append hleft hright⟩
  · rintro half rfl
    obtain ⟨once, -, honce, -, hhalf, -, -, -⟩ := hd.append
    refine ⟨once, _, honce, hhalf.routeCounts_eq_ok, ?_⟩
    rw [hd.wonCounts_append hhalf hhalf, Array.zipWith_self]
    simp only [two_mul]

/-- A region with two bins won by one element, listed twice. -/
theorem routeCounts_unitGradient_twice :
    let map : Tensor (Binary .single) :=
      ⟨⟨[1, 1, 1, 3]⟩, #[.ofInt 2, .ofInt 5, .nan], rfl, by decide⟩
    let half : List Region := [⟨0, .zero, .zero, .ofInt 2, .zero⟩]
    let config : PoolConfig := ⟨1, 2, .ofInt 1⟩
    let ones : Tensor (Binary .double) :=
      ⟨⟨[2, 1, 1, 2]⟩, Array.replicate 4 (.ofInt 1), rfl, by decide⟩
    ∃ result, (pool map (half ++ half) config).outcome = .ok result ∧
      result.2.routeCounts (half ++ half) ⟨1, 1, 1, 3⟩ = .ok #[0, 4, 0] ∧ result.2.won = 4 ∧
      (∃ t, (scatter result.2 ones (half ++ half) map.shape).outcome = .ok t ∧
        t.get? [0, 0, 0, 1] = some (.ofInt 4)) ∧
      ∃ once counted, (pool map half config).outcome = .ok once ∧
        once.2.routeCounts half ⟨1, 1, 1, 3⟩ = .ok counted ∧ #[0, 4, 0] = counted.map (2 * ·) := by
  intro map half config ones
  have hok : ((pool map (half ++ half) config).outcome.map fun result ↦
      (result.2.dims, result.2.routeCounts (half ++ half) ⟨1, 1, 1, 3⟩)) =
      .ok (⟨2, 1, 1, 2⟩, .ok #[0, 4, 0]) := by
    decide +kernel
  obtain ⟨output, w, h, hread⟩ := exists_outcome_pool_of_map hok
  obtain ⟨hdims, hcounts⟩ := Prod.mk.inj hread
  obtain ⟨d, counts, hmap, hd, -, -, hsum, hones, -, htwice⟩ := routeCounts_unitGradient h
  obtain rfl : ⟨1, 1, 1, 3⟩ = d := MapDims.shape_injective hmap
  obtain rfl : #[0, 4, 0] = counts := Except.ok.inj (hcounts.symm.trans hd)
  have hall : ∀ q, w.dims.Contains q → ones.get? q.toList = some (.ofInt 1) := by
    intro q hq
    rw [hdims] at hq
    have hcell : PooledDims.cell ⟨2, 1, 1, 2⟩ q < 4 := PooledDims.cell_lt_count hq
    rw [Tensor.get?_pooled (d := ⟨2, 1, 1, 2⟩) rfl hq, Array.getElem?_replicate, if_pos hcell]
  obtain ⟨t, ht, -, hread⟩ := hones .double ones (by rw [hdims]; rfl) hall
  obtain ⟨n, hn, -, hexact⟩ := hread ⟨0, 0, 0, 1⟩ (by unfold MapDims.Contains; decide)
  obtain rfl : 4 = n := Option.some.inj hn
  exact ⟨(output, w), h, hcounts, hsum.symm, ⟨t, ht, hexact (by decide)⟩, htwice half rfl⟩

end RegionPooling
