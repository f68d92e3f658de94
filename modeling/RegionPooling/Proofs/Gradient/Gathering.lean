import RegionPooling.Proofs.Gradient.Agreement
import RegionPooling.Proofs.Gradient.Scattering

/-!
# What gathering gives

Gathering looks for the bins that an element won among candidates. Where bin numbers or lengths are
rounded it may miss some of them, but it takes none that the element did not win, and none twice.
Main statement: through any table that a caller can hold, and for whatever arithmetic, gathering
gives at every map element the sum of some of the terms that scattering adds up there, in the same
order. Specification §4.3 (b) and §10.10.
-/

namespace RegionPooling

section

variable {α : Type} [Scalar α] {w : Winners} {gradient : Tensor α}

variable {β : Type} [Scalar β] {regions : List Region} {map : MapDims} {config : PoolConfig}

/-- Whatever the arithmetic, gathering gives at every element the sum of the bins that are taken. -/
theorem Winners.Records.outcome_gather_taken (hr : w.Records β regions map config)
    (hmap : map.shape.occupied ≤ storageLimit) (hg : gradient.shape = w.dims.shape) :
    ∃ t : Tensor α, (gather w gradient regions map.shape).outcome = .ok t ∧
      t.shape = map.shape ∧ ∀ p, map.Contains p → t.get? p.toList =
        some (((w.takenBins α regions config map p).map fun q ↦
          gradient.data.getD (w.dims.cell q) Scalar.zero).foldl Scalar.add Scalar.zero) := by
  obtain ⟨t, ht, hshape, hdata⟩ :=
    hr.outcome_gather_of_each hmap hg fun p hp ↦ hr.gatherAt_eq_ok_candidates hg hp
  refine ⟨t, ht, hshape, ?_⟩
  intro p hp
  rw [Tensor.get?_map hshape hp, hdata, List.getElem?_toArray, List.foldl_map]
  exact MapDims.getElem?_map_position (fun p ↦ (w.takenBins α regions config map p).foldl
    (fun total q ↦ Scalar.add total (gradient.data.getD (w.dims.cell q) Scalar.zero))
    Scalar.zero) hp

end

variable {ι : Type} {E : ι → Type} [DecidableEq ι] [∀ i, Scalar (E i)] {α : Type} [Scalar α]

/-- If gathering succeeds, so does scattering, and gathering gives at every element of the map a sum
that starts from zero and takes in the same order, and each once, some of the terms that scattering
adds up there: the gradients of the bins of the element's channel, of regions of its batch entry,
whose winner it is, in row-major order of the bins. -/
theorem gather_sums {s : Session E} {w : Winners} {gradient result : Tensor α}
    {regions : List Region} {map : Shape} (hs : s.Reachable) (hw : s.Holds w)
    (h : (gather w gradient regions map).outcome = .ok result) :
    ∃ (d : MapDims) (t : Tensor α), map = d.shape ∧ result.shape = map ∧
      (scatter w gradient regions map).outcome = .ok t ∧
      ∀ p, d.Contains p → ∃ bins taken : List PooledPosition,
        bins.Pairwise PooledPosition.Precedes ∧ taken.Sublist bins ∧
        (∀ q, q ∈ bins ↔ w.dims.Contains q ∧ q.channel = p.channel ∧
          (∃ region, regions[q.region]? = some region ∧ region.batch = p.batch) ∧
          w.get q.region q.channel q.row q.column = .ok (some (d.planeOffset p))) ∧
        ∃ all terms : List α,
          bins.map (fun q ↦ gradient.get? q.toList) = all.map some ∧
          taken.map (fun q ↦ gradient.get? q.toList) = terms.map some ∧
          t.get? p.toList = some (all.foldl Scalar.add Scalar.zero) ∧
          result.get? p.toList = some (terms.foldl Scalar.add Scalar.zero) := by
  obtain ⟨d, haccept, _, -, _, -, _, -, hresult⟩ := outcome_gather_eq_ok_iff.1 h
  obtain ⟨rfl, hg, i, config, hr⟩ := exists_records_of_acceptGradient hs hw haccept
  have hmap := (Tensor.ofArray_eq_ok_iff.1 hresult).2.1
  obtain ⟨_, hgather, hshape, htaken⟩ := hr.outcome_gather_taken hmap hg
  cases h.symm.trans hgather
  obtain ⟨t, hscatter, -, hwon⟩ := hr.outcome_scatter_won hg hmap
  refine ⟨d, t, rfl, hshape, hscatter, ?_⟩
  intro p hp
  have hsublist : (w.takenBins α regions config d p).Sublist (w.wonBins regions d p) := by
    rw [hr.takenBins_eq_filter hp]
    exact List.filter_sublist
  have hcontains : ∀ q ∈ w.wonBins regions d p, w.dims.Contains q :=
    fun q hq ↦ (Winners.mem_wonBins.1 hq).1
  exact ⟨_, _, w.pairwise_wonBins regions d p, hsublist, fun q ↦ hr.mem_wonBins_iff, _, _,
    Winners.Records.map_get?_bins hg hcontains,
    Winners.Records.map_get?_bins hg fun q hq ↦ hcontains q (hsublist.subset hq), hwon p hp,
    htaken p hp⟩

/-- Winners of a map of double numbers, through which a gradient of single numbers is gathered: two
regions of one batch entry share a winner, and one belongs to the other entry. -/
theorem gather_sums_shared :
    let map : Tensor (Binary .double) :=
      ⟨⟨[2, 1, 1, 2]⟩, #[.ofInt 1, .ofInt 2, .ofInt 5, .ofInt 3], rfl, by decide⟩
    let regions : List Region :=
      [⟨0, .zero, .zero, .ofInt 1, .zero⟩, ⟨1, .zero, .zero, .ofInt 1, .zero⟩,
        ⟨0, .zero, .zero, .ofInt 1, .zero⟩]
    let gradient : Tensor (Binary .single) :=
      ⟨⟨[3, 1, 1, 1]⟩, #[.ofInt 1, .ofInt 10, .ofInt 100], rfl, by decide⟩
    ∃ (s : Session Binary) (w : Winners) (result : Tensor (Binary .single)),
      s.Reachable ∧ s.Holds w ∧ (gather w gradient regions map.shape).outcome = .ok result ∧
        result.data = #[.zero, .ofInt 101, .ofInt 10, .zero] ∧
        ∃ d : MapDims, map.shape = d.shape ∧ ∀ p, d.Contains p →
          ∃ bins taken : List PooledPosition,
            bins.Pairwise PooledPosition.Precedes ∧ taken.Sublist bins ∧
            ∃ terms : List (Binary .single),
              taken.map (fun q ↦ gradient.get? q.toList) = terms.map some ∧
              result.get? p.toList = some (terms.foldl Scalar.add Scalar.zero) := by
  intro map regions gradient
  have hok : ((pool map regions ⟨1, 1, .ofInt 1⟩).outcome.map fun pooled ↦
      (gather pooled.2 gradient regions map.shape).outcome.map Tensor.data) =
      .ok (.ok #[.zero, .ofInt 101, .ofInt 10, .zero]) := by
    decide +kernel
  obtain ⟨output, w, hpool, hread⟩ := exists_outcome_pool_of_map hok
  obtain ⟨result, hgather, hdata⟩ := exists_of_map_eq_ok hread
  obtain ⟨s, hs, hw⟩ := Session.exists_reachable_of_pool (E := Binary) hpool
  obtain ⟨d, _, hmap, -, -, hsums⟩ := gather_sums hs hw hgather
  refine ⟨s, w, result, hs, hw, hgather, hdata, d, hmap, ?_⟩
  intro p hp
  obtain ⟨bins, taken, hordered, hsublist, -, _, terms, -, hterms, -, hsum⟩ := hsums p hp
  exact ⟨bins, taken, hordered, hsublist, terms, hterms, hsum⟩

end RegionPooling
