import RegionPooling.Proofs.Gradient.ElementSums
import RegionPooling.Proofs.Session.Validity

/-!
# What scattering gives

Main statement: through any table that a caller can hold, scattering gives at every map element the
sum of the gradients of exactly the bins that the element won, formed from zero in row-major order
of the bins. Specification §4.3 (a).
-/

namespace RegionPooling

variable {ι : Type} {E : ι → Type} [DecidableEq ι] [∀ i, Scalar (E i)] {α : Type}

/-- A table that can be held and that a gradient is accepted for records a pass over the regions and
the map. -/
theorem exists_records_of_acceptGradient {s : Session E} {w : Winners} {gradient : Tensor α}
    {regions : List Region} {map : Shape} {d : MapDims} {operation : String} (hs : s.Reachable)
    (hw : s.Holds w) (h : acceptGradient w gradient regions map operation = .ok d) :
    map = d.shape ∧ gradient.shape = w.dims.shape ∧
      ∃ (i : ι) (config : PoolConfig), w.Records (E i) regions d config := by
  obtain ⟨hmap, hg, hpairing⟩ := acceptGradient_eq_ok_iff.1 h
  obtain ⟨-, source, hsource, rfl, rfl⟩ := Winners.checkPairing_eq_ok_iff.1 hpairing
  obtain ⟨pass, -, hpass⟩ := hs.exists_valid hw
  cases pass with
  | none =>
    unfold Winners.isPopulated at hpass
    rw [hsource] at hpass
    cases hpass
  | some p =>
    obtain ⟨-, d', -, hrecords⟩ := hpass
    have hsame := hrecords.provenance
    rw [hsource] at hsame
    cases hsame
    exact ⟨hmap, hg, p.kind, _, hrecords⟩

variable [Scalar α]

private theorem exists_records_of_outcome_scatter {s : Session E} {w : Winners}
    {gradient result : Tensor α} {regions : List Region} {map : Shape} (hs : s.Reachable)
    (hw : s.Holds w) (h : (scatter w gradient regions map).outcome = .ok result) :
    ∃ (d : MapDims) (i : ι) (config : PoolConfig), map = d.shape ∧
      gradient.shape = w.dims.shape ∧ d.shape.occupied ≤ storageLimit ∧
      w.Records (E i) regions d config := by
  obtain ⟨d, haccept, _, -, _, -, hresult⟩ := outcome_scatter_eq_ok_iff.1 h
  obtain ⟨hmap, hg, i, config, hr⟩ := exists_records_of_acceptGradient hs hw haccept
  exact ⟨d, i, config, hmap, hg, (Tensor.ofArray_eq_ok_iff.1 hresult).2.1, hr⟩

/-- Scattering gives at every element of the map the sum of the gradients of the bins that the
element won: the bins of its channel, of regions of its batch entry, whose winner it is. The sum
starts from zero and takes each of these bins once, in row-major order. -/
theorem scatter_sums {s : Session E} {w : Winners} {gradient result : Tensor α}
    {regions : List Region} {map : Shape} (hs : s.Reachable) (hw : s.Holds w)
    (h : (scatter w gradient regions map).outcome = .ok result) :
    ∃ d : MapDims, map = d.shape ∧ result.shape = map ∧
      ∀ p, d.Contains p → ∃ bins : List PooledPosition,
        bins.Pairwise PooledPosition.Precedes ∧
        (∀ q, q ∈ bins ↔ w.dims.Contains q ∧ q.channel = p.channel ∧
          (∃ region, regions[q.region]? = some region ∧ region.batch = p.batch) ∧
          w.get q.region q.channel q.row q.column = .ok (some (d.planeOffset p))) ∧
        ∃ terms : List α, bins.map (fun q ↦ gradient.get? q.toList) = terms.map some ∧
          result.get? p.toList = some (terms.foldl Scalar.add Scalar.zero) := by
  obtain ⟨d, i, config, rfl, hg, hmap, hr⟩ := exists_records_of_outcome_scatter hs hw h
  obtain ⟨t, ht, hshape, hwon⟩ := hr.outcome_scatter_won hg hmap
  rw [ht] at h
  cases h
  refine ⟨d, rfl, hshape, ?_⟩
  intro p hp
  have hcontains : ∀ q ∈ w.wonBins regions d p, w.dims.Contains q :=
    fun q hq ↦ (Winners.mem_wonBins.1 hq).1
  exact ⟨_, w.pairwise_wonBins regions d p, fun q ↦ hr.mem_wonBins_iff, _,
    Winners.Records.map_get?_bins hg hcontains, hwon p hp⟩

/-- Two regions of one batch entry that share a winner, and one of another entry. -/
theorem scatter_sums_shared :
    let map : Tensor (Binary .single) :=
      ⟨⟨[2, 1, 1, 2]⟩, #[.ofInt 1, .ofInt 2, .ofInt 5, .ofInt 3], rfl, by decide⟩
    let regions : List Region :=
      [⟨0, .zero, .zero, .ofInt 1, .zero⟩, ⟨1, .zero, .zero, .ofInt 1, .zero⟩,
        ⟨0, .zero, .zero, .ofInt 1, .zero⟩]
    let gradient : Tensor (Binary .single) :=
      ⟨⟨[3, 1, 1, 1]⟩, #[.ofInt 1, .ofInt 10, .ofInt 100], rfl, by decide⟩
    ∃ (s : Session Binary) (w : Winners) (result : Tensor (Binary .single)),
      s.Reachable ∧ s.Holds w ∧ (scatter w gradient regions map.shape).outcome = .ok result ∧
        result.data = #[.zero, .ofInt 101, .ofInt 10, .zero] ∧
        ∃ d : MapDims, map.shape = d.shape ∧ ∀ p, d.Contains p →
          ∃ bins : List PooledPosition, bins.Pairwise PooledPosition.Precedes ∧
            ∃ terms : List (Binary .single),
              bins.map (fun q ↦ gradient.get? q.toList) = terms.map some ∧
              result.get? p.toList = some (terms.foldl Scalar.add Scalar.zero) := by
  intro map regions gradient
  have hok : ((pool map regions ⟨1, 1, .ofInt 1⟩).outcome.map fun pooled ↦
      (scatter pooled.2 gradient regions map.shape).outcome.map Tensor.data) =
      .ok (.ok #[.zero, .ofInt 101, .ofInt 10, .zero]) := by
    decide +kernel
  obtain ⟨output, w, hpool, hread⟩ := exists_outcome_pool_of_map hok
  obtain ⟨result, hscatter, hdata⟩ := exists_of_map_eq_ok hread
  obtain ⟨s, hs, hw⟩ := Session.exists_reachable_of_pool (E := Binary) hpool
  obtain ⟨d, hmap, -, hsums⟩ := scatter_sums hs hw hscatter
  refine ⟨s, w, result, hs, hw, hscatter, hdata, d, hmap, ?_⟩
  intro p hp
  obtain ⟨bins, hordered, -, terms, hterms, hsum⟩ := hsums p hp
  exact ⟨bins, hordered, terms, hterms, hsum⟩

end RegionPooling
