import RegionPooling.Proofs.Bins.Reach
import RegionPooling.Proofs.Gradient.ElementSums
import RegionPooling.Proofs.Pooling.Reference

/-!
# Regions off the map

A box that is rounded in the format and has one more row and one more column at its far sides may
have no cell in common with the map. Main statement: the bins of such a region are all zero without
a winner, and scattering gives the same gradient whatever the gradients of these bins are. Without
the additional row and column this fails, since a last bin may be rounded past its box.
Specification §8 asks zeros without winners of regions off the map.
-/

namespace RegionPooling

/-- A box, with its sides rounded in a format and with one more row and column at its far sides, has
no cell in common with a map. -/
def Box.Misses (f : Format) (b : Box) (d : MapDims) : Prop :=
  ∀ row < d.height, ∀ column < d.width, ¬ (b.rows.Widened f row ∧ b.columns.Widened f column)

variable {f : Format} {d : MapDims} {region : Region} {config : PoolConfig} {q : PooledPosition}

/-- The bins of a region that misses the map cover nothing of it. -/
theorem Region.binCells_eq_nil (hmiss : (region.box (Binary f) config.scale).Misses f d)
    (hfits : d.shape.occupied ≤ storageLimit) (hheight : config.height ≤ twoPow 64)
    (hwidth : config.width ≤ twoPow 64) (hrow : q.row < config.height)
    (hcolumn : q.column < config.width) : region.binCells (Binary f) config d q = [] := by
  obtain ⟨hlimit, hlimit'⟩ := MapDims.sides_le_storageLimit hfits
  rw [List.eq_nil_iff_forall_not_mem]
  intro k hk
  obtain ⟨hmem, hmem'⟩ := mem_binExtent_of_mem_binCells hk
  obtain ⟨row, hr, hnear⟩ :=
    BinAxis.exists_widened Binary.nearest_natAbs_roundGrid hlimit hheight hrow hmem
  obtain ⟨column, hc, hnear'⟩ :=
    BinAxis.exists_widened Binary.nearest_natAbs_roundGrid hlimit' hwidth hcolumn hmem'
  exact hmiss row hr column hc ⟨hnear, hnear'⟩

/-- A bin that covers nothing is vacant. -/
theorem pooledCell_eq_vacant {α : Type} [Scalar α] {data : Array α}
    (h : region.binCells α config d q = []) : pooledCell data d config region q = .vacant :=
  if_pos (BinExtent.offsets_eq_nil_iff.1 h)

/-- The sums depend on the gradients of those bins alone that have a winner. -/
theorem Winners.gradientSums_congr {α : Type} [Scalar α] {w : Winners} {gradient other : Array α}
    {regions : List Region}
    (h : ∀ q, w.dims.Contains q → w.winnerAt q ≠ none →
      gradient.getD (w.dims.cell q) Scalar.zero = other.getD (w.dims.cell q) Scalar.zero) :
    w.gradientSums gradient regions d = w.gradientSums other regions d := by
  unfold gradientSums elementSum
  congr 2
  funext k
  apply List.foldl_ext
  intro total q hq
  obtain ⟨hpositions, hwon⟩ := List.mem_filter.1 hq
  have hwinner : w.winnerAt q ≠ none := by
    rw [(of_decide_eq_true hwon).2.2]
    exact Option.some_ne_none _
  rw [h q (PooledDims.mem_positions.1 hpositions) hwinner]

variable {map : Tensor (Binary f)} {regions : List Region}

/-- Inputs in order are pooled if the result fits into storage. Then the bins of a region that
misses the map are zero and have no winner, and their gradients reach no element: scattering two
gradients that agree on the bins of all other regions gives the same tensor. -/
theorem pool_off_map {α : Type} [Scalar α] (hmap : map.shape = d.shape)
    (hvalid : config.validate = .ok ())
    (hregions : ∀ r ∈ regions, r.batch < d.batch ∧ r.isFinite = true) :
    ((∃ result, (pool map regions config).outcome = .ok result) ↔
        (d.pooled config regions.length).shape.occupied ≤ storageLimit) ∧
      ∀ output w, (pool map regions config).outcome = .ok (output, w) →
        ∀ index region, regions[index]? = some region →
          (region.box (Binary f) config.scale).Misses f d →
          (∀ q, w.dims.Contains q → q.region = index →
            output.get? q.toList = some .zero ∧
              w.get q.region q.channel q.row q.column = .ok none) ∧
          ∀ gradient other : Tensor α,
            gradient.shape = w.dims.shape → other.shape = w.dims.shape →
            (∀ q, w.dims.Contains q → q.region ≠ index →
              gradient.get? q.toList = other.get? q.toList) →
            ∃ t, (scatter w gradient regions map.shape).outcome = .ok t ∧
              (scatter w other regions map.shape).outcome = .ok t := by
  refine ⟨exists_outcome_pool_iff hmap hvalid hregions, ?_⟩
  intro output w h index region hregion hmiss
  have hd := IsPooledMap.of_outcome_pool hmap h
  obtain ⟨hheight, hwidth⟩ := hd.sizes_le
  have hstored := Tensor.occupied_le hmap
  have hvacant : ∀ q, w.dims.Contains q → q.region = index →
      pooledCell map.data d config region q = .vacant := by
    rintro q hq rfl
    rw [hd.dims_eq] at hq
    exact pooledCell_eq_vacant
      (Region.binCells_eq_nil hmiss hstored hheight hwidth hq.2.2.1 hq.2.2.2)
  have hcells : ∀ q, w.dims.Contains q → q.region = index →
      w.cells[w.dims.cell q]? = some none := by
    rintro q hq rfl
    rw [hd.cells_getElem? hq hregion, hvacant q hq rfl]
    rfl
  constructor
  · rintro q hq rfl
    rw [hd.get_eq_ok hq hregion, hd.output_getElem? hq hregion, hvacant q hq rfl]
    exact ⟨rfl, rfl⟩
  · intro gradient other hg ho hagree
    have hr : w.Records (Binary f) regions d config := hd.records
    obtain ⟨t, ht, htshape, htdata⟩ := hr.outcome_scatter hg hstored
    obtain ⟨u, hu, hushape, hudata⟩ := hr.outcome_scatter ho hstored
    have hsums : w.gradientSums gradient.data regions d = w.gradientSums other.data regions d := by
      apply Winners.gradientSums_congr
      intro q hq hwinner
      -- a bin with a winner is not one of the region, so that the gradients agree there
      have hother : q.region ≠ index := by
        intro hindex
        apply hwinner
        simp [Winners.winnerAt, hcells q hq hindex]
      have hread := hagree q hq hother
      rw [Tensor.get?_pooled hg hq, Tensor.get?_pooled ho hq] at hread
      simp [hread]
    obtain rfl : u = t := by
      apply Tensor.ext (hushape.trans htshape.symm)
      rw [hudata, htdata, hsums]
    rw [hmap]
    exact ⟨u, ht, hu⟩

/-- A region off the map beside one on it; the gradient of the region off the map is infinite. -/
theorem pool_off_map_infinite :
    let map : Tensor (Binary .single) := ⟨⟨[1, 1, 1, 2]⟩, #[.ofInt 2, .ofInt 5], rfl, by decide⟩
    let regions : List Region :=
      [⟨0, .ofInt 7, .zero, .ofInt 9, .zero⟩, ⟨0, .zero, .zero, .ofInt 1, .zero⟩]
    let config : PoolConfig := ⟨1, 1, .ofInt 1⟩
    let gradient : Tensor (Binary .single) :=
      ⟨⟨[2, 1, 1, 1]⟩, #[.infinity false, .ofInt 3], rfl, by decide⟩
    let other : Tensor (Binary .single) := ⟨⟨[2, 1, 1, 1]⟩, #[.zero, .ofInt 3], rfl, by decide⟩
    ∃ output w, (pool map regions config).outcome = .ok (output, w) ∧
      output.get? [0, 0, 0, 0] = some .zero ∧ w.get 0 0 0 0 = .ok none ∧
      ∃ t, (scatter w gradient regions map.shape).outcome = .ok t ∧
        (scatter w other regions map.shape).outcome = .ok t := by
  intro map regions config gradient other
  have hmap : map.shape = MapDims.shape ⟨1, 1, 1, 2⟩ := rfl
  have hvalid : config.validate = .ok () := by decide +kernel
  have hregions : ∀ r ∈ regions, r.batch < 1 ∧ r.isFinite = true := by decide +kernel
  obtain ⟨hiff, hoff⟩ := pool_off_map (α := Binary .single) hmap hvalid hregions
  obtain ⟨⟨output, w⟩, h⟩ := hiff.2 (by decide)
  have hdims : w.dims = ⟨2, 1, 1, 1⟩ := (IsPooledMap.of_outcome_pool hmap h).dims_eq
  have hmiss : ((⟨0, .ofInt 7, .zero, .ofInt 9, .zero⟩ : Region).box (Binary .single)
      config.scale).Misses .single ⟨1, 1, 1, 2⟩ := by
    rintro row - column hcolumn ⟨-, hfirst, -⟩
    have hseven : (((⟨0, .ofInt 7, .zero, .ofInt 9, .zero⟩ : Region).box (Binary .single)
        config.scale).columns).first = 7 := by
      decide +kernel
    rw [hseven] at hfirst
    have hle : (7 : ℤ) ≤ column := by exact_mod_cast hfirst
    change column < 2 at hcolumn
    omega
  obtain ⟨hvacant, hscatter⟩ := hoff output w h 0 _ rfl hmiss
  obtain ⟨houtput, hwinner⟩ := hvacant ⟨0, 0, 0, 0⟩ (by rw [hdims]; decide) rfl
  refine ⟨output, w, h, houtput, hwinner,
    hscatter gradient other (by rw [hdims]; rfl) (by rw [hdims]; rfl) ?_⟩
  rintro ⟨region, channel, row, column⟩ hq hregion
  rw [hdims] at hq
  obtain ⟨h0, h1, h2, h3⟩ := hq
  dsimp only at h0 h1 h2 h3 hregion
  obtain rfl : region = 1 := by omega
  obtain rfl : channel = 0 := by omega
  obtain rfl : row = 0 := by omega
  obtain rfl : column = 0 := by omega
  rfl

/-- Three rows above the map in twenty-one bins: the last bin is rounded past the box, to the first
row of the map. -/
theorem pool_reaches_past_box :
    let map : Tensor (Binary .single) := ⟨⟨[1, 1, 1, 1]⟩, #[.ofInt 5], rfl, by decide⟩
    let region : Region := ⟨0, .zero, .ofInt (-3), .zero, .ofInt (-1)⟩
    let config : PoolConfig := ⟨21, 1, .ofInt 1⟩
    let box := region.box (Binary .single) config.scale
    box.rows.first + box.height - 1 < 0 ∧
      ∃ output w, (pool map [region] config).outcome = .ok (output, w) ∧
        output.get? [0, 0, 20, 0] = some (.ofInt 5) ∧ w.get 0 0 20 0 = .ok (some 0) := by
  intro map region config box
  have hok : ((pool map [region] config).outcome.map fun result ↦
      (result.1.get? [0, 0, 20, 0], result.2.get 0 0 20 0)) =
      .ok (some (.ofInt 5), .ok (some 0)) := by
    decide +kernel
  obtain ⟨output, w, h, hread⟩ := exists_outcome_pool_of_map hok
  obtain ⟨hvalue, hwinner⟩ := Prod.mk.inj hread
  exact ⟨by decide +kernel, output, w, h, hvalue, hwinner⟩

end RegionPooling
