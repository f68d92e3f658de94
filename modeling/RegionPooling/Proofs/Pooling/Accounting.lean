import Mathlib.Algebra.BigOperators.Group.Finset.Piecewise
import Mathlib.Algebra.BigOperators.Group.Finset.Sigma
import RegionPooling.Proofs.Pooling.Cells

/-!
# Accounting for bins without cells

A pass reports for every region how many of its bins cover no cell of the map, and at the end their
number for all regions. Such bins have no winner, and neither have bins that cover cells but no
number, which are not reported. Main statement: exactly the regions with such bins are reported, in
order, each with the number of channels times the number of its bins without cells, then the sum;
and the bins without a winner are those that are reported and those that cover no number.
Specification §10.5.
-/

namespace RegionPooling

private theorem countP_flatMap_range {β : Type} (n : ℕ) (g : ℕ → List β) (p : β → Bool) :
    ((List.range n).flatMap g).countP p = ∑ i ∈ Finset.range n, (g i).countP p := by
  rw [List.countP_flatMap]
  rfl

private theorem countP_map_range {β : Type} (n : ℕ) (g : ℕ → β) (p : β → Bool) :
    ((List.range n).map g).countP p = ∑ i ∈ Finset.range n, if p (g i) = true then 1 else 0 := by
  induction n with
  | zero => rfl
  | succ n ih =>
    rw [List.range_succ, List.map_append, List.countP_append, ih, Finset.sum_range_succ,
      List.map_singleton, List.countP_singleton]

namespace PooledDims

private theorem countP_planePositions (d : PooledDims) (region channel : ℕ)
    (p : PooledPosition → Bool) : (d.planePositions region channel).countP p =
      ((Finset.range d.height ×ˢ Finset.range d.width).filter fun bin ↦
        p ⟨region, channel, bin.1, bin.2⟩ = true).card := by
  rw [planePositions, countP_flatMap_range, Finset.card_filter, Finset.sum_product]
  exact Finset.sum_congr rfl fun row _ ↦ countP_map_range _ _ _

private theorem countP_regionPositions (d : PooledDims) (region : ℕ) (p : PooledPosition → Bool) :
    (d.regionPositions region).countP p =
      ((Finset.range d.channels ×ˢ Finset.range d.height ×ˢ Finset.range d.width).filter fun bin ↦
        p ⟨region, bin.1, bin.2.1, bin.2.2⟩ = true).card := by
  rw [regionPositions, countP_flatMap_range, Finset.card_filter, Finset.sum_product]
  apply Finset.sum_congr rfl
  intro channel _
  rw [countP_planePositions, Finset.card_filter]

end PooledDims

namespace BinResult

variable {α : Type}

/-- Whether a bin has cells but no number among them. -/
def isUndefined : BinResult α → Bool
  | undefined => true
  | _ => false

private theorem countP_isNone_winner (results : List (BinResult α)) :
    results.countP (fun result ↦ result.winner.isNone) =
      vacancies results + results.countP isUndefined := by
  unfold vacancies
  induction results with
  | nil => rfl
  | cons result results ih =>
    rw [List.countP_cons, List.countP_cons, List.countP_cons, ih]
    cases result with
    | vacant => exact Nat.add_right_comm _ _ _
    | undefined => exact Nat.add_assoc _ _ _
    | won => rfl

end BinResult

private theorem isVacant_pooledBin {α : Type} [Scalar α] (plane : ℕ → α) (width : ℕ)
    (e : BinExtent) : (pooledBin plane width e).isVacant = e.isEmpty := by
  unfold pooledBin
  split
  · next h => exact h.symm
  · next h =>
    rw [Bool.not_eq_true] at h
    rw [h]
    cases (e.offsets width).foldl (fun best k ↦ better best ⟨k, plane k⟩) none <;> rfl

variable {f : Format}

private theorem isUndefined_pooledBin_iff {plane : ℕ → Binary f} {width : ℕ} {e : BinExtent}
    (h : e.columns.stop ≤ width) :
    (pooledBin plane width e).isUndefined = true ↔
      e.isEmpty = false ∧ ∀ k ∈ e.offsets width, (plane k).isNaN = true := by
  unfold pooledBin
  split
  · next hempty => simp [BinResult.isUndefined, hempty]
  · next hempty =>
    rw [Bool.not_eq_true] at hempty
    have hbest : IsBest plane (e.offsets width) _ := isBest_foldl (BinExtent.pairwise_offsets h)
    cases hscan : (e.offsets width).foldl (fun best k ↦ better best ⟨k, plane k⟩) none with
    | none =>
      rw [hscan] at hbest
      exact ⟨fun _ ↦ ⟨hempty, hbest⟩, fun _ ↦ rfl⟩
    | some best =>
      rw [hscan] at hbest
      constructor
      · intro hwon
        cases hwon
      · rintro ⟨-, hnan⟩
        have hnumber := hbest.2.number
        rw [hnan _ hbest.2.mem] at hnumber
        cases hnumber

/-- A bin covers cells of a plane of a map, and no number. -/
def BinExtent.HoldsNoNumber (e : BinExtent) (map : Tensor (Binary f)) (batch channel : ℕ) : Prop :=
  e.isEmpty = false ∧ ∀ row ∈ e.rows.toList, ∀ column ∈ e.columns.toList,
    ∃ x ∈ map.get? [batch, channel, row, column], x.isNaN = true

instance (e : BinExtent) (map : Tensor (Binary f)) (batch channel : ℕ) :
    Decidable (e.HoldsNoNumber map batch channel) :=
  inferInstanceAs (Decidable (_ ∧ _))

/-- Bins of a region that cover no cell of a map, by their rows and columns. -/
def Region.vacantBins (α : Type) [Scalar α] (region : Region) (config : PoolConfig)
    (map : MapDims) : Finset (ℕ × ℕ) :=
  (Finset.range config.height ×ˢ Finset.range config.width).filter fun bin ↦
    ((BinGrid.ofRegion region config : BinGrid α).extent map.height map.width
      bin.1 bin.2).isEmpty = true

/-- Bins of a region that cover cells of a map and no number, by their channels, rows and
columns. -/
def Region.numberlessBins (region : Region) (config : PoolConfig) (map : Tensor (Binary f))
    (d : MapDims) : Finset (ℕ × ℕ × ℕ) :=
  (Finset.range d.channels ×ˢ Finset.range config.height ×ˢ Finset.range config.width).filter
    fun bin ↦ ((BinGrid.ofRegion region config : BinGrid (Binary f)).extent d.height d.width
      bin.2.1 bin.2.2).HoldsNoNumber map region.batch bin.1

/-- Number of bins of a region without cells over all channels. -/
def Region.vacantCount (α : Type) [Scalar α] (region : Region) (config : PoolConfig)
    (map : MapDims) : ℕ :=
  map.channels * (region.vacantBins α config map).card

private theorem Region.vacantCount_pos_iff {α : Type} [Scalar α] {region : Region}
    {config : PoolConfig} {map : MapDims} : 0 < region.vacantCount α config map ↔
      0 < map.channels ∧ (region.vacantBins α config map).Nonempty := by
  unfold vacantCount
  constructor
  · intro h
    exact ⟨Nat.pos_of_mul_pos_right h, Finset.card_pos.1 (Nat.pos_of_mul_pos_left h)⟩
  · rintro ⟨hchannels, hbins⟩
    exact Nat.mul_pos hchannels (Finset.card_pos.2 hbins)

private theorem Region.numberlessBins_eq_empty {map : Tensor (Binary f)} {region : Region}
    {config : PoolConfig} {d : MapDims}
    (h : ∀ index, ∀ x ∈ map.get? index, x.isNaN = false) :
    region.numberlessBins config map d = ∅ := by
  unfold numberlessBins
  rw [Finset.filter_eq_empty_iff]
  rintro bin - ⟨hcells, hnan⟩
  obtain ⟨hrows, hcolumns⟩ := Bool.or_eq_false_iff.1 hcells
  obtain ⟨row, hrow⟩ := List.exists_mem_of_ne_nil _ fun hnil ↦
    Bool.eq_false_iff.1 hrows (Span.toList_eq_nil_iff.1 hnil)
  obtain ⟨column, hcolumn⟩ := List.exists_mem_of_ne_nil _ fun hnil ↦
    Bool.eq_false_iff.1 hcolumns (Span.toList_eq_nil_iff.1 hnil)
  obtain ⟨x, hx, hnot⟩ := hnan row hrow column hcolumn
  rw [h _ x hx] at hnot
  cases hnot

/-- Results of the bins of a region in order. -/
def PooledShape.regionResults {α : Type} [Scalar α] (s : PooledShape) (data : Array α)
    (d : MapDims) (region : Region) : List (BinResult α) :=
  ((s.dims 1).regionPositions 0).map (pooledCell data d s.config region)

section

variable {map : Tensor (Binary f)} {d : MapDims} {s : PooledShape} {region : Region}

/-- The bins of a region that are found to have no cells are those of each channel. -/
theorem vacancies_regionResults {α : Type} [Scalar α] {data : Array α}
    (hc : d.channels = s.channels) :
    vacancies (s.regionResults data d region) = region.vacantCount α s.config d := by
  have hcell : BinResult.isVacant ∘ pooledCell data d s.config region =
      fun q ↦ (region.binExtent α s.config d q).isEmpty :=
    funext fun _ ↦ isVacant_pooledBin _ _ _
  have hchannel (channel : ℕ) : ((s.dims 1).planePositions 0 channel).countP
      (fun q ↦ (region.binExtent α s.config d q).isEmpty) =
        (region.vacantBins α s.config d).card :=
    (s.dims 1).countP_planePositions 0 channel _
  rw [vacancies, PooledShape.regionResults, List.countP_map, hcell, PooledDims.regionPositions,
    countP_flatMap_range, Finset.sum_const_nat fun channel _ ↦ hchannel channel,
    Finset.card_range, Region.vacantCount, hc]
  rfl

/-- The elements that a bin covers are those at its positions in the plane. -/
theorem holdsNoNumber_iff {e : BinExtent} {batch channel : ℕ} (hmap : map.shape = d.shape)
    (hb : batch < d.batch) (hc : channel < d.channels) (hrows : e.rows.stop ≤ d.height)
    (hcolumns : e.columns.stop ≤ d.width) :
    e.HoldsNoNumber map batch channel ↔ e.isEmpty = false ∧
      ∀ k ∈ e.offsets d.width, (d.planeValue map.data batch channel k).isNaN = true := by
  have hread : ∀ y ∈ e.rows.toList, ∀ x ∈ e.columns.toList,
      map.get? [batch, channel, y, x] =
        some (d.planeValue map.data batch channel (y * d.width + x)) := by
    intro y hy x hx
    have hrow : y < d.height := lt_of_lt_of_le (Span.mem_toList.1 hy).2 hrows
    have hcolumn : x < d.width := lt_of_lt_of_le (Span.mem_toList.1 hx).2 hcolumns
    have hk : y * d.width + x < d.plane :=
      MapDims.planeOffset_lt_plane (p := ⟨batch, channel, y, x⟩) hrow hcolumn
    have hplane := Tensor.get?_plane hmap hb hc hk
    have hoffset : d.planeOffset ⟨batch, channel, y, x⟩ = y * d.width + x := rfl
    rwa [← hoffset, MapDims.planeOffset_div hcolumn, MapDims.planeOffset_mod hcolumn] at hplane
  unfold BinExtent.HoldsNoNumber
  apply and_congr_right
  intro _
  constructor
  · intro h k hk
    obtain ⟨y, hy, x, hx, rfl⟩ := BinExtent.mem_offsets.1 hk
    obtain ⟨value, hvalue, hnan⟩ := h y hy x hx
    rw [hread y hy x hx, Option.mem_some_iff] at hvalue
    rwa [hvalue]
  · intro h y hy x hx
    exact ⟨_, hread y hy x hx, h _ (BinExtent.mem_offsets.2 ⟨y, hy, x, hx, rfl⟩)⟩

private theorem countP_isUndefined_regionResults (hmap : map.shape = d.shape)
    (hb : region.batch < d.batch) (hc : d.channels = s.channels) :
    (s.regionResults map.data d region).countP BinResult.isUndefined =
      (region.numberlessBins s.config map d).card := by
  rw [PooledShape.regionResults, List.countP_map, PooledDims.countP_regionPositions]
  unfold Region.numberlessBins
  rw [hc]
  congr 1
  apply Finset.filter_congr
  rintro ⟨channel, row, column⟩ hmem
  have hchannel : channel < d.channels := by
    rw [hc]
    exact Finset.mem_range.1 (Finset.mem_product.1 hmem).1
  rw [holdsNoNumber_iff hmap hb hchannel (BinAxis.span_stop_le _ _ _) (BinAxis.span_stop_le _ _ _)]
  exact isUndefined_pooledBin_iff (BinAxis.span_stop_le _ _ _)

end

/-- The events of a pass over a map and the cells that it leaves account for the bins of the
regions. -/
structure Accounts (events : List Event) (cells : Array (Option ℕ)) (map : Tensor (Binary f))
    (d : MapDims) (config : PoolConfig) (regions : List Region) : Prop where
  /-- Regions with bins that have no cells are reported in order, with the number of such bins; the
  summary with the sum follows. -/
  reported : events =
    ((regions.filter fun region ↦
        decide (0 < d.channels ∧ (region.vacantBins (Binary f) config d).Nonempty)).map
      fun region ↦ .emptyBins region (region.vacantCount (Binary f) config d)) ++
    [.pooled regions.length d config.height config.width
      (regions.map fun region ↦ region.vacantCount (Binary f) config d).sum]
  /-- Besides the bins that are reported, those that cover no number have no winner. -/
  withoutWinner : cells.countP Option.isNone =
    (regions.map fun region ↦ region.vacantCount (Binary f) config d).sum +
      (regions.map fun region ↦ (region.numberlessBins config map d).card).sum
  /-- On a map of numbers the bins that are reported are those without a winner. -/
  allNumbers : (∀ index, ∀ x ∈ map.get? index, x.isNaN = false) →
    cells.countP Option.isNone =
      (regions.map fun region ↦ region.vacantCount (Binary f) config d).sum

section

variable {α : Type}

private theorem zip_map_self {β γ : Type} (l : List β) (g : β → γ) :
    l.zip (l.map g) = l.map fun b ↦ (b, g b) := by
  simpa using List.zip_map' (f := id) (g := g) (l := l)

/-- The events of a pass are those of its regions, one after another. -/
theorem poolEvents_map (d : MapDims) (config : PoolConfig) (regions : List Region)
    (result : Region → List (BinResult α)) :
    poolEvents d config regions (regions.map result) =
      ((regions.filter fun region ↦ decide (0 < vacancies (result region))).map
        fun region ↦ .emptyBins region (vacancies (result region))) ++
      [.pooled regions.length d config.height config.width
        (regions.map fun region ↦ vacancies (result region)).sum] := by
  unfold poolEvents
  dsimp only
  rw [List.map_map, zip_map_self, List.filter_map, List.map_map, ← List.sum_eq_foldr]
  rfl

private theorem poolEvents_nil (d : MapDims) (config : PoolConfig) {regions : List Region}
    {result : Region → List (BinResult α)} (h : ∀ r ∈ regions, result r = []) :
    poolEvents (α := α) d config regions [] =
      poolEvents d config regions (regions.map result) := by
  have hvacant : ∀ r ∈ regions, vacancies (result r) = 0 := fun r hr ↦ by rw [h r hr]; rfl
  have hnone : (regions.filter fun r ↦ decide (0 < vacancies (result r))) = [] := by
    rw [List.filter_eq_nil_iff]
    intro r hr hpos
    exact (of_decide_eq_true hpos).ne' (hvacant r hr)
  have hsum : (regions.map fun r ↦ vacancies (result r)).sum = 0 :=
    List.sum_eq_zero fun n hn ↦ by
      obtain ⟨r, hr, rfl⟩ := List.mem_map.1 hn
      exact hvacant r hr
  rw [poolEvents_map, hnone, hsum, poolEvents, List.map_nil, List.zip_nil_right]
  rfl

variable [Scalar α]

/-- A pass reports the events of its regions and keeps the winners of their bins in order. -/
theorem Buffers.regionResults_of_outcome_fill {b after : Buffers α} {map : Tensor α}
    {regions : List Region} (h : (b.fill map regions).outcome = .ok after) :
    ∃ d, b.accept map regions = .ok d ∧
      (b.fill map regions).events = poolEvents d b.shape.config regions
        (regions.map (b.shape.regionResults map.data d)) ∧
      after.winners.cells = ((regions.map (b.shape.regionResults map.data d)).flatten.map
        BinResult.winner).toArray := by
  obtain ⟨d, haccept, fresh, hfresh, results, hpool, rfl⟩ := outcome_fill_eq_ok_iff.1 h
  obtain ⟨hmap, hchannels, hregions⟩ := accept_eq_ok_iff.1 haccept
  have hsize : map.data.size = d.shape.count := by rw [map.size_data, hmap]
  have hevents : (b.fill map regions).events = poolEvents d b.shape.config regions results := by
    have hcleared : (Run.ofExcept (b.resize regions.length)).outcome = .ok fresh := hfresh
    have hresults : (Run.ofExcept (poolRegions map.data d b.shape regions)).outcome =
        .ok results := hpool
    unfold fill
    rw [Run.events_bind_ok (Run.outcome_ofResult_eq_ok_iff.2 haccept), Run.events_bind_ok hcleared,
      Run.events_bind_ok hresults]
    exact List.append_nil _
  have hcount := (PooledShape.allocate_eq_ok_iff.1 hfresh).1
  unfold poolRegions at hpool
  rw [PooledShape.cellsPerRegion_of_countable hcount, ok_bind] at hpool
  refine ⟨d, haccept, ?_⟩
  rw [hevents]
  split at hpool
  · next hzero =>
    -- no region is visited, but none has a bin either
    cases hpool
    have hnone : ∀ r ∈ regions, b.shape.regionResults map.data d r = [] := by
      intro r _
      rw [← List.length_eq_zero_iff]
      simpa [PooledShape.regionResults] using hzero
    refine ⟨poolEvents_nil d b.shape.config hnone, ?_⟩
    rw [List.map_congr_left hnone]
    simp [hold]
  · have hone : ∀ r ∈ regions, poolRegion map.data d b.shape.config r =
        .ok (b.shape.regionResults map.data d r) :=
      fun r hr ↦ poolRegion_eq_ok 0 hsize (hregions r hr).1 hchannels.symm rfl rfl
    rw [mapM_eq_ok hone] at hpool
    cases hpool
    exact ⟨rfl, rfl⟩

end

private theorem countP_isNone_regionResults {s : PooledShape} {map : Tensor (Binary f)}
    {d : MapDims}
    {regions : List Region} (hmap : map.shape = d.shape) (hc : d.channels = s.channels)
    (hb : ∀ r ∈ regions, r.batch < d.batch) :
    ((regions.map (s.regionResults map.data d)).flatten.map BinResult.winner).countP
        Option.isNone =
      (regions.map fun region ↦ region.vacantCount (Binary f) s.config d).sum +
        (regions.map fun region ↦ (region.numberlessBins s.config map d).card).sum := by
  rw [List.countP_map]
  show (List.flatten _).countP (fun result : BinResult (Binary f) ↦ result.winner.isNone) = _
  rw [BinResult.countP_isNone_winner, vacancies, List.countP_flatten, List.countP_flatten,
    List.map_map, List.map_map]
  congr 2
  · exact List.map_congr_left fun r _ ↦ vacancies_regionResults hc
  · exact List.map_congr_left fun r hr ↦ countP_isUndefined_regionResults hmap (hb r hr) hc

/-- The events of a pass and the cells that it leaves account for the bins of its regions: the
regions with bins that have no cells are reported in order, each with the channels times the number
of such bins, then the summary with the sum; the bins without a winner are those reported and those
that cover no number. -/
theorem accounts_of_outcome_fill {b after : Buffers (Binary f)} {map : Tensor (Binary f)}
    {regions : List Region} (h : (b.fill map regions).outcome = .ok after) :
    ∃ d : MapDims, map.shape = d.shape ∧
      Accounts (b.fill map regions).events after.winners.cells map d b.shape.config regions := by
  obtain ⟨d, haccept, hevents, hcells⟩ := Buffers.regionResults_of_outcome_fill h
  obtain ⟨hmap, hchannels, hregions⟩ := Buffers.accept_eq_ok_iff.1 haccept
  have hwinners := countP_isNone_regionResults hmap hchannels fun r hr ↦ (hregions r hr).1
  rw [poolEvents_map] at hevents
  simp only [vacancies_regionResults hchannels] at hevents
  refine ⟨d, hmap, ?_, ?_, ?_⟩
  · simp only [hevents, Region.vacantCount_pos_iff]
  · rw [hcells, List.countP_toArray, hwinners]
  · intro hnumbers
    rw [hcells, List.countP_toArray, hwinners]
    simp [Region.numberlessBins_eq_empty hnumbers]

/-- Two channels, one without numbers, and a region that begins off the map beside one that does
not. -/
theorem accounts_of_outcome_fill_numberless :
    let map : Tensor (Binary .single) :=
      ⟨⟨[1, 2, 1, 2]⟩, #[.nan, .ofInt 3, .nan, .nan], rfl, by decide⟩
    let config : PoolConfig := ⟨1, 3, .ofInt 1⟩
    let outside : Region := ⟨0, .ofInt (-1), .zero, .ofInt 1, .zero⟩
    let inside : Region := ⟨0, .zero, .zero, .ofInt 1, .zero⟩
    let d : MapDims := ⟨1, 2, 1, 2⟩
    ∃ fresh after : Buffers (Binary .single), (PooledShape.mk 2 config).allocate 0 = .ok fresh ∧
      (fresh.fill map [outside, inside]).outcome = .ok after ∧
      Accounts [.emptyBins outside 2, .pooled 2 d 1 3 2] after.winners.cells map d config
        [outside, inside] ∧
      after.winners.cells.countP Option.isNone = 2 + 7 := by
  intro map config outside inside d
  let fresh := (PooledShape.mk 2 config).fresh (Binary .single) 0
  have hfill : (fresh.fill map [outside, inside]).outcome.map
      (fun after ↦ after.winners.cells.countP Option.isNone) = .ok 9 := by
    decide +kernel
  have hevents : (fresh.fill map [outside, inside]).events =
      [.emptyBins outside 2, .pooled 2 d 1 3 2] := by
    decide +kernel
  obtain ⟨after, hafter, hcount⟩ := exists_of_map_eq_ok hfill
  obtain ⟨d', hmap, haccounts⟩ := accounts_of_outcome_fill hafter
  obtain rfl : d = d' := MapDims.shape_injective hmap
  rw [hevents] at haccounts
  exact ⟨fresh, after, PooledShape.allocate_eq_ok (by decide), hafter, haccounts, hcount⟩

end RegionPooling
