import Mathlib.Logic.Function.Basic
import RegionPooling.Proofs.Gradient.UnitGradient

/-!
# Raising one element of a map

Pooling is compared before and after one element of the map is replaced by a larger number. Main
statement: only bins that cover the element can change, and a bin that covers it is taken by the
element exactly if the element won it before, exceeds its winner, or equals a later winner. So the
winners of a table are where the pooled values grow with the map, which is what makes them a
gradient.
-/

namespace RegionPooling

namespace Tensor

variable {α : Type}

/-- Tensor with another element at an index list; outside the shape there is nothing to replace. -/
def set (t : Tensor α) (index : List ℕ) (x : α) : Tensor α where
  shape := t.shape
  data := ((t.shape.offset? index).map fun k ↦ t.data.setIfInBounds k x).getD t.data
  size_data := by
    cases t.shape.offset? index with
    | none => exact t.size_data
    | some k => exact Array.size_setIfInBounds.trans t.size_data
  fits := t.fits

private theorem data_set {t : Tensor α} {d : MapDims} {p : MapPosition} (ht : t.shape = d.shape)
    (hp : d.Contains p) (x : α) : (t.set p.toList x).data = t.data.setIfInBounds (d.place p) x := by
  show Option.getD (Option.map _ (t.shape.offset? p.toList)) t.data = _
  rw [ht, MapDims.offset?_toList hp]
  rfl

private theorem planeValue_of_get? [Scalar α] {t : Tensor α} {d : MapDims} {p : MapPosition} {x : α}
    (ht : t.shape = d.shape) (hp : d.Contains p) (hx : t.get? p.toList = some x) :
    d.planeValue t.data p.batch p.channel (d.planeOffset p) = x := by
  rw [get?_map ht hp, MapDims.place] at hx
  simp [MapDims.planeValue, hx]

private theorem planeValue_set [Scalar α] {t : Tensor α} {d : MapDims} {p : MapPosition}
    (ht : t.shape = d.shape) (hp : d.Contains p) (x : α) {batch channel k : ℕ}
    (hc : channel < d.channels) (hk : k < d.plane) :
    d.planeValue (t.set p.toList x).data batch channel k =
      if batch = p.batch ∧ channel = p.channel then
        Function.update (d.planeValue t.data batch channel) (d.planeOffset p) x k
      else d.planeValue t.data batch channel k := by
  have hplace : d.place p < t.data.size := by
    rw [t.size_data, ht]
    exact MapDims.place_lt_count hp
  have hiff : d.planeStart batch channel + k = d.place p ↔
      batch = p.batch ∧ channel = p.channel ∧ k = d.planeOffset p := by
    rw [MapDims.planeStart_add_eq_iff hc hk, MapDims.position_place hp]
  rw [MapDims.planeValue, data_set ht hp, Array.getD_eq_getD_getElem?,
    Array.getElem?_setIfInBounds]
  by_cases hsame : d.planeStart batch channel + k = d.place p
  · obtain ⟨hbatch, hchannel, hoffset⟩ := hiff.1 hsame
    rw [if_pos hsame.symm, if_pos (hsame ▸ hplace), if_pos ⟨hbatch, hchannel⟩, hoffset,
      Function.update_self, Option.getD_some]
  · rw [if_neg (Ne.symm hsame), ← Array.getD_eq_getD_getElem?]
    split
    · next hplane =>
      rw [Function.update_of_ne fun hoffset ↦ hsame (hiff.2 ⟨hplane.1, hplane.2, hoffset⟩)]
      rfl
    · rfl

end Tensor

section

variable {f : Format} {plane : ℕ → Binary f} {cells : List ℕ} {i j : ℕ} {x : Binary f}

/-- An element with a new value takes a bin from its winner if it is the winner, or larger than the
winner, or equal to the winner and before it. -/
def Takes (i : ℕ) (x : Binary f) (j : ℕ) (value : Binary f) : Prop :=
  j = i ∨ value.lt x = true ∨ value.numEq x = true ∧ i < j

instance (i : ℕ) (x : Binary f) (j : ℕ) (value : Binary f) : Decidable (Takes i x j value) :=
  inferInstanceAs (Decidable (_ ∨ _))

private theorem IsFirstMaximum.update_of_takes (h : IsFirstMaximum plane cells j) (hi : i ∈ cells)
    (hx : (plane i).lt x = true) (htakes : Takes i x j (plane j)) :
    IsFirstMaximum (Function.update plane i x) cells i := by
  obtain ⟨hin, hxn⟩ := Binary.isNaN_eq_false_of_lt hx
  rw [Takes, Binary.lt_iff_rank_lt h.number hxn, Binary.numEq_iff_rank_eq h.number hxn] at htakes
  rw [Binary.lt_iff_rank_lt hin hxn] at hx
  have hall := (isFirstMaximum_iff_rank.1 h).2.2
  have hself : Function.update plane i x i = x := Function.update_self _ _ _
  refine isFirstMaximum_iff_rank.2 ⟨hi, by rw [hself]; exact hxn, ?_⟩
  intro k hk hkn
  rw [hself]
  by_cases hki : k = i
  · rw [hki, hself]
    exact ⟨le_rfl, fun hlt ↦ absurd hlt (lt_irrefl _)⟩
  · rw [Function.update_of_ne hki] at hkn ⊢
    obtain ⟨hle, hbefore⟩ := hall k hk hkn
    rcases htakes with rfl | hlt | ⟨heq, hij⟩
    · exact ⟨by omega, fun _ ↦ by omega⟩
    · exact ⟨by omega, fun _ ↦ by omega⟩
    · exact ⟨by omega, fun hki ↦ by have := hbefore (lt_trans hki hij); omega⟩

private theorem IsFirstMaximum.update_of_not_takes (h : IsFirstMaximum plane cells j)
    (hx : x.isNaN = false) (htakes : ¬ Takes i x j (plane j)) :
    IsFirstMaximum (Function.update plane i x) cells j := by
  rw [Takes, Binary.lt_iff_rank_lt h.number hx, Binary.numEq_iff_rank_eq h.number hx] at htakes
  simp only [not_or, not_and, not_lt] at htakes
  obtain ⟨hji, hle, htie⟩ := htakes
  have hkeep : Function.update plane i x j = plane j := Function.update_of_ne hji _ _
  refine isFirstMaximum_iff_rank.2 ⟨h.mem, by rw [hkeep]; exact h.number, ?_⟩
  intro k hk hkn
  rw [hkeep]
  by_cases hki : k = i
  · subst hki
    rw [Function.update_self]
    refine ⟨hle, fun hkj ↦ ?_⟩
    by_contra hnot
    exact absurd (htie (by omega)) (by omega)
  · rw [Function.update_of_ne hki] at hkn ⊢
    exact (isFirstMaximum_iff_rank.1 h).2.2 k hk hkn

/-- A bin that covers a raised element is taken by it, or keeps its winner and its value. -/
theorem pooledBin_update {width : ℕ} {e : BinExtent} (hstop : e.columns.stop ≤ width)
    (hi : i ∈ e.offsets width) (hx : (plane i).lt x = true) :
    ∃ j, (pooledBin plane width e).winner = some j ∧ (pooledBin plane width e).value = plane j ∧
      ((pooledBin (Function.update plane i x) width e).value,
        (pooledBin (Function.update plane i x) width e).winner) =
        if Takes i x j (plane j) then (x, some i) else (plane j, some j) := by
  obtain ⟨hin, hxn⟩ := Binary.isNaN_eq_false_of_lt hx
  have hpooled := isPooled_pooledBin plane hstop
  have hraised := isPooled_pooledBin (Function.update plane i x) hstop
  obtain ⟨j, hj⟩ := hpooled.exists_isFirstMaximum hi hin
  obtain ⟨hvalue, hwinner⟩ := hpooled.eq_of_isFirstMaximum hj
  refine ⟨j, hwinner, hvalue, ?_⟩
  split
  · next htakes =>
    obtain ⟨hvalue', hwinner'⟩ := hraised.eq_of_isFirstMaximum (hj.update_of_takes hi hx htakes)
    rw [hvalue', hwinner', Function.update_self]
  · next htakes =>
    obtain ⟨hvalue', hwinner'⟩ := hraised.eq_of_isFirstMaximum (hj.update_of_not_takes hxn htakes)
    rw [hvalue', hwinner', Function.update_of_ne fun hji ↦ htakes (.inl hji)]

end

/-- A bin of a region covers an element of a map. -/
def Region.CoversElement (α : Type) [Scalar α] (region : Region) (config : PoolConfig) (d : MapDims)
    (q : PooledPosition) (p : MapPosition) : Prop :=
  region.batch = p.batch ∧ q.channel = p.channel ∧
    p.row ∈ (region.binExtent α config d q).rows.toList ∧
    p.column ∈ (region.binExtent α config d q).columns.toList

instance (α : Type) [Scalar α] (region : Region) (config : PoolConfig) (d : MapDims)
    (q : PooledPosition) (p : MapPosition) : Decidable (region.CoversElement α config d q p) :=
  inferInstanceAs (Decidable (_ ∧ _))

/-- A bin covers an element if its channel and the batch entry of its region are those of the
element and it covers the element's position in the plane. -/
theorem Region.coversElement_iff {α : Type} [Scalar α] {region : Region} {config : PoolConfig}
    {d : MapDims} {q : PooledPosition} {p : MapPosition} (hp : d.Contains p) :
    region.CoversElement α config d q p ↔ region.batch = p.batch ∧ q.channel = p.channel ∧
      d.planeOffset p ∈ region.binCells α config d q := by
  rw [mem_binCells_iff, MapDims.planeOffset_div hp.2.2.2, MapDims.planeOffset_mod hp.2.2.2]
  rfl

section

variable {f : Format} {map : Tensor (Binary f)} {d : MapDims} {config : PoolConfig}
  {region : Region} {q : PooledPosition} {p : MapPosition} {x : Binary f}

/-- A bin that does not cover a replaced element keeps its result. -/
theorem pooledCell_set_of_not_covers (hmap : map.shape = d.shape) (hp : d.Contains p)
    (hq : q.channel < d.channels) (h : ¬ region.CoversElement (Binary f) config d q p) :
    pooledCell (map.set p.toList x).data d config region q =
      pooledCell map.data d config region q := by
  rw [Region.coversElement_iff hp] at h
  apply pooledBin_congr
  intro k hk
  have hcell : k ∈ region.binCells (Binary f) config d q := hk
  rw [Tensor.planeValue_set hmap hp x hq (lt_plane_of_mem_binCells hcell)]
  split
  · next hplane =>
    apply Function.update_of_ne
    rintro rfl
    exact h ⟨hplane.1, hplane.2, hcell⟩
  · rfl

/-- A bin that covers a raised element is taken by it, or keeps its winner and its value. -/
theorem pooledCell_set_of_covers (hmap : map.shape = d.shape) (hp : d.Contains p)
    (hq : q.channel < d.channels) (h : region.CoversElement (Binary f) config d q p)
    (hx : (d.planeValue map.data p.batch p.channel (d.planeOffset p)).lt x = true) :
    ∃ j < d.plane, (pooledCell map.data d config region q).winner = some j ∧
      (pooledCell map.data d config region q).value =
        d.planeValue map.data p.batch p.channel j ∧
      ((pooledCell (map.set p.toList x).data d config region q).value,
        (pooledCell (map.set p.toList x).data d config region q).winner) =
        if Takes (d.planeOffset p) x j (d.planeValue map.data p.batch p.channel j) then
          (x, some (d.planeOffset p))
        else (d.planeValue map.data p.batch p.channel j, some j) := by
  obtain ⟨hbatch, hchannel, hcell⟩ := (Region.coversElement_iff hp).1 h
  have hraised : pooledCell (map.set p.toList x).data d config region q =
      pooledBin (Function.update (d.planeValue map.data p.batch p.channel) (d.planeOffset p) x)
        d.width (region.binExtent (Binary f) config d q) := by
    apply pooledBin_congr
    intro k hk
    rw [Tensor.planeValue_set hmap hp x hq (lt_plane_of_mem_binCells hk),
      if_pos ⟨hbatch, hchannel⟩, hbatch, hchannel]
  have hstop : (region.binExtent (Binary f) config d q).columns.stop ≤ d.width :=
    BinAxis.span_stop_le _ _ _
  rw [hraised, pooledCell, hbatch, hchannel]
  obtain ⟨j, hwinner, hvalue, hafter⟩ := pooledBin_update hstop hcell hx
  have hj : j ∈ region.binCells (Binary f) config d q := mem_offsets_of_winner_pooledBin hwinner
  exact ⟨j, lt_plane_of_mem_binCells hj, hwinner, hvalue, hafter⟩

variable {regions : List Region} {output : Tensor (Binary f)} {w : Winners}

private theorem IsPooledMap.pooledCell_of_mem_wonBins
    (h : IsPooledMap map regions config d output w)
    (hp : d.Contains p) (hq : q ∈ w.wonBins regions d p) (hr : regions[q.region]? = some region) :
    region.CoversElement (Binary f) config d q p ∧
      (pooledCell map.data d config region q).winner = some (d.planeOffset p) := by
  obtain ⟨hcontains, hchannel, ⟨_, hregion, hbatch⟩, hwinner⟩ :=
    h.records.mem_wonBins_iff.1 hq
  cases hr.symm.trans hregion
  have hcell := Except.ok.inj ((h.get_eq_ok hcontains hr).symm.trans hwinner)
  exact ⟨(Region.coversElement_iff hp).2 ⟨hbatch, hchannel, mem_offsets_of_winner_pooledBin hcell⟩,
    hcell⟩

end

/-- Suppose an element of a map is replaced by a larger number. Then pooling succeeds again, and a
bin that does not cover the element keeps its value and its winner. A bin that covers it has a
winner, and is taken by the element exactly if the element won it before, exceeds the winner, or
equals the winner and comes before it; otherwise nothing changes. In particular as many bins as the
element is counted for take its new value. -/
theorem pool_raised {f : Format} {map : Tensor (Binary f)} {regions : List Region}
    {config : PoolConfig} {result : Tensor (Binary f) × Winners}
    (h : (pool map regions config).outcome = .ok result) {p : MapPosition} {old x : Binary f}
    (hold : map.get? p.toList = some old) (hx : old.lt x = true) :
    ∃ (d : MapDims) (raised : Tensor (Binary f) × Winners), map.shape = d.shape ∧
      (pool (map.set p.toList x) regions config).outcome = .ok raised ∧
      raised.1.shape = result.1.shape ∧ raised.2.dims = result.2.dims ∧
      raised.2.provenance = result.2.provenance ∧
      (∀ q, result.2.dims.Contains q → ∃ region value winner value' winner',
        regions[q.region]? = some region ∧ result.1.get? q.toList = some value ∧
        result.2.get q.region q.channel q.row q.column = .ok winner ∧
        raised.1.get? q.toList = some value' ∧
        raised.2.get q.region q.channel q.row q.column = .ok winner' ∧
        (¬ region.CoversElement (Binary f) config d q p → value' = value ∧ winner' = winner) ∧
        (region.CoversElement (Binary f) config d q p → ∃ j, winner = some j ∧
          map.get? [p.batch, p.channel, j / d.width, j % d.width] = some value ∧
          (value', winner') = if Takes (d.planeOffset p) x j value then
            (x, some (d.planeOffset p)) else (value, winner))) ∧
      ∃ (counts : Array ℕ) (bins : List PooledPosition),
        result.2.routeCounts regions d = .ok counts ∧ counts[d.place p]? = some bins.length ∧
        bins.Nodup ∧ ∀ q ∈ bins, result.2.dims.Contains q ∧ result.1.get? q.toList = some old ∧
          raised.1.get? q.toList = some x := by
  obtain ⟨output, w⟩ := result
  obtain ⟨d, hd⟩ := isPooledMap_of_outcome_pool h
  have hp := Tensor.contains_of_get? hd.map_shape hold
  have hvalue := Tensor.planeValue_of_get? hd.map_shape hp hold
  rw [← hvalue] at hx
  have hshape : (map.set p.toList x).shape = d.shape := hd.map_shape
  obtain ⟨output', hraised, he⟩ := exists_outcome_pool hshape hd.valid hd.regions_ok hd.fits
  have hsame : (d.winners (map.set p.toList x).data config regions).dims = w.dims :=
    he.dims_eq.trans hd.dims_eq.symm
  refine ⟨d, _, hd.map_shape, hraised, ?_, hsame, ?_, ?_, ?_⟩
  · rw [he.output_shape, hd.output_shape]
  · rw [hd.winners]
    rfl
  · intro q hq
    obtain ⟨region, hr⟩ := hd.exists_region hq
    have hq' := hq
    rw [← hsame] at hq'
    refine ⟨region, _, _, _, _, hr, hd.output_getElem? hq hr, hd.get_eq_ok hq hr,
      he.output_getElem? hq' hr, he.get_eq_ok hq' hr, ?_, ?_⟩
    · intro hcovers
      rw [pooledCell_set_of_not_covers hd.map_shape hp (hd.channel_lt hq) hcovers]
      exact ⟨rfl, rfl⟩
    · intro hcovers
      obtain ⟨j, hj, hwinner, hold, hafter⟩ :=
        pooledCell_set_of_covers hd.map_shape hp (hd.channel_lt hq) hcovers hx
      rw [hafter, hwinner, hold]
      exact ⟨j, rfl, Tensor.get?_plane hd.map_shape hp.1 hp.2.1 hj, rfl⟩
  · refine ⟨_, w.wonBins regions d p, hd.routeCounts_eq_ok, w.wonCounts_getElem? regions hp,
      w.nodup_wonBins regions d p, ?_⟩
    intro q hwon
    have hq := (hd.records.mem_wonBins_iff.1 hwon).1
    obtain ⟨region, hr⟩ := hd.exists_region hq
    have hq' := hq
    rw [← hsame] at hq'
    obtain ⟨hcovers, hself⟩ := hd.pooledCell_of_mem_wonBins hp hwon hr
    obtain ⟨j, -, hwinner, hold, hafter⟩ :=
      pooledCell_set_of_covers hd.map_shape hp (hd.channel_lt hq) hcovers hx
    obtain rfl : j = d.planeOffset p := Option.some.inj (hwinner.symm.trans hself)
    rw [if_pos (.inl rfl)] at hafter
    refine ⟨hq, ?_, ?_⟩
    · rw [hd.output_getElem? hq hr, hold, hvalue]
    · rw [he.output_getElem? hq' hr, (Prod.mk.inj hafter).1]

/-- The second of four elements is raised to the value of the third: it takes the bin over all of
them from the third, and the bin over the last one is left as it was. -/
theorem pool_raised_tie :
    let map : Tensor (Binary .single) :=
      ⟨⟨[1, 1, 1, 4]⟩, #[.ofInt 4, .ofInt 1, .ofInt 5, .ofInt 2], rfl, by decide⟩
    let regions : List Region := [⟨0, .zero, .zero, .ofInt 3, .zero⟩,
      ⟨0, .ofInt 1, .zero, .ofInt 1, .zero⟩, ⟨0, .ofInt 3, .zero, .ofInt 3, .zero⟩]
    let config : PoolConfig := ⟨1, 1, .ofInt 1⟩
    ∃ result raised, (pool map regions config).outcome = .ok result ∧
      result.2.routeCounts regions ⟨1, 1, 1, 4⟩ = .ok #[0, 1, 1, 1] ∧
      map.get? [0, 0, 0, 1] = some (.ofInt 1) ∧
      (.ofInt 1 : Binary .single).lt (.ofInt 5) = true ∧
      (pool (map.set [0, 0, 0, 1] (.ofInt 5)) regions config).outcome = .ok raised ∧
      result.2.get 0 0 0 0 = .ok (some 2) ∧ raised.2.get 0 0 0 0 = .ok (some 1) ∧
      raised.1.get? [0, 0, 0, 0] = some (.ofInt 5) ∧
      raised.2.get 2 0 0 0 = .ok (some 3) ∧ raised.1.get? [2, 0, 0, 0] = some (.ofInt 2) ∧
      ∃ q, result.1.get? q = some (.ofInt 1) ∧ raised.1.get? q = some (.ofInt 5) := by
  intro map regions config
  have hok : ((pool map regions config).outcome.map fun result ↦
      (result.2.dims, result.1.get? [0, 0, 0, 0], result.1.get? [2, 0, 0, 0])) =
      .ok (⟨3, 1, 1, 1⟩, some (.ofInt 5), some (.ofInt 2)) := by
    decide +kernel
  have hok' : ((pool map regions config).outcome.map fun result ↦
      (result.2.routeCounts regions ⟨1, 1, 1, 4⟩, result.2.get 0 0 0 0, result.2.get 2 0 0 0)) =
      .ok (.ok #[0, 1, 1, 1], .ok (some 2), .ok (some 3)) := by
    decide +kernel
  have hold : map.get? (MapPosition.mk 0 0 0 1).toList = some (.ofInt 1) := by decide +kernel
  have hlt : (.ofInt 1 : Binary .single).lt (.ofInt 5) = true := by decide +kernel
  obtain ⟨output, w, h, hread⟩ := exists_outcome_pool_of_map hok
  rw [h] at hok'
  have hread' := Except.ok.inj hok'
  simp only [Prod.mk.injEq] at hread hread'
  obtain ⟨hdims, hvalue, hlast⟩ := hread
  obtain ⟨hcounts, hwinner, hlast'⟩ := hread'
  obtain ⟨d, raised, hmap, hraised, -, -, -, hcells, counts, bins, hd, hcount, -, htake⟩ :=
    pool_raised h hold hlt
  obtain rfl : ⟨1, 1, 1, 4⟩ = d := MapDims.shape_injective hmap
  have hcontains : ∀ i < 3, w.dims.Contains ⟨i, 0, 0, 0⟩ := by
    rw [hdims]
    decide
  -- the bin over all elements
  obtain ⟨region, value, winner, value', winner', hr, hv, hw, hv', hw', -, hcovered⟩ :=
    hcells ⟨0, 0, 0, 0⟩ (hcontains 0 (by decide))
  obtain rfl := Option.some.inj hr
  obtain rfl := Option.some.inj (hvalue.symm.trans hv)
  obtain rfl := Except.ok.inj (hw.symm.trans hwinner)
  obtain ⟨j, hj, -, htaken⟩ := hcovered (by decide +kernel)
  obtain rfl := Option.some.inj hj
  rw [if_pos (by decide +kernel)] at htaken
  obtain ⟨hfive, rfl⟩ := Prod.mk.inj htaken
  rw [hfive] at hv'
  -- the bin over the last element
  obtain ⟨region, value, winner, value', winner', hr, hv, hw, hv'', hw'', hmissed, -⟩ :=
    hcells ⟨2, 0, 0, 0⟩ (hcontains 2 (by decide))
  obtain rfl := Option.some.inj hr
  obtain rfl := Option.some.inj (hlast.symm.trans hv)
  obtain rfl := Except.ok.inj (hw.symm.trans hlast')
  obtain ⟨htwo, rfl⟩ := hmissed (by decide +kernel)
  rw [htwo] at hv''
  -- the bin that the element won
  obtain rfl := Except.ok.inj (hcounts.symm.trans hd)
  have hlength : 0 < bins.length := by
    have : bins.length = 1 := (Option.some.inj hcount).symm
    omega
  obtain ⟨q, hq⟩ := List.exists_mem_of_length_pos hlength
  exact ⟨(output, w), raised, h, hcounts, hold, hlt, hraised, hwinner, hw', hv', hw'', hv'',
    q.toList, (htake q hq).2⟩

end RegionPooling
