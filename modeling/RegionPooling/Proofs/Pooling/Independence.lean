import RegionPooling.Proofs.Pooling.Reference

/-!
# Independence of regions and planes

The results of a channel of a region are formed from the coordinates of the region and from one
plane of the map. Main statement: they are those of pooling a map that holds this plane alone, with
these coordinates alone; and pooling regions in two parts gives the results of the parts one after
the other. Specification §5 says that the results of a region do not depend on other regions, and
§4.2, step 7, that channels are pooled on their own.
-/

namespace RegionPooling

private theorem Shape.occupied_plane_le (m n height width : ℕ) :
    (Shape.mk [1, 1, height, width]).occupied ≤ (Shape.mk [m, n, height, width]).occupied := by
  calc (Shape.mk [1, 1, height, width]).occupied
    _ = (Shape.mk [height, width]).occupied := by
      rw [occupied_cons one_ne_zero, occupied_cons one_ne_zero, Nat.one_mul, Nat.one_mul]
    _ ≤ (Shape.mk [n, height, width]).occupied := occupied_le_cons _ _
    _ ≤ (Shape.mk [m, n, height, width]).occupied := occupied_le_cons _ _

variable {α : Type} [Scalar α]

/-- A map that holds one plane of another map and nothing else. -/
structure Tensor.HoldsPlane (plane map : Tensor α) (d : MapDims) (batch channel : ℕ) : Prop where
  shape : plane.shape = (MapDims.mk 1 1 d.height d.width).shape
  elements : ∀ row < d.height, ∀ column < d.width,
    plane.get? [0, 0, row, column] = map.get? [batch, channel, row, column]

section

variable {map plane : Tensor α} {d : MapDims} {batch channel : ℕ}

private theorem Tensor.planeValue_congr {other : Tensor α} {e : MapDims} {entry index : ℕ}
    (hmap : map.shape = d.shape) (hother : other.shape = e.shape) (hb : batch < d.batch)
    (hc : channel < d.channels) (hentry : entry < e.batch) (hindex : index < e.channels)
    (hheight : d.height = e.height) (hwidth : d.width = e.width)
    (h : ∀ row < d.height, ∀ column < d.width,
      other.get? [entry, index, row, column] = map.get? [batch, channel, row, column])
    {k : ℕ} (hk : k < d.plane) :
    d.planeValue map.data batch channel k = e.planeValue other.data entry index k := by
  have hk' : k < e.plane := by
    rw [MapDims.plane, ← hheight, ← hwidth]
    exact hk
  have hread := Tensor.get?_plane hother hentry hindex hk'
  rw [← hwidth, h _ (MapDims.div_width_lt hk) _ (Nat.mod_lt _ (MapDims.width_pos hk)),
    Tensor.get?_plane hmap hb hc hk] at hread
  exact Option.some.inj hread

/-- Every plane of a map can be held alone. -/
theorem Tensor.exists_holdsPlane (hmap : map.shape = d.shape) (hb : batch < d.batch)
    (hc : channel < d.channels) : ∃ plane : Tensor α, plane.HoldsPlane map d batch channel := by
  have hsize : ((List.range d.plane).map (d.planeValue map.data batch channel)).toArray.size =
      (MapDims.mk 1 1 d.height d.width).shape.count := by
    simp [MapDims.count_shape, MapDims.plane]
  have hfits : (MapDims.mk 1 1 d.height d.width).shape.occupied ≤ storageLimit :=
    le_trans (Shape.occupied_plane_le _ _ _ _) (Tensor.occupied_le hmap)
  refine ⟨⟨_, _, hsize, hfits⟩, rfl, ?_⟩
  intro row hrow column hcolumn
  have hk : row * d.width + column < d.plane := blockPlace_lt hrow hcolumn
  have hoffset : d.planeOffset ⟨batch, channel, row, column⟩ = row * d.width + column := rfl
  have hread := Tensor.get?_plane hmap hb hc hk
  rw [← hoffset, MapDims.planeOffset_div hcolumn, MapDims.planeOffset_mod hcolumn, hoffset] at hread
  rw [hread]
  have hcontains : (MapDims.mk 1 1 d.height d.width).Contains ⟨0, 0, row, column⟩ :=
    ⟨one_pos, one_pos, hrow, hcolumn⟩
  refine (Tensor.get?_map rfl hcontains).trans ?_
  have hplace : (MapDims.mk 1 1 d.height d.width).place ⟨0, 0, row, column⟩ =
      row * d.width + column := by
    simp only [MapDims.place, MapDims.planeStart, MapDims.planeOffset, Nat.zero_mul, Nat.zero_add]
  simp [hplace, hk]

end

section

variable {d e : MapDims} {config : PoolConfig} {region twin : Region}

private theorem Region.binExtent_congr {q r : PooledPosition} (hheight : d.height = e.height)
    (hwidth : d.width = e.width) (hcoordinates : region.coordinates = twin.coordinates)
    (hrow : q.row = r.row) (hcolumn : q.column = r.column) :
    region.binExtent α config d q = twin.binExtent α config e r := by
  obtain ⟨batch, x1, y1, x2, y2⟩ := region
  obtain ⟨batch', x1', y1', x2', y2'⟩ := twin
  simp only [coordinates, List.cons.injEq, and_true] at hcoordinates
  obtain ⟨rfl, rfl, rfl, rfl⟩ := hcoordinates
  unfold binExtent
  rw [hheight, hwidth, hrow, hcolumn]
  rfl

/-- The result of a bin is formed from the coordinates of its region and one plane. -/
theorem pooledCell_congr {data other : Array α} {q r : PooledPosition}
    (hheight : d.height = e.height) (hwidth : d.width = e.width)
    (hcoordinates : region.coordinates = twin.coordinates) (hrow : q.row = r.row)
    (hcolumn : q.column = r.column)
    (hplane : ∀ k < d.plane, d.planeValue data region.batch q.channel k =
      e.planeValue other twin.batch r.channel k) :
    pooledCell data d config region q = pooledCell other e config twin r := by
  unfold pooledCell
  rw [← Region.binExtent_congr hheight hwidth hcoordinates hrow hcolumn, ← hwidth]
  exact pooledBin_congr fun k hk ↦ hplane k (lt_plane_of_mem_binCells hk)

/-- One channel of a region in a pooled result has the values and the winners of a channel of a
region in another one. -/
def SlabsAgree (config : PoolConfig) (first second : Tensor α × Winners)
    (index channel place other : ℕ) : Prop :=
  ∀ row < config.height, ∀ column < config.width, ∃ value winner,
    first.1.get? [index, channel, row, column] = some value ∧
    second.1.get? [place, other, row, column] = some value ∧
    first.2.get index channel row column = .ok winner ∧
    second.2.get place other row column = .ok winner

/-- Two poolings agree on a channel of a region if the regions have the same coordinates and the
planes hold the same elements, whatever the other regions and planes are. -/
theorem IsPooledMap.slabsAgree {map source : Tensor α} {regions twins : List Region}
    {first second : Tensor α × Winners} (h : IsPooledMap map regions config d first.1 first.2)
    (h' : IsPooledMap source twins config e second.1 second.2) {index channel place other : ℕ}
    (hregion : regions[index]? = some region) (htwin : twins[place]? = some twin)
    (hchannel : channel < d.channels) (hother : other < e.channels)
    (hheight : d.height = e.height) (hwidth : d.width = e.width)
    (hcoordinates : region.coordinates = twin.coordinates)
    (hplane : ∀ k < d.plane, d.planeValue map.data region.batch channel k =
      e.planeValue source.data twin.batch other k) :
    SlabsAgree config first second index channel place other := by
  intro row hrow column hcolumn
  have hq := h.contains_bin hregion hchannel hrow hcolumn
  have hr := h'.contains_bin htwin hother hrow hcolumn
  have hsame : pooledCell map.data d config region ⟨index, channel, row, column⟩ =
      pooledCell source.data e config twin ⟨place, other, row, column⟩ :=
    pooledCell_congr hheight hwidth hcoordinates rfl rfl hplane
  refine ⟨_, _, h.output_getElem? hq hregion, ?_, h.get_eq_ok hq hregion, ?_⟩
  · rw [hsame]
    exact h'.output_getElem? hr htwin
  · rw [hsame]
    exact h'.get_eq_ok hr htwin

end

section

variable {d : MapDims} {config : PoolConfig}

/-- Results of all bins of a region, in order. -/
def regionResults (data : Array α) (d : MapDims) (config : PoolConfig) (region : Region) :
    List (BinResult α) :=
  ((d.pooled config 1).regionPositions 0).map (pooledCell data d config region)

private theorem map_resultAt_positions (data : Array α) (regions : List Region) :
    (d.pooled config regions.length).positions.map (resultAt data d config regions) =
      regions.flatMap (regionResults data d config) := by
  have heach : ∀ i region, regions[i]? = some region → regionResults data d config region =
      ((d.pooled config regions.length).regionPositions i).map
        (resultAt data d config regions) := by
    intro i region hi
    rw [← PooledDims.map_regionPositions, List.map_map]
    apply List.map_congr_left
    intro q _
    simp only [Function.comp_apply, resultAt, hi]
    rfl
  rw [PooledDims.positions, List.map_flatMap]
  refine (flatMap_zipIdx_eq_range (g := fun entry ↦ regionResults data d config entry.1)
    heach).symm.trans ?_
  conv_rhs => rw [← List.zipIdx_map_fst 0 regions, List.flatMap_map]

private theorem MapDims.occupied_pooled_le {m n : ℕ} (h : m ≤ n) :
    (d.pooled config m).shape.occupied ≤ (d.pooled config n).shape.occupied := by
  by_cases hm : m = 0
  · rw [hm]
    exact Shape.occupied_le_cons n _
  · have hn : n ≠ 0 := by omega
    calc (d.pooled config m).shape.occupied
      _ = m * (Shape.mk [d.channels, config.height, config.width]).occupied :=
        Shape.occupied_cons hm _
      _ ≤ n * (Shape.mk [d.channels, config.height, config.width]).occupied :=
        Nat.mul_le_mul_right _ h
      _ = (d.pooled config n).shape.occupied := (Shape.occupied_cons hn _).symm

variable {map output : Tensor α} {before after : List Region} {w : Winners}

/-- If regions are pooled, so is each part of them, and the results of the parts follow each other.
-/
theorem IsPooledMap.append (h : IsPooledMap map (before ++ after) config d output w) :
    ∃ first second : Tensor α × Winners, (pool map before config).outcome = .ok first ∧
      (pool map after config).outcome = .ok second ∧
      IsPooledMap map before config d first.1 first.2 ∧
      IsPooledMap map after config d second.1 second.2 ∧
      output.data = first.1.data ++ second.1.data ∧ w.cells = first.2.cells ++ second.2.cells := by
  obtain ⟨hbefore, hafter⟩ := List.forall_mem_append.1 h.regions_ok
  have hfits := h.fits
  rw [List.length_append] at hfits
  obtain ⟨first, hfirst, hd⟩ := exists_outcome_pool h.map_shape h.valid hbefore
    (le_trans (MapDims.occupied_pooled_le (Nat.le_add_right _ _)) hfits)
  obtain ⟨second, hsecond, he⟩ := exists_outcome_pool h.map_shape h.valid hafter
    (le_trans (MapDims.occupied_pooled_le (Nat.le_add_left _ _)) hfits)
  refine ⟨(first, _), (second, _), hfirst, hsecond, hd, he, ?_, ?_⟩
  · rw [h.output_data, hd.output_data, he.output_data, map_resultAt_positions,
      map_resultAt_positions, map_resultAt_positions, List.flatMap_append, List.map_append,
      List.append_toArray]
  · rw [h.winners]
    unfold MapDims.winners
    dsimp only
    rw [map_resultAt_positions, map_resultAt_positions, map_resultAt_positions,
      List.flatMap_append, List.map_append, List.append_toArray]

end

/-- Pooling gives for a channel of a region exactly what it gives for a map that holds the channel's
plane of the region's batch entry alone, with the coordinates of the region alone. Hence two
poolings agree wherever coordinates and planes do, whatever the other regions, their order and the
other planes are. Pooling regions in two parts gives the results of the parts one after the other.
-/
theorem pool_independent {map : Tensor α} {regions : List Region} {config : PoolConfig}
    {result : Tensor α × Winners} (h : (pool map regions config).outcome = .ok result) :
    ∃ d : MapDims, map.shape = d.shape ∧ result.2.dims = d.pooled config regions.length ∧
      result.1.shape = result.2.dims.shape ∧
      (∀ index region channel, regions[index]? = some region → channel < d.channels →
        (∃ plane : Tensor α, plane.HoldsPlane map d region.batch channel) ∧
        ∀ plane : Tensor α, plane.HoldsPlane map d region.batch channel →
          ∃ alone, (pool plane [{ region with batch := 0 }] config).outcome = .ok alone ∧
            alone.2.dims = ⟨1, 1, config.height, config.width⟩ ∧
            alone.1.shape = alone.2.dims.shape ∧
            SlabsAgree config result alone index channel 0 0) ∧
      (∀ (source : Tensor α) (e : MapDims) twins second, source.shape = e.shape →
        e.height = d.height → e.width = d.width →
        (pool source twins config).outcome = .ok second →
        ∀ index region channel place twin other,
          regions[index]? = some region → twins[place]? = some twin →
          channel < d.channels → other < e.channels → region.coordinates = twin.coordinates →
          (∀ row < d.height, ∀ column < d.width,
            source.get? [twin.batch, other, row, column] =
              map.get? [region.batch, channel, row, column]) →
          SlabsAgree config result second index channel place other) ∧
      ∀ before after, regions = before ++ after → ∃ first second : Tensor α × Winners,
        (pool map before config).outcome = .ok first ∧
        (pool map after config).outcome = .ok second ∧
        result.1.data = first.1.data ++ second.1.data ∧
        result.2.cells = first.2.cells ++ second.2.cells := by
  obtain ⟨d, hd⟩ := isPooledMap_of_outcome_pool h
  refine ⟨d, hd.map_shape, hd.dims_eq, ?_, ?_, ?_, ?_⟩
  · rw [hd.dims_eq, hd.output_shape]
  · intro index region channel hregion hchannel
    obtain ⟨hbatch, hfinite⟩ := hd.regions_ok region (List.mem_of_getElem? hregion)
    refine ⟨Tensor.exists_holdsPlane hd.map_shape hbatch hchannel, ?_⟩
    intro plane hplane
    let e : MapDims := ⟨1, 1, d.height, d.width⟩
    let twin : Region := { region with batch := 0 }
    have htwin : ∀ r ∈ [twin], r.batch < e.batch ∧ r.isFinite = true :=
      List.forall_mem_singleton.2 ⟨one_pos, hfinite⟩
    have hfits : (e.pooled config 1).shape.occupied ≤ storageLimit :=
      le_trans (Shape.occupied_plane_le _ _ _ _) hd.fits
    obtain ⟨output, halone, he⟩ := exists_outcome_pool hplane.shape hd.valid htwin hfits
    let alone : Tensor α × Winners := (output, e.winners plane.data config [twin])
    have he' : IsPooledMap plane [twin] config e alone.1 alone.2 := he
    have htwin' : [twin][0]? = some twin := rfl
    refine ⟨alone, halone, he.dims_eq, ?_, ?_⟩
    · rw [he'.dims_eq, he'.output_shape]
    · exact hd.slabsAgree he' hregion htwin' hchannel one_pos rfl rfl rfl
        fun k hk ↦ Tensor.planeValue_congr hd.map_shape hplane.shape hbatch hchannel one_pos
          one_pos rfl rfl hplane.elements hk
  · intro source e twins second hsource hheight hwidth hsecond index region channel place twin other
      hregion htwin hchannel hother hcoordinates hsame
    have he := IsPooledMap.of_outcome_pool hsource hsecond
    have hbatch := (hd.regions_ok region (List.mem_of_getElem? hregion)).1
    have hentry := (he.regions_ok twin (List.mem_of_getElem? htwin)).1
    exact hd.slabsAgree he hregion htwin hchannel hother hheight.symm hwidth.symm hcoordinates
      fun k hk ↦ Tensor.planeValue_congr hd.map_shape hsource hbatch hchannel hentry hother
        hheight.symm hwidth.symm hsame hk
  · rintro before after rfl
    obtain ⟨first, second, hfirst, hsecond, -, -, houtput, hcells⟩ := hd.append
    exact ⟨first, second, hfirst, hsecond, houtput, hcells⟩

/-- Two regions on a map of two batch entries with two channels each: the second channel of the
first region is that of its plane alone, and that of the same region listed second. -/
theorem pool_independent_second_entry :
    let map : Tensor (Binary .single) :=
      ⟨⟨[2, 2, 1, 2]⟩, #[.ofInt 1, .ofInt 2, .ofInt 3, .ofInt 4, .ofInt 8, .ofInt 7, .ofInt 6,
        .ofInt 5], rfl, by decide⟩
    let region : Region := ⟨1, .zero, .zero, .ofInt 1, .zero⟩
    let other : Region := ⟨0, .ofInt 1, .zero, .ofInt 1, .zero⟩
    let config : PoolConfig := ⟨1, 1, .ofInt 1⟩
    ∃ result, (pool map [region, other] config).outcome = .ok result ∧
      (∃ plane alone, plane.HoldsPlane map ⟨2, 2, 1, 2⟩ 1 1 ∧
        (pool plane [{ region with batch := 0 }] config).outcome = .ok alone ∧
        alone.1.get? [0, 0, 0, 0] = some (.ofInt 6) ∧ alone.2.get 0 0 0 0 = .ok (some 0)) ∧
      (∃ swapped, (pool map [other, region] config).outcome = .ok swapped ∧
        SlabsAgree config result swapped 0 1 1 1) ∧
      ∃ first second, (pool map [region] config).outcome = .ok first ∧
        (pool map [other] config).outcome = .ok second ∧
        result.1.data = first.1.data ++ second.1.data ∧
        result.2.cells = first.2.cells ++ second.2.cells := by
  intro map region other config
  have hok : ((pool map [region, other] config).outcome.map fun result ↦
      (result.1.get? [0, 1, 0, 0], result.2.get 0 1 0 0)) =
      .ok (some (.ofInt 6), .ok (some 0)) := by
    decide +kernel
  have hswapped : ((pool map [other, region] config).outcome.map fun _ ↦ ()) = .ok () := by
    decide +kernel
  obtain ⟨output, w, h, hread⟩ := exists_outcome_pool_of_map hok
  obtain ⟨hvalue, hwinner⟩ := Prod.mk.inj hread
  obtain ⟨swapped, w', h', -⟩ := exists_outcome_pool_of_map hswapped
  obtain ⟨d, hmap, -, -, halone, hagree, hparts⟩ := pool_independent h
  obtain rfl : ⟨2, 2, 1, 2⟩ = d := MapDims.shape_injective hmap
  obtain ⟨⟨plane, hplane⟩, hall⟩ := halone 0 region 1 rfl (by decide)
  obtain ⟨alone, hpool, -, -, hcells⟩ := hall plane hplane
  obtain ⟨value, winner, hv, hv', hw, hw'⟩ := hcells 0 one_pos 0 one_pos
  rw [Option.some.inj (hv.symm.trans hvalue)] at hv'
  rw [Except.ok.inj (hw.symm.trans hwinner)] at hw'
  have hsame := hagree map ⟨2, 2, 1, 2⟩ [other, region] (swapped, w') rfl rfl rfl h' 0 region 1 1
    region 1 rfl rfl (by decide) (by decide) rfl fun _ _ _ _ ↦ rfl
  exact ⟨(output, w), h, ⟨plane, alone, hplane, hpool, hv', hw'⟩, ⟨(swapped, w'), h', hsame⟩,
    hparts [region] [other] rfl⟩

end RegionPooling
