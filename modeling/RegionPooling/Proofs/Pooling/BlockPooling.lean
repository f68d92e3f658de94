import RegionPooling.Proofs.Bins.Blocks
import RegionPooling.Proofs.Pooling.Reference

/-!
# Pooling whole blocks

If the numbers of bins divide the sides of a box on the map, then the bins of the region are blocks
of equal size, one next to the other. Main statement: each cell of the box lies in one bin alone and
no other cell lies in any, each bin holds the first maximum of its block, and an element wins one
bin of the region at most. With one cell in each block the result is the part of the map inside the
box.
-/

namespace RegionPooling

/-- A box lies on a map and is divided into bins of `k` rows and `l` columns each. -/
structure Box.InBlocks (f : Format) (b : Box) (config : PoolConfig) (d : MapDims) (k l : ℕ) :
    Prop where
  rows : b.rows.InBlocks f config.height k d.height
  columns : b.columns.InBlocks f config.width l d.width

/-- Cells of one of the blocks of `k` rows and `l` columns that lie next to each other from the
first corner of a box on. -/
def Box.block (b : Box) (k l row column : ℕ) : BinExtent :=
  ⟨b.rows.block k row, b.columns.block l column⟩

/-- Cells of a rectangle. -/
def BinExtent.Holds (e : BinExtent) (y x : ℕ) : Prop := y ∈ e.rows.toList ∧ x ∈ e.columns.toList

section

variable {f : Format} {region : Region} {config : PoolConfig} {d : MapDims} {k l : ℕ}

namespace BinGrid

/-- The bins of a box that is divided into blocks are the blocks. -/
theorem extent_eq_block
    (hblocks : (region.box (Binary f) config.scale).InBlocks f config d k l)
    (hfits : d.shape.occupied ≤ storageLimit) {row column : ℕ} (hrow : row < config.height)
    (hcolumn : column < config.width) :
    (ofRegion region config : BinGrid (Binary f)).extent d.height d.width row column =
      (region.box (Binary f) config.scale).block k l row column := by
  obtain ⟨hheight, hwidth⟩ := MapDims.sides_le_storageLimit hfits
  exact congrArg₂ BinExtent.mk (BinAxis.span_eq_block hblocks.rows hheight hrow)
    (BinAxis.span_eq_block hblocks.columns hwidth hcolumn)

/-- Each cell of a box that is divided into blocks lies in one bin alone. -/
theorem existsUnique_holds (hblocks : (region.box (Binary f) config.scale).InBlocks f config d k l)
    (hfits : d.shape.occupied ≤ storageLimit) {y x : ℕ}
    (hcell : (region.box (Binary f) config.scale).Counts y x) :
    ∃! bin : ℕ × ℕ, bin.1 < config.height ∧ bin.2 < config.width ∧
      ((ofRegion region config : BinGrid (Binary f)).extent d.height d.width bin.1 bin.2).Holds
        y x := by
  obtain ⟨hheight, hwidth⟩ := MapDims.sides_le_storageLimit hfits
  obtain ⟨row, ⟨hrow, hy⟩, honly⟩ := BinAxis.existsUnique_mem_span hblocks.rows hheight hcell.1
  obtain ⟨column, ⟨hcolumn, hx⟩, honly'⟩ :=
    BinAxis.existsUnique_mem_span hblocks.columns hwidth hcell.2
  refine ⟨(row, column), ⟨hrow, hcolumn, hy, hx⟩, ?_⟩
  rintro ⟨row', column'⟩ ⟨hrow', hcolumn', hy', hx'⟩
  rw [honly row' ⟨hrow', hy'⟩, honly' column' ⟨hcolumn', hx'⟩]

private theorem counts_of_holds
    (hblocks : (region.box (Binary f) config.scale).InBlocks f config d k l)
    (hfits : d.shape.occupied ≤ storageLimit) {row column y x : ℕ} (hrow : row < config.height)
    (hcolumn : column < config.width)
    (hcell : ((ofRegion region config : BinGrid (Binary f)).extent d.height d.width row
      column).Holds y x) :
    (region.box (Binary f) config.scale).Counts y x := by
  obtain ⟨hheight, hwidth⟩ := MapDims.sides_le_storageLimit hfits
  exact ⟨BinAxis.counts_of_mem_span hblocks.rows hheight hrow hcell.1,
    BinAxis.counts_of_mem_span hblocks.columns hwidth hcolumn hcell.2⟩

end BinGrid

private theorem Region.eq_of_mem_binCells
    (hblocks : (region.box (Binary f) config.scale).InBlocks f config d k l)
    (hfits : d.shape.occupied ≤ storageLimit) {q r : PooledPosition} {offset : ℕ}
    (hq : q.row < config.height ∧ q.column < config.width)
    (hr : r.row < config.height ∧ r.column < config.width)
    (hmem : offset ∈ region.binCells (Binary f) config d q)
    (hmem' : offset ∈ region.binCells (Binary f) config d r) :
    q.row = r.row ∧ q.column = r.column := by
  have hcell := BinGrid.counts_of_holds hblocks hfits hq.1 hq.2 (mem_binExtent_of_mem_binCells hmem)
  obtain ⟨place, -, honly⟩ := BinGrid.existsUnique_holds hblocks hfits hcell
  have hplace := honly (q.row, q.column) ⟨hq.1, hq.2, mem_binExtent_of_mem_binCells hmem⟩
  have hplace' := honly (r.row, r.column) ⟨hr.1, hr.2, mem_binExtent_of_mem_binCells hmem'⟩
  exact Prod.mk.inj (hplace.trans hplace'.symm)

private theorem Box.offsets_block_one (b : Box) (row column width : ℕ) :
    (b.block 1 1 row column).offsets width =
      [(b.rows.first.toNat + row) * width + (b.columns.first.toNat + column)] := by
  rw [block, BinExtent.offsets, Interval.toList_block_one, Interval.toList_block_one]
  rfl

private theorem IsPooled.of_singleton {plane : ℕ → Binary f} {n : ℕ} {value : Binary f}
    {winner : Option ℕ} (h : IsPooled plane [n] value winner) :
    value = plane n ∧ winner = if (plane n).isNaN then none else some n := by
  cases h with
  | vacant hnil => cases hnil
  | undefined _ hnan =>
    have hn := hnan n List.mem_cons_self
    rw [if_pos hn]
    refine ⟨?_, rfl⟩
    cases hx : plane n with
    | nan => rfl
    | infinity s => rw [hx] at hn; cases hn
    | finite s u hu => rw [hx] at hn; cases hn
  | won i hi _ =>
    obtain rfl := List.mem_singleton.1 hi.mem
    rw [hi.number]
    exact ⟨rfl, rfl⟩

end

namespace IsPooledMap

variable {f : Format} {map output : Tensor (Binary f)} {regions : List Region} {region : Region}
  {config : PoolConfig} {d : MapDims} {w : Winners} {index channel row column k l : ℕ}

/-- The bins of a region that is divided into blocks hold the first maxima of the blocks. -/
theorem isPooled_block (h : IsPooledMap map regions config d output w)
    (hregion : regions[index]? = some region)
    (hblocks : (region.box (Binary f) config.scale).InBlocks f config d k l)
    (hchannel : channel < d.channels) (hrow : row < config.height)
    (hcolumn : column < config.width) :
    ∃ plane value winner,
      (∀ k < d.plane,
        map.get? [region.batch, channel, k / d.width, k % d.width] = some (plane k)) ∧
      output.get? [index, channel, row, column] = some value ∧
      w.get index channel row column = .ok winner ∧
      IsPooled plane
        (((region.box (Binary f) config.scale).block k l row column).offsets d.width) value
        winner := by
  rw [← BinGrid.extent_eq_block hblocks (Tensor.occupied_le h.map_shape) hrow hcolumn]
  exact h.isPooled (q := ⟨index, channel, row, column⟩)
    (h.contains_bin hregion hchannel hrow hcolumn) hregion

/-- Two bins of a region that is divided into blocks do not have the same winner in one channel. -/
theorem eq_of_winner (h : IsPooledMap map regions config d output w)
    (hregion : regions[index]? = some region)
    (hblocks : (region.box (Binary f) config.scale).InBlocks f config d k l)
    {row' column' offset : ℕ} (hwinner : w.get index channel row column = .ok (some offset))
    (hwinner' : w.get index channel row' column' = .ok (some offset)) :
    row = row' ∧ column = column' := by
  have hmem {q : PooledPosition} (hq : regions[q.region]? = some region)
      (hwon : w.get q.region q.channel q.row q.column = .ok (some offset)) :
      (q.row < config.height ∧ q.column < config.width) ∧
        offset ∈ region.binCells (Binary f) config d q := by
    have hcontains := Winners.contains_of_get hwon
    rw [h.get_eq_ok hcontains hq] at hwon
    rw [h.dims_eq] at hcontains
    exact ⟨hcontains.2.2, mem_offsets_of_winner_pooledBin (Except.ok.inj hwon)⟩
  obtain ⟨hbin, hoffset⟩ := hmem (q := ⟨index, channel, row, column⟩) hregion hwinner
  obtain ⟨hbin', hoffset'⟩ := hmem (q := ⟨index, channel, row', column'⟩) hregion hwinner'
  exact Region.eq_of_mem_binCells hblocks (Tensor.occupied_le h.map_shape) hbin hbin' hoffset
    hoffset'

/-- A region that is divided into single cells is cut out of the map. -/
theorem crop (h : IsPooledMap map regions config d output w)
    (hregion : regions[index]? = some region)
    (hblocks : (region.box (Binary f) config.scale).InBlocks f config d 1 1)
    (hchannel : channel < d.channels) (hrow : row < config.height)
    (hcolumn : column < config.width) :
    let y := (region.box (Binary f) config.scale).rows.first.toNat + row
    let x := (region.box (Binary f) config.scale).columns.first.toNat + column
    ∃ value, map.get? [region.batch, channel, y, x] = some value ∧
      output.get? [index, channel, row, column] = some value ∧
      w.get index channel row column =
        .ok (if value.isNaN then none else some (y * d.width + x)) := by
  intro y x
  obtain ⟨plane, value, winner, hplane, hvalue, hwinner, hpooled⟩ :=
    h.isPooled_block hregion hblocks hchannel hrow hcolumn
  rw [Box.offsets_block_one] at hpooled
  obtain ⟨rfl, rfl⟩ := hpooled.of_singleton
  -- the cell of the bin is one of the box and so of the map
  have hy : y < d.height := hblocks.rows.add_lt_limit (by rwa [Nat.mul_one])
  have hx : x < d.width := hblocks.columns.add_lt_limit (by rwa [Nat.mul_one])
  have hread := hplane (y * d.width + x) (blockPlace_lt hy hx)
  have hoffset : d.planeOffset ⟨region.batch, channel, y, x⟩ = y * d.width + x := rfl
  rw [← hoffset, MapDims.planeOffset_div hx, MapDims.planeOffset_mod hx, hoffset] at hread
  exact ⟨_, hread, hvalue, hwinner⟩

end IsPooledMap

section

variable {f : Format} {map : Tensor (Binary f)} {d : MapDims} {regions : List Region}
  {config : PoolConfig} {index k l : ℕ} {region : Region}

/-- Let the box of a region lie on the map and consist of as many blocks of `k` rows and `l` columns
as there are bins, neither side being longer than a full significand of the format. Then the bins of
the region are the blocks. Each cell of the box lies in one bin alone and no other cell in any, each
bin holds the first maximum of its block, and no element wins two bins of the region in a channel.
With single cells for blocks the result is the part of the map inside the box, where a cell that
holds no number has no winner. Inputs in order are pooled if the result fits into storage. -/
theorem pool_blocks (hmap : map.shape = d.shape) (hvalid : config.validate = .ok ())
    (hregions : ∀ r ∈ regions, r.batch < d.batch ∧ r.isFinite = true)
    (hregion : regions[index]? = some region)
    (hblocks : (region.box (Binary f) config.scale).InBlocks f config d k l) :
    let box := region.box (Binary f) config.scale
    let top := box.rows.first.toNat
    let left := box.columns.first.toNat
    let bin := (BinGrid.ofRegion region config : BinGrid (Binary f)).extent d.height d.width
    (∀ row < config.height, ∀ column < config.width, bin row column =
      ⟨⟨top + row * k, top + (row + 1) * k⟩, ⟨left + column * l, left + (column + 1) * l⟩⟩) ∧
    (∀ y x : ℕ, box.Counts y x → ∃! place : ℕ × ℕ,
      place.1 < config.height ∧ place.2 < config.width ∧ (bin place.1 place.2).Holds y x) ∧
    (∀ row < config.height, ∀ column < config.width, ∀ y x : ℕ,
      (bin row column).Holds y x → box.Counts y x) ∧
    ((∃ result, (pool map regions config).outcome = .ok result) ↔
      (d.pooled config regions.length).shape.occupied ≤ storageLimit) ∧
    ∀ output w, (pool map regions config).outcome = .ok (output, w) →
      (∀ channel < d.channels, ∀ row < config.height, ∀ column < config.width,
        ∃ plane value winner,
          (∀ n < d.plane,
            map.get? [region.batch, channel, n / d.width, n % d.width] = some (plane n)) ∧
          output.get? [index, channel, row, column] = some value ∧
          w.get index channel row column = .ok winner ∧
          IsPooled plane ((bin row column).offsets d.width) value winner) ∧
      (∀ channel row column row' column' offset,
        w.get index channel row column = .ok (some offset) →
        w.get index channel row' column' = .ok (some offset) → row = row' ∧ column = column') ∧
      (k = 1 → l = 1 →
        ∀ channel < d.channels, ∀ row < config.height, ∀ column < config.width,
          ∃ value, map.get? [region.batch, channel, top + row, left + column] = some value ∧
            output.get? [index, channel, row, column] = some value ∧
            w.get index channel row column = .ok (if value.isNaN then none
              else some ((top + row) * d.width + (left + column)))) := by
  intro box top left bin
  have hfits : d.shape.occupied ≤ storageLimit := Tensor.occupied_le hmap
  have hbin : ∀ row < config.height, ∀ column < config.width,
      bin row column = box.block k l row column :=
    fun row hrow column hcolumn ↦ BinGrid.extent_eq_block hblocks hfits hrow hcolumn
  refine ⟨hbin, fun y x hcell ↦ BinGrid.existsUnique_holds hblocks hfits hcell,
    fun row hrow column hcolumn y x hcell ↦
      BinGrid.counts_of_holds hblocks hfits hrow hcolumn hcell,
    exists_outcome_pool_iff hmap hvalid hregions, ?_⟩
  intro output w hpool
  have h := IsPooledMap.of_outcome_pool hmap hpool
  refine ⟨?_, ?_, ?_⟩
  · intro channel hchannel row hrow column hcolumn
    rw [hbin row hrow column hcolumn]
    exact h.isPooled_block hregion hblocks hchannel hrow hcolumn
  · intro channel row column row' column' offset hwinner hwinner'
    exact h.eq_of_winner hregion hblocks hwinner hwinner'
  · rintro rfl rfl channel hchannel row hrow column hcolumn
    exact h.crop hregion hblocks hchannel hrow hcolumn

/-- Under the same configuration, a region of four cells with a not-a-number among them is cut out
of the map, and a region of sixteen cells is pooled in blocks of four. -/
theorem pool_blocks_two_by_two :
    let map : Tensor (Binary .single) :=
      ⟨⟨[1, 1, 4, 4]⟩, #[.ofInt 1, .ofInt 2, .ofInt 3, .ofInt 4, .ofInt 5, .nan, .ofInt 7, .ofInt 8,
        .ofInt 9, .ofInt 10, .ofInt 11, .ofInt 12, .ofInt 13, .ofInt 14, .ofInt 15, .ofInt 16],
        rfl, by decide⟩
    let inner : Region := ⟨0, .ofInt 1, .ofInt 1, .ofInt 2, .ofInt 2⟩
    let whole : Region := ⟨0, .zero, .zero, .ofInt 3, .ofInt 3⟩
    let config : PoolConfig := ⟨2, 2, .ofInt 1⟩
    let grid : BinGrid (Binary .single) := .ofRegion whole config
    grid.extent 4 4 1 0 = ⟨⟨2, 4⟩, ⟨0, 2⟩⟩ ∧
      ∃ output w, (pool map [inner, whole] config).outcome = .ok (output, w) ∧
        w.cells = #[none, some 6, some 9, some 10, some 4, some 7, some 13, some 15] ∧
        (∀ row < 2, ∀ column < 2, ∃ value,
          map.get? [0, 0, 1 + row, 1 + column] = some value ∧
          output.get? [0, 0, row, column] = some value ∧ w.get 0 0 row column =
            .ok (if value.isNaN then none else some ((1 + row) * 4 + (1 + column)))) ∧
        ∀ row column row' column' offset, w.get 1 0 row column = .ok (some offset) →
          w.get 1 0 row' column' = .ok (some offset) → row = row' ∧ column = column' := by
  intro map inner whole config grid
  have hmap : map.shape = MapDims.shape ⟨1, 1, 4, 4⟩ := rfl
  have hvalid : config.validate = .ok () := by decide +kernel
  have hregions : ∀ r ∈ [inner, whole], r.batch < 1 ∧ r.isFinite = true := by decide +kernel
  have hinner :
      (inner.box (Binary .single) config.scale).InBlocks .single config ⟨1, 1, 4, 4⟩ 1 1 :=
    ⟨⟨by decide +kernel, by decide +kernel, by decide +kernel, by decide +kernel⟩,
      by decide +kernel, by decide +kernel, by decide +kernel, by decide +kernel⟩
  have hwhole :
      (whole.box (Binary .single) config.scale).InBlocks .single config ⟨1, 1, 4, 4⟩ 2 2 :=
    ⟨⟨by decide +kernel, by decide +kernel, by decide +kernel, by decide +kernel⟩,
      by decide +kernel, by decide +kernel, by decide +kernel, by decide +kernel⟩
  have hok : ((pool map [inner, whole] config).outcome.map fun result ↦ result.2.cells) =
      .ok #[none, some 6, some 9, some 10, some 4, some 7, some 13, some 15] := by
    decide +kernel
  obtain ⟨output, w, hpool, hcells⟩ := exists_outcome_pool_of_map hok
  have hfirst : [inner, whole][0]? = some inner := rfl
  obtain ⟨-, -, -, -, hcrop⟩ := pool_blocks hmap hvalid hregions hfirst hinner
  obtain ⟨-, -, hcut⟩ := hcrop output w hpool
  have htop : (inner.box (Binary .single) config.scale).rows.first.toNat = 1 := by decide +kernel
  have hleft : (inner.box (Binary .single) config.scale).columns.first.toNat = 1 := by
    decide +kernel
  rw [htop, hleft] at hcut
  have hsecond : [inner, whole][1]? = some whole := rfl
  obtain ⟨hblock, -, -, -, honce⟩ := pool_blocks hmap hvalid hregions hsecond hwhole
  obtain ⟨-, hunique, -⟩ := honce output w hpool
  exact ⟨(hblock 1 (by decide) 0 (by decide)).trans (by decide +kernel), output, w, hpool, hcells,
    hcut rfl rfl 0 (by decide), hunique 0⟩

end

end RegionPooling
