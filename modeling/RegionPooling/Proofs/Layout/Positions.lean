import Mathlib.Data.List.Basic
import Mathlib.Tactic.Ring
import RegionPooling.Tensor.Basic

/-!
# Positions in maps and pooled results

A bin of a pooled result is named by its region, its channel, its row and its column, an element of
a map by its batch entry, its channel, its row and its column. Both are laid out in row-major order.
Main statements: the list of all positions of a pooled result holds each position once, in order,
and at the place where the bin is stored; a tensor of four dimensions is read at the place of the
position. Specification §3.
-/

namespace RegionPooling

/-- Equal blocks in a row are read through the number of the block and the place in it. -/
theorem getElem?_flatMap_block {α β : Type} {l : List α} {g : α → List β} {m i j : ℕ} {a : α}
    (hg : ∀ b ∈ l, (g b).length = m) (hi : l[i]? = some a) (hj : j < m) :
    (l.flatMap g)[i * m + j]? = (g a)[j]? := by
  induction l generalizing i with
  | nil => simp at hi
  | cons b l ih =>
    have hb : (g b).length = m := hg b List.mem_cons_self
    rw [List.flatMap_cons]
    cases i with
    | zero =>
      rw [List.getElem?_cons_zero] at hi
      cases hi
      rw [Nat.zero_mul, Nat.zero_add, List.getElem?_append_left (by omega)]
    | succ i =>
      rw [List.getElem?_cons_succ] at hi
      rw [List.getElem?_append_right (by rw [hb, Nat.add_mul]; omega), hb]
      have hplace : (i + 1) * m + j - m = i * m + j := by rw [Nat.add_mul]; omega
      rw [hplace]
      exact ih (fun c hc ↦ hg c (List.mem_cons_of_mem _ hc)) hi

/-- A place inside one of a number of equal blocks lies inside them all. -/
theorem blockPlace_lt {n m i j : ℕ} (hi : i < n) (hj : j < m) : i * m + j < n * m := by
  calc i * m + j
    _ < i * m + m := by omega
    _ = (i + 1) * m := by ring
    _ ≤ n * m := Nat.mul_le_mul_right _ hi

/-- One of a number of blocks of equal blocks lies inside them all. -/
theorem blockRange_le {n m size i j : ℕ} (hi : i < n) (hj : j < m) :
    (i * m + j) * size + size ≤ n * (m * size) := by
  calc (i * m + j) * size + size
    _ = (i * m + (j + 1)) * size := by ring
    _ ≤ (i * m + m) * size := by
      apply Nat.mul_le_mul_right
      omega
    _ = (i + 1) * (m * size) := by ring
    _ ≤ n * (m * size) := Nat.mul_le_mul_right _ hi

private theorem pairwise_flatMap_range {β : Type} {R : β → β → Prop} {n : ℕ} {g : ℕ → List β}
    (hg : ∀ i < n, (g i).Pairwise R) (hr : ∀ i j, i < j → ∀ x ∈ g i, ∀ y ∈ g j, R x y) :
    ((List.range n).flatMap g).Pairwise R := by
  rw [List.pairwise_flatMap]
  refine ⟨fun i hi ↦ hg i (List.mem_range.1 hi), ?_⟩
  apply List.Pairwise.imp _ List.pairwise_lt_range
  intro i j hij
  exact hr i j hij

/-- Equal ranges in a row are one range. -/
theorem flatMap_range'_block (start n m : ℕ) :
    ((List.range n).flatMap fun i ↦ List.range' (start + i * m) m) =
      List.range' start (n * m) := by
  induction n with
  | zero => simp
  | succ n ih =>
    rw [List.range_succ, List.flatMap_append, ih, List.flatMap_singleton, List.range'_append_1,
      Nat.succ_mul]

/-- Numbered elements are visited in the order of their numbers. -/
theorem flatMap_zipIdx_eq_range {β γ : Type} {l : List β} {g : β × ℕ → List γ} {h : ℕ → List γ}
    (hg : ∀ i b, l[i]? = some b → g (b, i) = h i) :
    l.zipIdx.flatMap g = (List.range l.length).flatMap h := by
  have hnum : l.zipIdx.map Prod.snd = List.range l.length := by
    rw [List.zipIdx_map_snd, List.range_eq_range']
  rw [← hnum, List.flatMap_map]
  apply List.flatMap_congr
  rintro ⟨b, i⟩ hmem
  exact hg i b (List.mem_zipIdx_iff_getElem?.1 hmem)

/-- A dimension that is not zero multiplies the product of those that are not zero. -/
theorem Shape.occupied_cons {d : ℕ} (h : d ≠ 0) (dims : List ℕ) :
    (Shape.mk (d :: dims)).occupied = d * (Shape.mk dims).occupied := by
  simp [occupied, h, count_cons]

/-- The product of the dimensions that are not zero is not zero. -/
theorem Shape.occupied_pos (s : Shape) : 0 < s.occupied := by
  obtain ⟨dims⟩ := s
  induction dims with
  | nil => exact Nat.one_pos
  | cons d dims ih =>
    by_cases hd : d = 0
    · exact lt_of_lt_of_le ih (occupied_le_cons d dims)
    · rw [occupied_cons hd]
      exact Nat.mul_pos (Nat.pos_of_ne_zero hd) ih

/-- No dimension is greater than the product of those that are not zero. -/
theorem Shape.dim_le_occupied {s : Shape} {n : ℕ} (h : n ∈ s.dims) : n ≤ s.occupied := by
  obtain ⟨dims⟩ := s
  induction dims with
  | nil => exact absurd h List.not_mem_nil
  | cons d dims ih =>
    rcases List.mem_cons.1 h with rfl | hmem
    · by_cases hn : n = 0
      · omega
      · rw [occupied_cons hn]
        exact Nat.le_mul_of_pos_right _ (occupied_pos _)
    · exact le_trans (ih hmem) (occupied_le_cons d dims)

/-- Some of the dimensions multiply to no more than all that are not zero. -/
theorem Shape.count_le_of_sublist {some all : List ℕ} (h : some.Sublist all) :
    (Shape.mk some).count ≤ (Shape.mk all).occupied := by
  refine le_trans (Shape.count_le_occupied _) ?_
  induction h with
  | slnil => exact le_rfl
  | cons d _ ih => exact le_trans ih (occupied_le_cons d _)
  | cons_cons d _ ih =>
    by_cases hd : d = 0
    · rw [hd]
      simpa [occupied] using ih
    · rw [occupied_cons hd, occupied_cons hd]
      exact Nat.mul_le_mul_left d ih

/-- Partial products of four dimensions fit into storage if the dimensions do. -/
theorem Shape.products_le {a b c d : ℕ} (h : (Shape.mk [a, b, c, d]).occupied ≤ storageLimit) :
    a * b ≤ storageLimit ∧ c * d ≤ storageLimit ∧ b * (c * d) ≤ storageLimit ∧
      a * (b * (c * d)) ≤ storageLimit := by
  have hproduct (some : List ℕ) (hsome : some.Sublist [a, b, c, d]) :
      (Shape.mk some).count ≤ storageLimit := le_trans (count_le_of_sublist hsome) h
  have hfirst := hproduct [a, b] (by simp)
  have hlast := hproduct [c, d] (by simp)
  have htail := hproduct [b, c, d] (by simp)
  have hall := hproduct [a, b, c, d] (by simp)
  simp only [count_cons, count_nil, mul_one] at hfirst hlast htail hall
  exact ⟨hfirst, hlast, htail, hall⟩

/-- Bin of a pooled result. -/
structure PooledPosition where
  region : ℕ
  channel : ℕ
  row : ℕ
  column : ℕ
  deriving DecidableEq, Repr

namespace PooledPosition

/-- The four coordinates in order. -/
def toList (q : PooledPosition) : List ℕ := [q.region, q.channel, q.row, q.column]

/-- Row-major order of bins. -/
def Precedes (p q : PooledPosition) : Prop :=
  p.region < q.region ∨ p.region = q.region ∧
    (p.channel < q.channel ∨ p.channel = q.channel ∧
      (p.row < q.row ∨ p.row = q.row ∧ p.column < q.column))

/-- No bin comes before itself. -/
theorem not_precedes_self (q : PooledPosition) : ¬ q.Precedes q := by
  unfold Precedes
  omega

instance : Std.Irrefl Precedes := ⟨not_precedes_self⟩

instance : Std.Antisymm Precedes where
  antisymm p q hpq hqp := by
    unfold Precedes at hpq hqp
    omega

end PooledPosition

namespace PooledDims

variable {d : PooledDims} {q : PooledPosition}

/-- A bin lies in a pooled result if all its coordinates do. -/
def Contains (d : PooledDims) (q : PooledPosition) : Prop :=
  q.region < d.regions ∧ q.channel < d.channels ∧ q.row < d.height ∧ q.column < d.width

instance (d : PooledDims) (q : PooledPosition) : Decidable (d.Contains q) :=
  inferInstanceAs (Decidable (_ ∧ _))

/-- Place of a bin in storage. -/
def cell (d : PooledDims) (q : PooledPosition) : ℕ :=
  ((q.region * d.channels + q.channel) * d.height + q.row) * d.width + q.column

/-- Bins of one channel of one region in row-major order. -/
def planePositions (d : PooledDims) (region channel : ℕ) : List PooledPosition :=
  (List.range d.height).flatMap fun row ↦
    (List.range d.width).map fun column ↦ ⟨region, channel, row, column⟩

/-- Bins of one region in row-major order. -/
def regionPositions (d : PooledDims) (region : ℕ) : List PooledPosition :=
  (List.range d.channels).flatMap (d.planePositions region)

/-- All bins in row-major order. -/
def positions (d : PooledDims) : List PooledPosition :=
  (List.range d.regions).flatMap d.regionPositions

/-- The bins of a channel are those with its region and channel. -/
@[simp] theorem mem_planePositions {region channel : ℕ} :
    q ∈ d.planePositions region channel ↔
      q.region = region ∧ q.channel = channel ∧ q.row < d.height ∧ q.column < d.width := by
  obtain ⟨region', channel', row, column⟩ := q
  simp only [planePositions, List.mem_flatMap, List.mem_range, List.mem_map,
    PooledPosition.mk.injEq]
  constructor
  · rintro ⟨_, hrow, _, hcolumn, rfl, rfl, rfl, rfl⟩
    exact ⟨rfl, rfl, hrow, hcolumn⟩
  · rintro ⟨rfl, rfl, hrow, hcolumn⟩
    exact ⟨row, hrow, column, hcolumn, rfl, rfl, rfl, rfl⟩

/-- The bins of a region are those with its number. -/
@[simp] theorem mem_regionPositions {region : ℕ} :
    q ∈ d.regionPositions region ↔
      q.region = region ∧ q.channel < d.channels ∧ q.row < d.height ∧ q.column < d.width := by
  simp only [regionPositions, List.mem_flatMap, List.mem_range, mem_planePositions]
  constructor
  · rintro ⟨channel, hchannel, hregion, rfl, hinside⟩
    exact ⟨hregion, hchannel, hinside⟩
  · rintro ⟨hregion, hchannel, hinside⟩
    exact ⟨q.channel, hchannel, hregion, rfl, hinside⟩

/-- Exactly the bins of the pooled result are listed. -/
@[simp] theorem mem_positions : q ∈ d.positions ↔ d.Contains q := by
  simp only [positions, List.mem_flatMap, List.mem_range, mem_regionPositions, Contains]
  constructor
  · rintro ⟨region, hregion, rfl, hinside⟩
    exact ⟨hregion, hinside⟩
  · rintro ⟨hregion, hinside⟩
    exact ⟨q.region, hregion, rfl, hinside⟩

/-- A channel of a region has one bin for every row and column. -/
@[simp] theorem length_planePositions (d : PooledDims) (region channel : ℕ) :
    (d.planePositions region channel).length = d.height * d.width := by
  simp [planePositions]

/-- A region has the bins of all its channels. -/
@[simp] theorem length_regionPositions (d : PooledDims) (region : ℕ) :
    (d.regionPositions region).length = d.channels * (d.height * d.width) := by
  simp [regionPositions]

/-- The bins of a region are those of the first one, with its number. -/
theorem map_regionPositions (d : PooledDims) (region : ℕ) :
    (d.regionPositions 0).map (fun q ↦ { q with region := region }) = d.regionPositions region := by
  simp only [regionPositions, planePositions, List.map_flatMap, List.map_map]
  rfl

/-- The exact number of bins is the product of the dimensions. -/
theorem count_shape (d : PooledDims) :
    d.shape.count = d.regions * (d.channels * (d.height * d.width)) := by
  simp [shape, toList]

/-- Every bin is listed once. -/
@[simp] theorem length_positions (d : PooledDims) : d.positions.length = d.shape.count := by
  simp [count_shape, positions]

/-- Regions without bins have no positions. -/
theorem positions_eq_nil (h : d.channels * (d.height * d.width) = 0) : d.positions = [] := by
  rw [← List.length_eq_zero_iff, length_positions, count_shape, h, Nat.mul_zero]

/-- A bin is listed at the place where it is stored. -/
theorem getElem?_positions (h : d.Contains q) : d.positions[d.cell q]? = some q := by
  obtain ⟨region, channel, row, column⟩ := q
  obtain ⟨hregion, hchannel, hrow, hcolumn⟩ := h
  dsimp only at hregion hchannel hrow hcolumn
  have hplane := blockPlace_lt hrow hcolumn
  have hblock := blockPlace_lt hchannel hplane
  have hcell : d.cell ⟨region, channel, row, column⟩ =
      region * (d.channels * (d.height * d.width)) +
        (channel * (d.height * d.width) + (row * d.width + column)) := by
    simp only [cell]
    ring
  rw [hcell, positions]
  rw [getElem?_flatMap_block (fun _ _ ↦ d.length_regionPositions _) (List.getElem?_range hregion)
    hblock, regionPositions]
  rw [getElem?_flatMap_block (fun _ _ ↦ d.length_planePositions _ _) (List.getElem?_range hchannel)
    hplane, planePositions]
  rw [getElem?_flatMap_block (fun _ _ ↦ by simp) (List.getElem?_range hrow) hcolumn]
  simp [hcolumn]

/-- A bin of the pooled result lies in storage of the exact size. -/
theorem cell_lt_count (h : d.Contains q) : d.cell q < d.shape.count := by
  rw [← length_positions]
  exact (List.getElem?_eq_some_iff.1 (getElem?_positions h)).1

/-- The bins are listed in row-major order. -/
theorem pairwise_positions (d : PooledDims) :
    d.positions.Pairwise PooledPosition.Precedes := by
  apply pairwise_flatMap_range
  · intro region _
    apply pairwise_flatMap_range
    · intro channel _
      apply pairwise_flatMap_range
      · intro row _
        rw [List.pairwise_map]
        apply List.Pairwise.imp _ List.pairwise_lt_range
        intro i j hij
        simp [PooledPosition.Precedes, hij]
      · intro i j hij x hx y hy
        obtain ⟨_, _, rfl⟩ := List.mem_map.1 hx
        obtain ⟨_, _, rfl⟩ := List.mem_map.1 hy
        simp [PooledPosition.Precedes, hij]
    · intro i j hij x hx y hy
      have hxr := mem_planePositions.1 hx
      have hyr := mem_planePositions.1 hy
      unfold PooledPosition.Precedes
      omega
  · intro i j hij x hx y hy
    have hxr := mem_regionPositions.1 hx
    have hyr := mem_regionPositions.1 hy
    unfold PooledPosition.Precedes
    omega

/-- The bins of a channel are stored one after another. -/
theorem map_cell_planePositions (d : PooledDims) (region channel : ℕ) :
    (d.planePositions region channel).map d.cell =
      List.range' ((region * d.channels + channel) * (d.height * d.width))
        (d.height * d.width) := by
  have hrow (row : ℕ) : ((List.range d.width).map fun column ↦
      d.cell ⟨region, channel, row, column⟩) =
      List.range' ((region * d.channels + channel) * (d.height * d.width) + row * d.width)
        d.width := by
    have hstart : (region * d.channels + channel) * (d.height * d.width) + row * d.width =
        ((region * d.channels + channel) * d.height + row) * d.width := by ring
    rw [hstart, List.range'_eq_map_range]
    rfl
  rw [planePositions, List.map_flatMap, ← flatMap_range'_block]
  simp only [List.map_map]
  exact List.flatMap_congr fun row _ ↦ hrow row

private theorem map_cell_regionPositions (d : PooledDims) (region : ℕ) :
    (d.regionPositions region).map d.cell =
      List.range' (region * (d.channels * (d.height * d.width)))
        (d.channels * (d.height * d.width)) := by
  rw [regionPositions, List.map_flatMap, ← flatMap_range'_block]
  apply List.flatMap_congr
  intro channel _
  rw [map_cell_planePositions, Nat.add_mul, Nat.mul_assoc]

/-- All bins are stored one after another. -/
theorem map_cell_positions (d : PooledDims) :
    d.positions.map d.cell = List.range d.shape.count := by
  rw [positions, List.map_flatMap, count_shape,
    List.range_eq_range' (n := d.regions * (d.channels * (d.height * d.width))),
    ← flatMap_range'_block]
  apply List.flatMap_congr
  intro region _
  rw [map_cell_regionPositions, Nat.zero_add]

/-- Every place of storage of the exact size belongs to one of the bins. -/
theorem exists_cell_eq {n : ℕ} (h : n < d.shape.count) : ∃ q, d.Contains q ∧ d.cell q = n := by
  have hn : n ∈ d.positions.map d.cell := by
    rw [map_cell_positions]
    exact List.mem_range.2 h
  obtain ⟨q, hq, hcell⟩ := List.mem_map.1 hn
  exact ⟨q, mem_positions.1 hq, hcell⟩

/-- The bins of a channel lie in storage of the exact size. -/
theorem planeCells_le {region channel : ℕ} (hr : region < d.regions) (hc : channel < d.channels) :
    (region * d.channels + channel) * (d.height * d.width) + d.height * d.width ≤
      d.shape.count := by
  rw [count_shape]
  exact blockRange_le hr hc

/-- Rows and columns of a result fit into storage if the result does. -/
theorem sides_le_storageLimit (h : d.shape.occupied ≤ storageLimit) :
    d.height ≤ storageLimit ∧ d.width ≤ storageLimit :=
  ⟨le_trans (Shape.dim_le_occupied (by simp [shape, toList])) h,
    le_trans (Shape.dim_le_occupied (by simp [shape, toList])) h⟩

/-- The index list of a bin leads to its place in storage. -/
theorem offset?_toList (h : d.Contains q) : d.shape.offset? q.toList = some (d.cell q) := by
  obtain ⟨hregion, hchannel, hrow, hcolumn⟩ := h
  simp [shape, toList, PooledPosition.toList, Shape.offset?, Shape.offset?.go, hregion, hchannel,
    hrow, hcolumn, cell]
  ring

end PooledDims

/-- The four coordinates in order. -/
def MapPosition.toList (p : MapPosition) : List ℕ := [p.batch, p.channel, p.row, p.column]

namespace MapDims

variable {d : MapDims} {p : MapPosition}

/-- An element lies in a map if all its coordinates do. -/
def Contains (d : MapDims) (p : MapPosition) : Prop :=
  p.batch < d.batch ∧ p.channel < d.channels ∧ p.row < d.height ∧ p.column < d.width

/-- Place of an element in storage. -/
def place (d : MapDims) (p : MapPosition) : ℕ := d.planeStart p.batch p.channel + d.planeOffset p

/-- The exact number of elements is the product of the dimensions. -/
theorem count_shape (d : MapDims) : d.shape.count = d.batch * (d.channels * d.plane) := by
  simp [shape, toList, plane]

/-- Dimensions of a map are determined by their shape. -/
theorem shape_injective : Function.Injective shape := by
  intro d e h
  have hd := Shape.mapDims?_eq_some_iff.2 h
  rw [Shape.mapDims?_eq_some_iff.2 rfl] at hd
  exact Option.some.inj hd

/-- The sides of a map fit into storage if the map does. -/
theorem sides_le_storageLimit (h : d.shape.occupied ≤ storageLimit) :
    d.height ≤ storageLimit ∧ d.width ≤ storageLimit :=
  ⟨le_trans (Shape.dim_le_occupied (by simp [shape, toList])) h,
    le_trans (Shape.dim_le_occupied (by simp [shape, toList])) h⟩

/-- A plane with elements has columns. -/
theorem width_pos {k : ℕ} (h : k < d.plane) : 0 < d.width := by
  rw [plane] at h
  by_contra hzero
  rw [Nat.eq_zero_of_not_pos hzero, Nat.mul_zero] at h
  omega

/-- The row of an element of a plane lies in the map. -/
theorem div_width_lt {k : ℕ} (h : k < d.plane) : k / d.width < d.height :=
  (Nat.div_lt_iff_lt_mul (width_pos h)).2 h

/-- The row of an element is read back from its position in the plane. -/
theorem planeOffset_div (h : p.column < d.width) : d.planeOffset p / d.width = p.row := by
  rw [planeOffset, Nat.mul_comm, Nat.mul_add_div (by omega), Nat.div_eq_of_lt h, Nat.add_zero]

/-- The column of an element is read back from its position in the plane. -/
theorem planeOffset_mod (h : p.column < d.width) : d.planeOffset p % d.width = p.column := by
  rw [planeOffset, Nat.mul_comm, Nat.mul_add_mod, Nat.mod_eq_of_lt h]

/-- Every plane of the map lies in storage. -/
theorem planeStart_add_plane_le {batch channel : ℕ} (hb : batch < d.batch)
    (hc : channel < d.channels) : d.planeStart batch channel + d.plane ≤ d.shape.count := by
  rw [count_shape, planeStart]
  exact blockRange_le hb hc

/-- The index list of an element leads to its place in storage. -/
theorem offset?_toList (h : d.Contains p) : d.shape.offset? p.toList = some (d.place p) := by
  obtain ⟨hbatch, hchannel, hrow, hcolumn⟩ := h
  simp [shape, toList, MapPosition.toList, Shape.offset?, Shape.offset?.go, hbatch, hchannel, hrow,
    hcolumn, place, planeStart, planeOffset, plane]
  ring

private theorem contains_of_offset? {k : ℕ} (h : d.shape.offset? p.toList = some k) :
    d.Contains p := by
  by_contra hnot
  simp only [Contains, not_and] at hnot
  simp only [shape, toList, MapPosition.toList, Shape.offset?, Shape.offset?.go] at h
  split at h
  · next hbatch =>
    split at h
    · next hchannel =>
      split at h
      · next hrow => rw [if_neg (hnot hbatch hchannel hrow)] at h; cases h
      · cases h
    · cases h
  · cases h

/-- An element of the map lies in storage of the exact size. -/
theorem place_lt_count (h : d.Contains p) : d.place p < d.shape.count :=
  Shape.offset?_lt_count (offset?_toList h)

/-- A place in storage holds an element of the map. -/
theorem contains_position {k : ℕ} (h : k < d.shape.count) : d.Contains (d.position k) := by
  rw [count_shape] at h
  have hchannels : 0 < d.channels := by
    by_contra hzero
    rw [Nat.eq_zero_of_not_pos hzero, Nat.zero_mul, Nat.mul_zero] at h
    omega
  have hplane : 0 < d.plane := by
    by_contra hzero
    rw [Nat.eq_zero_of_not_pos hzero, Nat.mul_zero, Nat.mul_zero] at h
    omega
  have hheight : 0 < d.height := Nat.pos_of_mul_pos_right hplane
  have hwidth : 0 < d.width := Nat.pos_of_mul_pos_left hplane
  refine ⟨?_, Nat.mod_lt _ hchannels, Nat.mod_lt _ hheight, Nat.mod_lt _ hwidth⟩
  show k / d.plane / d.channels < d.batch
  rw [Nat.div_div_eq_div_mul, Nat.div_lt_iff_lt_mul (Nat.mul_pos hplane hchannels),
    Nat.mul_comm d.plane]
  exact h

/-- The place of an element is the one where its coordinates were read. -/
@[simp] theorem place_position (d : MapDims) (k : ℕ) : d.place (d.position k) = k := by
  have hrow : k / d.width % d.height * d.width + k % d.width = k % d.plane := by
    rw [plane, Nat.mul_comm d.height, Nat.mod_mul]
    ring
  unfold place planeStart planeOffset position
  dsimp only
  rw [hrow, Nat.div_add_mod', Nat.div_add_mod']

/-- The coordinates of an element are read back from its place. -/
theorem position_place (h : d.Contains p) : d.position (d.place p) = p :=
  position_add h.2.1 h.2.2.1 h.2.2.2

/-- What is listed for the elements of a map in storage order is found at the places of the
elements. -/
theorem getElem?_map_position {β : Type} (value : MapPosition → β) (h : d.Contains p) :
    ((List.range d.shape.count).map fun k ↦ value (d.position k))[d.place p]? =
      some (value p) := by
  simp [List.getElem?_range (place_lt_count h), position_place h]

/-- Element at a position of a plane. -/
def planeElement (d : MapDims) (batch channel k : ℕ) : MapPosition :=
  ⟨batch, channel, k / d.width, k % d.width⟩

/-- The element at a position of a plane has this position. -/
@[simp] theorem planeOffset_planeElement (d : MapDims) (batch channel k : ℕ) :
    d.planeOffset (d.planeElement batch channel k) = k :=
  Nat.div_add_mod' k d.width

/-- The element at a position of a plane is stored this far from the start of the plane. -/
@[simp] theorem place_planeElement (d : MapDims) (batch channel k : ℕ) :
    d.place (d.planeElement batch channel k) = d.planeStart batch channel + k := by
  rw [place, planeOffset_planeElement]
  rfl

/-- The elements of the planes are elements of the map. -/
theorem contains_planeElement {batch channel k : ℕ} (hb : batch < d.batch)
    (hc : channel < d.channels) (hk : k < d.plane) :
    d.Contains (d.planeElement batch channel k) :=
  ⟨hb, hc, div_width_lt hk, Nat.mod_lt _ (width_pos hk)⟩

/-- An element of a plane is stored at a place exactly if the place has its coordinates. -/
theorem planeStart_add_eq_iff {batch channel offset k : ℕ} (hc : channel < d.channels)
    (ho : offset < d.plane) : d.planeStart batch channel + offset = k ↔
      batch = (d.position k).batch ∧ channel = (d.position k).channel ∧
        offset = d.planeOffset (d.position k) := by
  have hoffset := d.planeOffset_planeElement batch channel offset
  constructor
  · rintro rfl
    have hposition := position_add (p := d.planeElement batch channel offset) hc (div_width_lt ho)
      (Nat.mod_lt _ (width_pos ho))
    rw [hoffset] at hposition
    change d.position (d.planeStart batch channel + offset) = _ at hposition
    rw [hposition]
    exact ⟨rfl, rfl, hoffset.symm⟩
  · rintro ⟨hb, hch, heq⟩
    rw [hb, hch, heq]
    exact d.place_position k

end MapDims

namespace Tensor

variable {α : Type} {t : Tensor α}

/-- A pooled result is read at the place of the bin. -/
theorem get?_pooled {d : PooledDims} {q : PooledPosition} (ht : t.shape = d.shape)
    (h : d.Contains q) : t.get? q.toList = t.data[d.cell q]? := by
  rw [get?, ht, PooledDims.offset?_toList h, Option.bind_some]

/-- A map is read at its elements alone. -/
theorem contains_of_get? {d : MapDims} {p : MapPosition} {x : α} (ht : t.shape = d.shape)
    (h : t.get? p.toList = some x) : d.Contains p := by
  rw [get?, ht] at h
  obtain ⟨k, hk, -⟩ := Option.bind_eq_some_iff.1 h
  exact MapDims.contains_of_offset? hk

/-- A map is read at the place of the element. -/
theorem get?_map {d : MapDims} {p : MapPosition} (ht : t.shape = d.shape) (h : d.Contains p) :
    t.get? p.toList = t.data[d.place p]? := by
  rw [get?, ht, MapDims.offset?_toList h, Option.bind_some]

end Tensor

end RegionPooling
