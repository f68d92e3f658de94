import RegionPooling.Proofs.Layout.RowMajor
import RegionPooling.Proofs.Pooling.Records

/-!
# Marks of winners

Winners are written to a tensor of signed words, where the winner of a bin stands as a position and
a bin without a winner is marked by minus one. A winner of a pass lies in a plane of the map, whose
elements fit into storage, so no position is so large that it would be taken for a mark. Main
statement: the tensor and the table that a pass has filled say the same of every bin, inside the
dimensions and outside, and the cells are read back from either. Specification §3 and §10.8.
-/

namespace RegionPooling

section Places

variable {d : PooledDims} {q : PooledPosition}

private theorem PooledDims.contains_toList : d.shape.Contains q.toList ↔ d.Contains q := by
  simp [shape, toList, PooledPosition.toList, Shape.contains_cons, Shape.contains_nil, Contains]

/-- Dimensions of a pooled result are determined by their shape. -/
theorem PooledDims.shape_injective : Function.Injective shape := by
  rintro ⟨regions, channels, height, width⟩ ⟨regions', channels', height', width'⟩ h
  simp_all [shape, toList]

private theorem PooledDims.map_positions_getElem? {β : Type} {xs : Array β}
    (h : xs.size = d.shape.count) :
    d.positions.map (fun q ↦ xs[d.cell q]?) = xs.toList.map some := by
  calc d.positions.map (fun q ↦ xs[d.cell q]?)
    _ = (List.range d.shape.count).map (xs[·]?) := by rw [← map_cell_positions, List.map_map]; rfl
    _ = xs.toList.map some := by
      apply List.ext_getElem
      · simp [h]
      · intro k hk _
        simp only [List.length_map, List.length_range] at hk
        simp [h, hk]

end Places

namespace Winners

variable {α : Type} [Scalar α] {w : Winners} {t : Tensor Int64} {q : PooledPosition}
  {cell : Option ℕ} {offset : ℕ}

/-- A pass over a map with elements of a given type has filled the table. -/
def Filled (α : Type) [Scalar α] (w : Winners) : Prop :=
  ∃ (b filled : Buffers α) (map : Tensor α) (regions : List Region),
    (b.fill map regions).outcome = .ok filled ∧ filled.winners = w

private theorem filled_of_outcome_pool {map output : Tensor α} {regions : List Region}
    {config : PoolConfig} (h : (pool map regions config).outcome = .ok (output, w)) :
    w.Filled α := by
  obtain ⟨d, filled, -, -, hfill, -, hw⟩ := exists_fill_of_outcome_pool h
  exact ⟨_, filled, map, regions, hfill, hw⟩

/-- Winner that a mark stands for. -/
def unmark (x : Int64) : Option ℕ := if 0 ≤ x.toInt then some x.toInt.toNat else none

private theorem toInt_mark_none : (mark none).toInt = -1 := by decide

private theorem toInt_mark_some (h : offset ≤ storageLimit) : (mark (some offset)).toInt = offset :=
  Int64.toInt_ofNat_of_lt (by rw [storageLimit] at h; omega)

/-- Winners that fit into storage are read back from their marks. -/
theorem unmark_mark (h : ∀ offset, cell = some offset → offset ≤ storageLimit) :
    unmark (mark cell) = cell := by
  rw [unmark]
  cases cell with
  | none => simp [toInt_mark_none]
  | some offset => simp [toInt_mark_some (h offset rfl)]

/-- The tensor of a table has its dimensions and one mark for every cell, and the table fits into
storage. -/
theorem toTensor_eq_ok_iff : w.toTensor = .ok t ↔
    w.cells.size = w.dims.shape.count ∧ w.dims.shape.occupied ≤ storageLimit ∧
      t.shape = w.dims.shape ∧ t.data = w.cells.map mark := by
  rw [toTensor, Tensor.ofArray_eq_ok_iff, Array.size_map]
  constructor
  · rintro ⟨hsize, hfits, hrest⟩
    exact ⟨hsize.trans (Shape.size_eq_count hfits), hfits, hrest⟩
  · rintro ⟨hsize, hfits, hrest⟩
    exact ⟨hsize.trans (Shape.size_eq_count hfits).symm, hfits, hrest⟩

private theorem exists_get_eq (ht : w.toTensor = .ok t) (hq : w.dims.Contains q) :
    ∃ cell, w.cells[w.dims.cell q]? = some cell ∧
      w.get q.region q.channel q.row q.column = .ok cell ∧ t.get? q.toList = some (mark cell) := by
  obtain ⟨hsize, -, hshape, hdata⟩ := toTensor_eq_ok_iff.1 ht
  have hlt : w.dims.cell q < w.cells.size := hsize ▸ PooledDims.cell_lt_count hq
  refine ⟨w.cells[w.dims.cell q], Array.getElem?_eq_getElem hlt, ?_, ?_⟩
  · rw [get_eq_fetch hq, fetch_of_lt hlt]
  · rw [Tensor.get?_pooled hshape hq, hdata]
    simp [hlt]

private theorem get_eq_none (ht : w.toTensor = .ok t) (hq : ¬ w.dims.Contains q) :
    w.get q.region q.channel q.row q.column = .ok none ∧ t.get? q.toList = none := by
  obtain ⟨-, -, hshape, -⟩ := toTensor_eq_ok_iff.1 ht
  refine ⟨if_neg hq, t.get?_of_not_contains ?_⟩
  rwa [hshape, PooledDims.contains_toList]

private theorem Filled.le_storageLimit (h : w.Filled α) (ht : w.toTensor = .ok t)
    (hcell : cell ∈ w.cells) (hoffset : cell = some offset) : offset ≤ storageLimit := by
  obtain ⟨b, filled, map, regions, hfill, rfl⟩ := h
  obtain ⟨hsize, -⟩ := toTensor_eq_ok_iff.1 ht
  obtain ⟨d, hmap, hrecords⟩ := Buffers.records_of_outcome_fill hfill
  obtain ⟨k, hk, hget⟩ := Array.mem_iff_getElem.1 hcell
  obtain ⟨q, hq, rfl⟩ := PooledDims.exists_cell_eq (hsize ▸ hk)
  have hstored : filled.winners.cells[filled.winners.dims.cell q]? = some (some offset) := by
    rw [Array.getElem?_eq_getElem hk, hget, hoffset]
  obtain ⟨region, -, hplane, -⟩ := hrecords.covered q hq offset hstored
  have hlimit : d.plane ≤ storageLimit := (Shape.products_le (Tensor.occupied_le hmap)).2.1
  omega

/-- The winners of a table that a pass has filled are read back from their marks. -/
theorem Filled.unmark_mark (h : w.Filled α) (ht : w.toTensor = .ok t) (hcell : cell ∈ w.cells) :
    unmark (mark cell) = cell :=
  Winners.unmark_mark fun _ hoffset ↦ h.le_storageLimit ht hcell hoffset

/-- The cells of a table that a pass has filled are read back from its tensor. -/
theorem Filled.map_unmark (h : w.Filled α) (ht : w.toTensor = .ok t) :
    t.toList.map unmark = w.cells.toList := by
  calc t.toList.map unmark
    _ = w.cells.toList.map (unmark ∘ mark) := by
      rw [Tensor.toList, (toTensor_eq_ok_iff.1 ht).2.2.2, Array.toList_map, List.map_map]
    _ = w.cells.toList.map id := List.map_congr_left fun _ hcell ↦
      h.unmark_mark ht (Array.mem_toList_iff.1 hcell)
    _ = w.cells.toList := List.map_id _

private theorem mapM_get (ht : w.toTensor = .ok t) :
    (w.dims.positions.mapM fun q ↦ w.get q.region q.channel q.row q.column) =
      .ok w.cells.toList := by
  have hcells := PooledDims.map_positions_getElem? (toTensor_eq_ok_iff.1 ht).1
  have hsame := congrArg (List.map fun cell ↦ cell.getD none) hcells
  rw [List.map_map, List.map_map] at hsame
  have heach : ∀ q ∈ w.dims.positions,
      w.get q.region q.channel q.row q.column = .ok (w.cells[w.dims.cell q]?.getD none) := by
    intro q hq
    obtain ⟨cell, hcell, hget, -⟩ := exists_get_eq ht (PooledDims.mem_positions.1 hq)
    rw [hget, hcell, Option.getD_some]
  rw [mapM_eq_ok heach]
  exact congrArg Except.ok (hsame.trans (List.map_id _))

/-- Reading the marks of all bins in row-major order gives the cells. -/
theorem Filled.map_get? (h : w.Filled α) (ht : w.toTensor = .ok t) :
    w.dims.positions.map (fun q ↦ (t.get? q.toList).map unmark) = w.cells.toList.map some := by
  rw [← PooledDims.map_positions_getElem? (toTensor_eq_ok_iff.1 ht).1]
  apply List.map_congr_left
  intro q hq
  obtain ⟨cell, hcell, -, hmark⟩ := exists_get_eq ht (PooledDims.mem_positions.1 hq)
  rw [hmark, hcell, Option.map_some, h.unmark_mark ht (Array.mem_of_getElem? hcell)]

/-- A tensor of marks and a table say the same of a bin: nothing outside the dimensions, and inside
them minus one for a bin without a winner and otherwise the position of its winner. -/
structure AgreesAt (w : Winners) (t : Tensor Int64) (q : PooledPosition) : Prop where
  total : ∃ cell, w.get q.region q.channel q.row q.column = .ok cell
  outside : t.get? q.toList = none ↔ ¬ w.dims.Contains q
  get_outside : ¬ w.dims.Contains q → w.get q.region q.channel q.row q.column = .ok none
  hollow : w.dims.Contains q → ((t.get? q.toList).map Int64.toInt = some (-1) ↔
    w.get q.region q.channel q.row q.column = .ok none)
  won : ∀ k : ℕ, (t.get? q.toList).map Int64.toInt = some (k : ℤ) ↔
    w.get q.region q.channel q.row q.column = .ok (some k)

/-- The tensor of a table that a pass has filled agrees with it on every bin. -/
theorem Filled.agreesAt (h : w.Filled α) (ht : w.toTensor = .ok t) (q : PooledPosition) :
    w.AgreesAt t q := by
  by_cases hq : w.dims.Contains q
  · obtain ⟨cell, hcell, hget, hmark⟩ := exists_get_eq ht hq
    have hvalue : (mark cell).toInt = cell.elim (-1) fun k ↦ (k : ℤ) := by
      cases cell with
      | none => exact toInt_mark_none
      | some offset =>
        exact toInt_mark_some (h.le_storageLimit ht (Array.mem_of_getElem? hcell) rfl)
    refine ⟨⟨cell, hget⟩, by simp [hmark, hq], by simp [hq], fun _ ↦ ?_, fun k ↦ ?_⟩
    · rw [hmark, hget, Option.map_some, hvalue]
      cases cell <;> simp
    · rw [hmark, hget, Option.map_some, hvalue]
      cases cell <;> simp
  · obtain ⟨hget, hmark⟩ := get_eq_none ht hq
    exact ⟨⟨none, hget⟩, by simp [hmark, hq], fun _ ↦ hget, by simp [hq], by simp [hmark, hget]⟩

/-- Suppose a pass over a map has filled a table, and the table is written to a tensor of signed
words. For every bin, in range or not, the tensor has no element exactly if the bin lies outside the
dimensions, where the table has no winner either; inside them it has minus one exactly if the bin
has no winner, and a number from zero on exactly if that is the position of its winner. Another
table that a pass has filled and that is written to the same tensor has the same dimensions and the
same cells. Looked up in row-major order of the bins, in the table or in the tensor, the cells are
those of the table in order. -/
theorem toTensor_agrees (hw : w.Filled α) (ht : w.toTensor = .ok t) :
    (∀ q, w.AgreesAt t q) ∧
    (∀ (β : Type) [Scalar β] (v : Winners), v.Filled β → v.toTensor = .ok t →
      v.dims = w.dims ∧ v.cells = w.cells) ∧
    (w.dims.positions.mapM fun q ↦ w.get q.region q.channel q.row q.column) =
      .ok w.cells.toList ∧
    w.dims.positions.map (fun q ↦ (t.get? q.toList).map unmark) = w.cells.toList.map some := by
  refine ⟨hw.agreesAt ht, fun β _ v hv hvt ↦ ⟨?_, ?_⟩, mapM_get ht, hw.map_get? ht⟩
  · have hshape := (toTensor_eq_ok_iff.1 ht).2.2.1
    have hvshape := (toTensor_eq_ok_iff.1 hvt).2.2.1
    exact PooledDims.shape_injective (hvshape.symm.trans hshape)
  · rw [← Array.toList_inj, ← hv.map_unmark hvt, hw.map_unmark ht]

/-- One region is won by the last element of the map, and another has no winner; the tensor says so
of both, and nothing of a third. -/
theorem toTensor_agrees_hollow :
    let map : Tensor (Binary .single) :=
      ⟨⟨[1, 1, 2, 2]⟩, #[.ofInt 5, .ofInt 6, .ofInt 7, .ofInt 8], rfl, by decide⟩
    let regions : List Region :=
      [⟨0, .zero, .zero, .ofInt 1, .ofInt 1⟩, ⟨0, .ofInt 9, .ofInt 9, .ofInt 9, .ofInt 9⟩]
    ∃ output w t, (pool map regions ⟨1, 1, .ofInt 1⟩).outcome = .ok (output, w) ∧
      w.Filled (Binary .single) ∧ w.toTensor = .ok t ∧
      (t.get? [0, 0, 0, 0]).map Int64.toInt = some 3 ∧
      (t.get? [1, 0, 0, 0]).map Int64.toInt = some (-1) ∧ t.get? [2, 0, 0, 0] = none := by
  intro map regions
  have hread : (pool map regions ⟨1, 1, .ofInt 1⟩).outcome.map
      (fun r ↦ (r.2.dims, r.2.cells, r.2.get 0 0 0 0, r.2.get 1 0 0 0)) =
        .ok (⟨2, 1, 1, 1⟩, #[some 3, none], .ok (some 3), .ok none) := by
    decide +kernel
  obtain ⟨output, w, hpool, hw⟩ := exists_outcome_pool_of_map hread
  simp only [Prod.mk.injEq] at hw
  obtain ⟨hdims, hcells, hwon, hhollow⟩ := hw
  have hfilled := filled_of_outcome_pool hpool
  obtain ⟨t, ht⟩ : ∃ t, w.toTensor = .ok t := Tensor.exists_ofArray_iff.2
    ⟨by rw [Array.size_map, hcells, hdims]; rfl, by rw [hdims]; decide⟩
  obtain ⟨hagrees, -⟩ := toTensor_agrees hfilled ht
  refine ⟨output, w, t, hpool, hfilled, ht, ((hagrees ⟨0, 0, 0, 0⟩).won 3).2 hwon,
    ((hagrees ⟨1, 0, 0, 0⟩).hollow ?_).2 hhollow, (hagrees ⟨2, 0, 0, 0⟩).outside.2 ?_⟩
  · rw [hdims]
    decide
  · rw [hdims]
    decide

end Winners

end RegionPooling
