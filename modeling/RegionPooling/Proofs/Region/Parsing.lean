import Mathlib.Algebra.Order.Floor.Semifield
import RegionPooling.Proofs.Layout.Positions
import RegionPooling.Proofs.Layout.RowMajor
import RegionPooling.Proofs.Layout.Steps
import RegionPooling.Proofs.Numeric.Exactness
import RegionPooling.Proofs.Numeric.WholeNumbers
import RegionPooling.Region.Rows

/-!
# Regions from the rows of a tensor

A tensor of regions is read at its index lists, five values to a row. Main statements: every shape
but that of such rows is refused; of the rows the first one whose batch value is no index is
refused; and if there is none, every row gives its region, in order. Single coordinates are taken
over as they are, and regions written to double rows are recovered. Specification §10.6.
-/

namespace RegionPooling

namespace Binary

variable {f : Format} {x : Binary f}

/-- A number is no index: it is not a number, infinite, or at most minus one. -/
def IsNoIndex (x : Binary f) : Prop :=
  x = nan ∨ (∃ negative, x = infinity negative) ∨ x.isFinite = true ∧ x.value ≤ -1

/-- Exactly what is no index is refused as an index. -/
theorem index?_eq_none_iff : x.index? = none ↔ x.IsNoIndex := by
  cases x with
  | nan => simp [index?, IsNoIndex]
  | infinity s => simp [index?, IsNoIndex]
  | finite s u h =>
    have hone := f.one_pos_rat
    cases s with
    | false =>
      have hvalue : (-1 : ℚ) < u / f.one := lt_of_lt_of_le neg_one_lt_zero (by positivity)
      simp [index?, IsNoIndex, isFinite, value, signed, hvalue]
    | true =>
      have hvalue : -(u : ℚ) / f.one ≤ -1 ↔ f.one ≤ u := by
        rw [div_le_iff₀ hone, neg_one_mul, neg_le_neg_iff, Nat.cast_le]
      simp [index?, IsNoIndex, isFinite, value, signed, hvalue]

/-- An index is the value without its fraction, zero for a negative one, and at most the greatest
size word. -/
theorem index?_eq_some (h : ¬ x.IsNoIndex) : x.index? = some (min ⌊x.value⌋₊ (2 ^ 64 - 1)) := by
  have hsome := mt index?_eq_none_iff.1 h
  cases x with
  | nan => exact absurd rfl hsome
  | infinity s => exact absurd rfl hsome
  | finite s u hu =>
    cases s with
    | false =>
      have hfloor : ⌊(u : ℚ) / f.one⌋₊ = u / f.one := Nat.floor_div_eq_div u f.one
      simp [index?, value, signed, hfloor, wordSize]
    | true =>
      have hneg : -(u : ℚ) / f.one ≤ 0 := by
        rw [neg_div]
        exact neg_nonpos.2 (by positivity)
      have hlt : ¬ f.one ≤ u := by simpa [index?] using hsome
      simp [index?, value, signed, Nat.floor_of_nonpos hneg, hlt]

private theorem convert_convert (x : Binary .single) :
    (convert (convert x : Binary .double)) = x := by
  cases x with
  | nan => rfl
  | infinity s => rfl
  | finite s u hu =>
    rw [convert_single hu, convert, Nat.mul_assoc, ← Format.one_double]
    exact ofRatio_mul_right s hu Format.double.one_pos

private theorem index?_ofInt {n : ℕ} (h : n ≤ twoPow f.precision) :
    (ofInt n : Binary f).index? = some n := by
  have hword : n ≤ wordSize - 1 := le_trans h (by cases f <;> decide)
  rw [ofInt_natCast h]
  simp [index?, Nat.mul_div_cancel n f.one_pos, hword]

end Binary

/-- One row of a tensor of regions. -/
structure RegionRow (α : Type) where
  batch : α
  x1 : α
  y1 : α
  x2 : α
  y2 : α

/-- The five values of a row in order. -/
def RegionRow.values {α : Type} (row : RegionRow α) : List α :=
  [row.batch, row.x1, row.y1, row.x2, row.y2]

/-- A tensor has rows of five values, each read at its row and column. -/
structure Tensor.HasRows {α : Type} (t : Tensor α) (rows : List (RegionRow α)) : Prop where
  shape : t.shape = ⟨[rows.length, 5]⟩
  value : ∀ i row, rows[i]? = some row → ∀ j < 5, t.get? [i, j] = row.values[j]?

namespace Tensor

variable {α : Type} {t : Tensor α} {n i j : ℕ} {rows : List (RegionRow α)} {row : RegionRow α}

private theorem size_data_rows (hshape : t.shape = ⟨[n, 5]⟩) : t.data.size = n * 5 := by
  rw [t.size_data, hshape]
  simp [Shape.count_cons, Shape.count_nil]

private theorem get?_row (hshape : t.shape = ⟨[n, 5]⟩) (hi : i < n) (hj : j < 5) :
    t.get? [i, j] = t.data[i * 5 + j]? := by
  have hin : t.shape.Contains [i, j] := by
    rw [hshape, Shape.contains_cons, Shape.contains_cons, Shape.contains_nil]
    exact ⟨hi, hj, rfl⟩
  rw [t.get?_of_contains hin, hshape]
  simp [Shape.place]

/-- A tensor of five columns has rows. -/
theorem exists_hasRows (hshape : t.shape = ⟨[n, 5]⟩) : ∃ rows, t.HasRows rows := by
  have hsize := size_data_rows hshape
  let value (i : Fin n) (j : Fin 5) : α :=
    have hlt : i.1 * 5 + j.1 < t.data.size := by omega
    t.data[i.1 * 5 + j.1]
  refine ⟨List.ofFn fun i ↦ ⟨value i 0, value i 1, value i 2, value i 3, value i 4⟩, ?_, ?_⟩
  · rw [hshape, List.length_ofFn]
  · intro i row hrow j hj
    obtain ⟨hi, rfl⟩ := List.getElem?_eq_some_iff.1 hrow
    rw [List.length_ofFn] at hi
    have hvalue : t.get? [i, j] = some (value ⟨i, hi⟩ ⟨j, hj⟩) := by
      rw [get?_row hshape hi hj]
      exact Array.getElem?_eq_getElem _
    rw [hvalue, List.getElem_ofFn]
    match j, hj with
    | 0, _ | 1, _ | 2, _ | 3, _ | 4, _ => rfl

private theorem hasRows_of_flatMap (hshape : t.shape = ⟨[rows.length, 5]⟩)
    (hdata : t.data.toList = rows.flatMap RegionRow.values) : t.HasRows rows := by
  refine ⟨hshape, fun i row hrow j hj ↦ ?_⟩
  rw [get?_row hshape (List.getElem?_eq_some_iff.1 hrow).1 hj, ← Array.getElem?_toList, hdata]
  exact getElem?_flatMap_block (fun _ _ ↦ rfl) hrow hj

private theorem HasRows.slice_eq (h : t.HasRows rows) (hrow : rows[i]? = some row) :
    slice t.data (i * Region.fields) Region.fields = .ok row.values.toArray := by
  have hi : i < rows.length := (List.getElem?_eq_some_iff.1 hrow).1
  have hsize := size_data_rows h.shape
  have hle : i * 5 + 5 ≤ t.data.size := by omega
  rw [Region.fields, slice_of_le hle]
  apply congrArg Except.ok
  apply Array.ext
  · rw [Array.size_extract]
    simp only [List.size_toArray, RegionRow.values, List.length_cons, List.length_nil]
    omega
  · intro j _ hj
    have hfive : j < 5 := hj
    have hread := h.value i row hrow j hfive
    rw [get?_row h.shape hi hfive, Array.getElem?_eq_getElem (by omega),
      List.getElem?_eq_getElem hj, Option.some.injEq] at hread
    rw [Array.getElem_extract, hread, List.getElem_toArray]

end Tensor

private theorem toDouble_double (x : Binary .double) :
    RegionValue.toDouble x = x := Binary.convert_self x

private theorem toSingle_single (x : Binary .single) :
    RegionValue.toSingle x = x := Binary.convert_self x

private theorem toSingle_convert (x : Binary .single) :
    RegionValue.toSingle (x.convert : Binary .double) = x :=
  Binary.convert_convert x

variable {α : Type} [RegionValue α]

namespace RegionRow

/-- A row is refused if its batch value is no index. -/
def IsRefused (row : RegionRow α) : Prop := (RegionValue.toDouble row.batch).IsNoIndex

/-- Region of a row: the batch value without its fraction, zero for a negative one and at most the
greatest size word, and the converted coordinates. -/
def region (row : RegionRow α) : Region where
  batch := min ⌊(RegionValue.toDouble row.batch).value⌋₊ (2 ^ 64 - 1)
  x1 := RegionValue.toSingle row.x1
  y1 := RegionValue.toSingle row.y1
  x2 := RegionValue.toSingle row.x2
  y2 := RegionValue.toSingle row.y2

/-- A row is the first one of its rows that is refused. -/
structure IsFirstRefused (rows : List (RegionRow α)) (i : ℕ) (row : RegionRow α) : Prop where
  mem : rows[i]? = some row
  refused : row.IsRefused
  earlier : ∀ j < i, ∀ other, rows[j]? = some other → ¬ other.IsRefused

private theorem exists_isFirstRefused_iff {rows : List (RegionRow α)} :
    (∃ i row, IsFirstRefused rows i row) ↔ ∃ row ∈ rows, row.IsRefused := by
  classical
  constructor
  · rintro ⟨i, row, h⟩
    exact ⟨row, List.mem_of_getElem? h.mem, h.refused⟩
  · rintro ⟨row, hmem, hrefused⟩
    obtain ⟨i, hi⟩ := List.mem_iff_getElem?.1 hmem
    have hex : ∃ i, ∃ row : RegionRow α, rows[i]? = some row ∧ row.IsRefused :=
      ⟨i, row, hi, hrefused⟩
    obtain ⟨first, hfirst, hfirstRefused⟩ := Nat.find_spec hex
    exact ⟨Nat.find hex, first, hfirst, hfirstRefused, fun j hj other hother hrefused ↦
      Nat.find_min hex hj ⟨other, hother, hrefused⟩⟩

/-- Row of double numbers for a region. -/
def ofRegion (r : Region) : RegionRow (Binary .double) :=
  ⟨.ofInt r.batch, r.x1.convert, r.y1.convert, r.x2.convert, r.y2.convert⟩

private theorem region_ofRegion {r : Region} (h : r.batch ≤ 2 ^ 53) :
    ¬ (ofRegion r).IsRefused ∧ (ofRegion r).region = r := by
  have hdouble := toDouble_double (ofRegion r).batch
  have hpow : twoPow Format.double.precision = 2 ^ 53 := by decide
  have hindex : (ofRegion r).batch.index? = some r.batch := by
    simp only [ofRegion]
    exact Binary.index?_ofInt (hpow.symm ▸ h)
  have haccepted : ¬ (ofRegion r).batch.IsNoIndex := by
    simp [← Binary.index?_eq_none_iff, hindex]
  refine ⟨by rwa [IsRefused, hdouble], ?_⟩
  rw [Binary.index?_eq_some haccepted, Option.some.injEq] at hindex
  rw [region, hdouble, hindex]
  simp only [ofRegion, toSingle_convert]

private theorem coordinates_region (row : RegionRow (Binary .single)) :
    row.region.coordinates = [row.x1, row.y1, row.x2, row.y2] := by
  simp only [Region.coordinates, region, toSingle_single]

end RegionRow

namespace Region

variable {t : Tensor α} {rows : List (RegionRow α)} {row : RegionRow α} {regions : List Region}
  {region : Region} {i n : ℕ} {e : Fault}

/-- Refusal of a row. -/
def refusal (i : ℕ) (row : RegionRow α) : Fault :=
  .rejected ⟨"rois_from_tensor", .region i (.notAnIndex (RegionValue.toDouble row.batch))⟩

/-- Region of a row of a tensor, by the number of the row. -/
def readRow (t : Tensor α) (i : ℕ) : Except Fault Region := do
  let values ← slice t.data (i * fields) fields
  ofRow i values.toList

/-- The regions of a tensor of five columns are read row by row. -/
theorem ofTensor_eq (h : t.shape = ⟨[n, 5]⟩) :
    ofTensor t = (List.range n).mapM (readRow t) := by
  simp only [ofTensor, h, fields]
  rfl

private theorem ofTensor_of_shape (h : ¬ ∃ n, t.shape = ⟨[n, 5]⟩) : ofTensor t =
    .error (.rejected ⟨"rois_from_tensor", .shape (.regionRows t.shape) (some t.shape)⟩) := by
  unfold ofTensor
  split
  · next rows columns hdims =>
    rw [if_neg]
    · rfl
    · rintro rfl
      exact h ⟨rows, congrArg Shape.mk hdims⟩
  · rfl

/-- A row that is refused has no region. -/
theorem readRow_of_isRefused (h : t.HasRows rows) (hrow : rows[i]? = some row)
    (hrefused : row.IsRefused) : readRow t i = .error (refusal i row) := by
  rw [readRow, h.slice_eq hrow]
  simp only [bind, Except.bind, RegionRow.values, ofRow, Binary.index?_eq_none_iff.2 hrefused]
  rfl

/-- Any other row has its region. -/
theorem readRow_of_not_isRefused (h : t.HasRows rows) (hrow : rows[i]? = some row)
    (haccepted : ¬ row.IsRefused) : readRow t i = .ok row.region := by
  rw [readRow, h.slice_eq hrow]
  simp only [bind, Except.bind, RegionRow.values, ofRow, Binary.index?_eq_some haccepted]
  rfl

/-- The regions of a tensor are those of its rows in order, if none of the rows is refused. -/
theorem ofTensor_eq_ok_iff (h : t.HasRows rows) : ofTensor t = .ok regions ↔
    (∀ row ∈ rows, ¬ row.IsRefused) ∧ regions = rows.map RegionRow.region := by
  rw [ofTensor_eq h.shape, mapM_range_eq_ok_iff]
  constructor
  · rintro ⟨hlength, heach⟩
    have hread (i : ℕ) (hi : i < regions.length) (hi' : i < rows.length) :
        ¬ rows[i].IsRefused ∧ regions[i] = rows[i].region := by
      have hi := heach i hi
      by_cases hrefused : rows[i].IsRefused
      · rw [readRow_of_isRefused h (List.getElem?_eq_getElem hi') hrefused] at hi
        cases hi
      · rw [readRow_of_not_isRefused h (List.getElem?_eq_getElem hi') hrefused] at hi
        exact ⟨hrefused, (Except.ok.inj hi).symm⟩
    constructor
    · intro row hrow
      obtain ⟨i, hi, rfl⟩ := List.getElem_of_mem hrow
      exact (hread i (hlength ▸ hi) hi).1
    · apply List.ext_getElem (by rw [hlength, List.length_map])
      intro i hi hi'
      rw [List.length_map] at hi'
      rw [List.getElem_map, (hread i hi hi').2]
  · rintro ⟨haccepted, rfl⟩
    refine ⟨List.length_map _, fun i hi ↦ ?_⟩
    rw [List.length_map] at hi
    rw [List.getElem_map]
    exact readRow_of_not_isRefused h (List.getElem?_eq_getElem hi)
      (haccepted _ (List.getElem_mem hi))

/-- A tensor with rows is refused exactly for the first of them that is. -/
theorem ofTensor_eq_error_iff (h : t.HasRows rows) :
    ofTensor t = .error e ↔ ∃ i row, RegionRow.IsFirstRefused rows i row ∧ e = refusal i row := by
  rw [ofTensor_eq h.shape, mapM_range_eq_error_iff]
  constructor
  · rintro ⟨i, hi, hfail, hbefore⟩
    have hrow := List.getElem?_eq_getElem hi
    by_cases hrefused : rows[i].IsRefused
    · rw [readRow_of_isRefused h hrow hrefused] at hfail
      refine ⟨i, rows[i], ⟨hrow, hrefused, fun j hj other hother hotherRefused ↦ ?_⟩,
        (Except.error.inj hfail).symm⟩
      obtain ⟨region, hregion⟩ := hbefore j hj
      rw [readRow_of_isRefused h hother hotherRefused] at hregion
      cases hregion
    · rw [readRow_of_not_isRefused h hrow hrefused] at hfail
      cases hfail
  · rintro ⟨i, row, hfirst, rfl⟩
    have hi := (List.getElem?_eq_some_iff.1 hfirst.mem).1
    refine ⟨i, hi, readRow_of_isRefused h hfirst.mem hfirst.refused, fun j hj ↦ ?_⟩
    have hother := List.getElem?_eq_getElem (hj.trans hi)
    exact ⟨_, readRow_of_not_isRefused h hother (hfirst.earlier j hj _ hother)⟩

private theorem exists_ofTensor_eq_error_iff (h : t.HasRows rows) :
    (∃ e, ofTensor t = .error e) ↔ ∃ row ∈ rows, row.IsRefused := by
  rw [← RegionRow.exists_isFirstRefused_iff]
  constructor
  · rintro ⟨e, he⟩
    obtain ⟨i, row, hfirst, -⟩ := (ofTensor_eq_error_iff h).1 he
    exact ⟨i, row, hfirst⟩
  · rintro ⟨i, row, hfirst⟩
    exact ⟨_, (ofTensor_eq_error_iff h).2 ⟨i, row, hfirst, rfl⟩⟩

/-- A tensor is refused for its shape exactly if it has not five columns. -/
theorem ofTensor_eq_shape_error_iff : ofTensor t = .error (.rejected
      ⟨"rois_from_tensor", .shape (.regionRows t.shape) (some t.shape)⟩) ↔
    ¬ ∃ n, t.shape = ⟨[n, 5]⟩ := by
  constructor
  · rintro he ⟨n, hn⟩
    obtain ⟨rows, hrows⟩ := Tensor.exists_hasRows hn
    obtain ⟨i, row, -, hrefusal⟩ := (ofTensor_eq_error_iff hrows).1 he
    cases hrefusal
  · exact ofTensor_of_shape

/-- A tensor of values of any kind is refused for its shape, and with it, exactly if it has not two
axes of which the second is five long; any other has rows. With rows it is refused exactly if the
batch value of one of them, as a double number, is not a number, infinite or at most minus one, and
the refusal names the first such row. Otherwise it gives one region for each row, in order, with the
batch value without its fraction, zero for a negative one and at most the greatest size word, and
with the coordinates as single numbers. Coordinates of single tensors are those of the rows, and
regions whose batch entries are below two to the power 53 are recovered from double rows. -/
theorem ofTensor_exact :
    (∀ (α : Type) [RegionValue α] (t : Tensor α),
      (ofTensor t = .error (.rejected
          ⟨"rois_from_tensor", .shape (.regionRows t.shape) (some t.shape)⟩) ↔
        ¬ ∃ n, t.shape = ⟨[n, 5]⟩) ∧
      ((∃ n, t.shape = ⟨[n, 5]⟩) ↔ ∃ rows, t.HasRows rows) ∧
      ∀ rows, t.HasRows rows →
        ((∃ e, ofTensor t = .error e) ↔ ∃ row ∈ rows, row.IsRefused) ∧
        (∀ e, ofTensor t = .error e ↔
          ∃ i row, RegionRow.IsFirstRefused rows i row ∧ e = refusal i row) ∧
        ∀ regions, ofTensor t = .ok regions ↔
          (∀ row ∈ rows, ¬ row.IsRefused) ∧ regions = rows.map RegionRow.region) ∧
    (∀ (t : Tensor (Binary .single)) (rows : List (RegionRow (Binary .single)))
      (regions : List Region), t.HasRows rows → ofTensor t = .ok regions →
        regions.map coordinates = rows.map fun row ↦ [row.x1, row.y1, row.x2, row.y2]) ∧
    ∀ (t : Tensor (Binary .double)) (regions : List Region),
      (∀ r ∈ regions, r.batch < 2 ^ 53) → t.HasRows (regions.map RegionRow.ofRegion) →
        ofTensor t = .ok regions := by
  refine ⟨fun α _ t ↦ ⟨ofTensor_eq_shape_error_iff, ?_, fun rows hrows ↦
    ⟨exists_ofTensor_eq_error_iff hrows, fun e ↦ ofTensor_eq_error_iff hrows,
      fun regions ↦ ofTensor_eq_ok_iff hrows⟩⟩, ?_, ?_⟩
  · constructor
    · rintro ⟨n, hn⟩
      exact Tensor.exists_hasRows hn
    · rintro ⟨rows, hrows⟩
      exact ⟨_, hrows.shape⟩
  · intro t rows regions hrows hregions
    obtain ⟨-, rfl⟩ := (ofTensor_eq_ok_iff hrows).1 hregions
    rw [List.map_map]
    exact List.map_congr_left fun row _ ↦ row.coordinates_region
  · intro t regions hbatch hrows
    refine (ofTensor_eq_ok_iff hrows).2 ⟨?_, ?_⟩
    · intro row hrow
      obtain ⟨r, hr, rfl⟩ := List.mem_map.1 hrow
      exact (RegionRow.region_ofRegion (hbatch r hr).le).1
    · rw [List.map_map]
      conv_lhs => rw [← List.map_id regions]
      exact List.map_congr_left fun r hr ↦ (RegionRow.region_ofRegion (hbatch r hr).le).2.symm

/-- A row of batch value minus a half is accepted, the next one of minus one is refused; and two
regions are recovered from their double rows, one of them of the greatest batch entry that is held
exactly together with the next one. -/
theorem ofTensor_exact_second_row :
    let first : RegionRow (Binary .single) :=
      ⟨.ofFraction (-1) 2, .ofInt 1, .ofInt 2, .ofInt 3, .ofInt 4⟩
    let second : RegionRow (Binary .single) :=
      ⟨.ofInt (-1), .ofInt 5, .ofInt 6, .ofInt 7, .ofInt 8⟩
    let regions : List Region := [⟨3, .ofInt 1, .ofFraction 1 2, .ofInt 2, .ofInt 4⟩,
      ⟨2 ^ 53 - 1, .ofInt 0, .ofInt (-9), .infinity true, .nan⟩]
    let single : Tensor (Binary .single) :=
      ⟨⟨[2, 5]⟩, (first.values ++ second.values).toArray, rfl, by decide⟩
    let double : Tensor (Binary .double) :=
      ⟨⟨[2, 5]⟩, (regions.flatMap fun r ↦ (RegionRow.ofRegion r).values).toArray, rfl, by decide⟩
    ofTensor single = .error (refusal 1 second) ∧ first.region.batch = 0 ∧
      ofTensor double = .ok regions := by
  intro first second regions single double
  obtain ⟨hany, -, hdouble⟩ := ofTensor_exact
  have hrows : single.HasRows [first, second] := Tensor.hasRows_of_flatMap rfl rfl
  have hfirst : ¬ first.IsRefused := by
    rw [RegionRow.IsRefused, ← Binary.index?_eq_none_iff]
    decide +kernel
  have hsecond : second.IsRefused := by
    rw [RegionRow.IsRefused, ← Binary.index?_eq_none_iff]
    decide +kernel
  have hfirstRefused : RegionRow.IsFirstRefused [first, second] 1 second := by
    refine ⟨rfl, hsecond, fun j hj other hother ↦ ?_⟩
    obtain rfl : j = 0 := by omega
    obtain rfl := Option.some.inj hother
    exact hfirst
  obtain ⟨-, -, hread⟩ := hany (Binary .single) single
  obtain ⟨-, herror, -⟩ := hread _ hrows
  refine ⟨(herror _).2 ⟨1, second, hfirstRefused, rfl⟩, ?_, hdouble double regions ?_ ?_⟩
  · decide +kernel
  · decide
  · exact Tensor.hasRows_of_flatMap rfl rfl

end Region

end RegionPooling
