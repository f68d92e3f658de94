import RegionPooling.Proofs.Bins.Fit

/-!
# Bins of whole blocks

If the number of bins divides the length of an interval, and the length is exact in the format, then
nothing is rounded: the share is a whole number and so is every edge. Main statement: on a map that
contains the interval each bin is a block of as many cells as there are in a share. So a cell of the
interval lies in the bin that its distance from the start divided by the share names and in no
other, and no other cell of the map lies in a bin.
-/

namespace RegionPooling

/-- An interval lies on a map and is divided into bins of `size` cells each. Its length is at most a
full significand of the format. -/
structure Interval.InBlocks (f : Format) (i : Interval) (bins size limit : ℕ) : Prop where
  first_nonneg : 0 ≤ i.first
  last_le : i.first + i.length ≤ limit
  length_eq : i.length = size * bins
  length_le : i.length ≤ twoPow f.precision

/-- Cells of one of the blocks of `size` cells that follow each other from the start of an
interval. -/
def Interval.block (i : Interval) (size n : ℕ) : Span :=
  ⟨i.first.toNat + n * size, i.first.toNat + (n + 1) * size⟩

/-- A block of one cell holds this cell. -/
theorem Interval.toList_block_one (i : Interval) (n : ℕ) :
    (i.block 1 n).toList = [i.first.toNat + n] := by
  have hlength : i.first.toNat + (n + 1) - (i.first.toNat + n) = 1 := by omega
  rw [block, Span.toList, Nat.mul_one, Nat.mul_one, hlength, List.range'_one]

namespace Interval.InBlocks

variable {f : Format} {i : Interval} {bins size limit : ℕ}

/-- Neither the number of the bins nor their size is zero. -/
theorem pos (h : i.InBlocks f bins size limit) : 0 < bins ∧ 0 < size := by
  have hone := i.one_le_length
  rw [h.length_eq] at hone
  constructor <;> apply Nat.pos_of_ne_zero <;> rintro rfl <;> simp at hone

private theorem length_eq_cells (h : i.InBlocks f bins size limit) :
    i.length = (bins * size : ℕ) := by
  rw [h.length_eq, Int.mul_comm, Nat.cast_mul]

/-- The cells of all blocks lie on the map. -/
theorem add_lt_limit (h : i.InBlocks f bins size limit) {n : ℕ} (hn : n < bins * size) :
    i.first.toNat + n < limit := by
  have hfirst := h.first_nonneg
  have hlast := h.last_le
  rw [h.length_eq_cells] at hlast
  omega

private theorem mul_size_le (h : i.InBlocks f bins size limit) {n : ℕ} (hn : n ≤ bins) :
    n * size ≤ twoPow f.precision := by
  have hle := h.length_le
  rw [h.length_eq_cells] at hle
  calc n * size
    _ ≤ bins * size := Nat.mul_le_mul_right _ hn
    _ ≤ twoPow f.precision := by exact_mod_cast hle

private theorem le_twoPow (h : i.InBlocks f bins size limit) {n : ℕ} (hn : n ≤ bins) :
    n ≤ twoPow f.precision :=
  le_trans (Nat.le_mul_of_pos_right n h.pos.2) (h.mul_size_le hn)

/-- The number of bins is a size word. -/
theorem bins_le_twoPow (h : i.InBlocks f bins size limit) : bins ≤ twoPow 64 := by
  apply le_trans (h.le_twoPow le_rfl)
  cases f <;> decide

private theorem share_eq (h : i.InBlocks f bins size limit) : f.share i bins = size := by
  obtain ⟨hbins, -⟩ := h.pos
  have hsize : size ≤ twoPow f.precision := by
    have hone := h.mul_size_le hbins
    rwa [Nat.one_mul] at hone
  have hlength : f.nearest i.length = (bins * size : ℕ) := by
    rw [h.length_eq_cells, Int.cast_natCast, Format.nearest_natCast (h.mul_size_le le_rfl)]
  have hne : (bins : ℚ) ≠ 0 := by exact_mod_cast hbins.ne'
  have hquot : ((bins * size : ℕ) : ℚ) / bins = size := by
    push_cast
    field_simp
  rw [Format.share, hlength, Format.nearest_natCast (h.le_twoPow le_rfl), hquot,
    Format.nearest_natCast hsize]

private theorem edge_eq (h : i.InBlocks f bins size limit) {n : ℕ} (hn : n ≤ bins) :
    f.edge (f.share i bins) n = (n * size : ℕ) := by
  rw [h.share_eq, Format.edge, Format.nearest_natCast (h.le_twoPow hn), ← Nat.cast_mul,
    Format.nearest_natCast (h.mul_size_le hn)]

/-- The cells of the interval are those of its blocks. -/
theorem counts_iff (h : i.InBlocks f bins size limit) {cell : ℕ} :
    i.Counts cell ↔ i.first.toNat ≤ cell ∧ (cell - i.first.toNat) / size < bins := by
  have hfirst := h.first_nonneg
  rw [Nat.div_lt_iff_lt_mul h.pos.2, Counts, h.length_eq_cells]
  omega

end Interval.InBlocks

namespace BinAxis

variable {f : Format} {i : Interval} {bins size limit bin cell : ℕ}

private theorem saturate_edge (h : i.InBlocks f bins size limit) {n : ℕ} (hn : n ≤ bins) :
    saturate (n * size : ℕ) = (n * size : ℕ) := by
  have hgrid : (twoPow f.precision : ℤ) < gridMax := by cases f <;> decide
  have hle := h.mul_size_le hn
  exact saturate_of_mem (by unfold gridMin; omega) (by omega)

private theorem floorStart_eq_mul (h : i.InBlocks f bins size limit) (hbin : bin < bins) :
    (divide i bins : BinAxis (Binary f)).floorStart bin = (bin * size : ℕ) := by
  have hshare := hasShare_divide (f := f) i h.pos.1 h.bins_le_twoPow
  have hedge : ⌊f.edge (f.share i bins) bin⌋ = (bin * size : ℕ) := by
    rw [h.edge_eq hbin.le, Int.floor_natCast]
  rw [hshare.floorStart_eq (le_trans hbin.le h.bins_le_twoPow)]
  exact (congrArg saturate hedge).trans (saturate_edge h hbin.le)

private theorem ceilStop_eq_mul (h : i.InBlocks f bins size limit) (hbin : bin < bins) :
    (divide i bins : BinAxis (Binary f)).ceilStop bin = ((bin + 1) * size : ℕ) := by
  have hshare := hasShare_divide (f := f) i h.pos.1 h.bins_le_twoPow
  have hedge : ⌈f.edge (f.share i bins) (bin + 1 : ℕ)⌉ = ((bin + 1) * size : ℕ) := by
    rw [h.edge_eq hbin, Int.ceil_natCast]
  rw [hshare.ceilStop_eq (le_trans hbin h.bins_le_twoPow)]
  exact (congrArg saturate hedge).trans (saturate_edge h hbin)

/-- A bin of an interval that is divided into blocks covers its block. -/
theorem span_eq_block (h : i.InBlocks f bins size limit) (hl : limit ≤ storageLimit)
    (hbin : bin < bins) :
    (divide i bins : BinAxis (Binary f)).span limit bin = i.block size bin := by
  have hstart := floorStart_eq_mul h hbin
  have hstop := ceilStop_eq_mul h hbin
  have hbefore : bin * size ≤ (bin + 1) * size := Nat.mul_le_mul_right _ (Nat.le_succ bin)
  have hend : (bin + 1) * size ≤ bins * size := Nat.mul_le_mul_right _ hbin
  have hfirst := h.first_nonneg
  have hlast := h.last_le
  rw [h.length_eq_cells] at hlast
  have horigin : (divide i bins : BinAxis (Binary f)).origin = i.first := rfl
  unfold span Interval.block
  rw [hstart, hstop, horigin, Span.mk.injEq]
  simp only [clamp, saturate, gridMin, gridMax, storageLimit] at hl ⊢
  omega

/-- The bin of a cell is told by the number of whole blocks before it. -/
theorem mem_span_iff_block (h : i.InBlocks f bins size limit) (hl : limit ≤ storageLimit)
    (hbin : bin < bins) :
    cell ∈ ((divide i bins : BinAxis (Binary f)).span limit bin).toList ↔
      i.first.toNat ≤ cell ∧ (cell - i.first.toNat) / size = bin := by
  obtain ⟨-, hsize⟩ := h.pos
  have hdiv : (cell - i.first.toNat) / size = bin ↔
      bin * size ≤ cell - i.first.toNat ∧ cell - i.first.toNat < (bin + 1) * size := by
    rw [← Nat.le_div_iff_mul_le hsize, ← Nat.div_lt_iff_lt_mul hsize]
    omega
  have hnext : (bin + 1) * size = bin * size + size := Nat.succ_mul bin size
  rw [span_eq_block h hl hbin, Span.mem_toList, hdiv]
  simp only [Interval.block, hnext]
  omega

/-- Each cell of an interval that is divided into blocks lies in one bin alone. -/
theorem existsUnique_mem_span (h : i.InBlocks f bins size limit) (hl : limit ≤ storageLimit)
    (hcell : i.Counts cell) :
    ∃! bin, bin < bins ∧ cell ∈ ((divide i bins : BinAxis (Binary f)).span limit bin).toList := by
  obtain ⟨hfirst, hblock⟩ := h.counts_iff.1 hcell
  refine ⟨_, ⟨hblock, (mem_span_iff_block h hl hblock).2 ⟨hfirst, rfl⟩⟩, ?_⟩
  rintro bin ⟨hbin, hmem⟩
  exact ((mem_span_iff_block h hl hbin).1 hmem).2.symm

/-- The bins of an interval that is divided into blocks hold none but its cells. -/
theorem counts_of_mem_span (h : i.InBlocks f bins size limit) (hl : limit ≤ storageLimit)
    (hbin : bin < bins)
    (hmem : cell ∈ ((divide i bins : BinAxis (Binary f)).span limit bin).toList) :
    i.Counts cell := by
  obtain ⟨hfirst, rfl⟩ := (mem_span_iff_block h hl hbin).1 hmem
  exact h.counts_iff.2 ⟨hfirst, hbin⟩

end BinAxis

end RegionPooling
