import Mathlib.Tactic.MkIffOfInductiveProp
import RegionPooling.Pooling.Buffers
import RegionPooling.Proofs.Layout.Positions
import RegionPooling.Proofs.Layout.Steps

/-!
# Counting bins

The bins of a pooled result are counted for its values and once more for its winners, and every
product that is formed on the way must be a size word. Main statement: allocating buffers of a shape
gives fresh ones if the result can be counted, and otherwise ends in an overflow. Every result that
fits into storage can be counted. With rows and columns a result can be counted exactly if its
number of regions, the bins of a channel, those of a region and those of all regions are size words.
Specification §10.7.
-/

namespace RegionPooling

/-- A product that fits into storage is formed. -/
theorem times_eq_ok {m n : ℕ} (h : m * n ≤ storageLimit) : times m n = .ok (m * n) :=
  times_eq_ok_iff.2 ⟨lt_of_le_of_lt h (by decide), rfl⟩

namespace PooledDims

variable {d : PooledDims}

/-- Every product that is formed to count the bins of a result is a size word. -/
@[mk_iff]
structure Countable (d : PooledDims) : Prop where
  regions : d.regions < wordSize
  planes : d.regions * d.channels < wordSize
  rows : d.regions * d.channels * d.height < wordSize
  plane : d.height * d.width < wordSize
  entry : d.channels * (d.height * d.width) < wordSize
  count : d.shape.count < wordSize

instance (d : PooledDims) : Decidable d.Countable :=
  decidable_of_iff _ (countable_iff d).symm

/-- A result that fits into storage can be counted. -/
theorem countable_of_fits (h : d.shape.occupied ≤ storageLimit) : d.Countable := by
  have hword {n : ℕ} (hn : n ≤ storageLimit) : n < wordSize := lt_of_le_of_lt hn (by decide)
  have hproduct (some : List ℕ) (hsome : some.Sublist d.toList) :
      (Shape.mk some).count < wordSize := hword (le_trans (Shape.count_le_of_sublist hsome) h)
  have hregions := hproduct [d.regions] (by simp [toList])
  have hplanes := hproduct [d.regions, d.channels] (by simp [toList])
  have hrows := hproduct [d.regions, d.channels, d.height] (by simp [toList])
  have hplane := hproduct [d.height, d.width] (by simp [toList])
  have hentry := hproduct [d.channels, d.height, d.width] (by simp [toList])
  simp only [Shape.count_cons, Shape.count_nil, mul_one] at hregions hplanes hrows hplane hentry
  refine ⟨hregions, hplanes, ?_, hplane, hentry, hproduct d.toList (List.Sublist.refl _)⟩
  rw [Nat.mul_assoc]
  exact hrows

/-- A result with rows and columns can be counted if its number of regions and the bins of a
channel, of a region and of all regions are size words. -/
theorem countable_iff_of_pos (hheight : 0 < d.height) (hwidth : 0 < d.width) :
    d.Countable ↔ d.regions < wordSize ∧ d.height * d.width < wordSize ∧
      d.channels * (d.height * d.width) < wordSize ∧
        d.regions * (d.channels * (d.height * d.width)) < wordSize := by
  rw [countable_iff, count_shape]
  constructor
  · rintro ⟨hregions, -, -, hplane, hentry, hall⟩
    exact ⟨hregions, hplane, hentry, hall⟩
  · rintro ⟨hregions, hplane, hentry, hall⟩
    -- a product without its last factors is no greater, as these are not zero
    have hassoc : d.regions * (d.channels * (d.height * d.width)) =
        d.regions * d.channels * d.height * d.width := by ring
    have hrows : d.regions * d.channels * d.height < wordSize :=
      lt_of_le_of_lt (hassoc ▸ Nat.le_mul_of_pos_right _ hwidth) hall
    have hplanes : d.regions * d.channels < wordSize :=
      lt_of_le_of_lt (Nat.le_mul_of_pos_right _ hheight) hrows
    exact ⟨hregions, hplanes, hrows, hplane, hentry, hall⟩

end PooledDims

namespace Winners

/-- Table without winners, with one cell for each bin. -/
def blank (d : PooledDims) : Winners := ⟨d, Array.replicate d.shape.count none, none⟩

/-- A table is formed without winners if the products of its first dimensions are size words. -/
theorem empty_eq_ok_iff {d : PooledDims} {w : Winners} :
    empty d = .ok w ↔ d.regions < wordSize ∧ d.regions * d.channels < wordSize ∧
      d.regions * d.channels * d.height < wordSize ∧ d.shape.count < wordSize ∧ blank d = w := by
  have hcount : d.shape.count = d.regions * d.channels * d.height * d.width := by
    rw [PooledDims.count_shape]
    ring
  simp only [empty, product, PooledDims.toList, List.foldlM_cons, List.foldlM_nil, bind_eq_ok_iff,
    times_eq_ok_iff, pure, Except.pure, Except.ok.injEq, one_mul]
  constructor
  · rintro ⟨_, ⟨_, ⟨hregions, rfl⟩, _, ⟨hplanes, rfl⟩, _, ⟨hrows, rfl⟩, _, ⟨hall, rfl⟩, rfl⟩, rfl⟩
    exact ⟨hregions, hplanes, hrows, hcount ▸ hall, by rw [blank, hcount]⟩
  · rintro ⟨hregions, hplanes, hrows, hall, rfl⟩
    exact ⟨_, ⟨_, ⟨hregions, rfl⟩, _, ⟨hplanes, rfl⟩, _, ⟨hrows, rfl⟩, _, ⟨hcount ▸ hall, rfl⟩,
      rfl⟩, by rw [blank, hcount]⟩

/-- Tables without winners are formed for dimensions that can be counted. -/
theorem empty_eq_ok {d : PooledDims} (h : d.Countable) : empty d = .ok (blank d) :=
  empty_eq_ok_iff.2 ⟨h.regions, h.planes, h.rows, h.count, rfl⟩

private theorem eq_overflow_of_empty {d : PooledDims} {fault : Fault} (h : empty d = .error fault) :
    fault = .overflow := by
  simp only [empty, product, PooledDims.toList, List.foldlM_cons, List.foldlM_nil,
    bind_eq_error_iff, times_eq_error_iff, pure, Except.pure, reduceCtorEq, and_false,
    exists_false, or_false] at h
  rcases h with ⟨-, h⟩ | ⟨_, -, ⟨-, h⟩ | ⟨_, -, ⟨-, h⟩ | ⟨_, -, -, h⟩⟩⟩ <;> exact h

end Winners

namespace PooledShape

variable {s : PooledShape} {regions : ℕ}

/-- The bins of one region are counted exactly. -/
theorem cellsPerRegion_eq_ok_iff {each : ℕ} :
    s.cellsPerRegion = .ok each ↔ s.config.height * s.config.width < wordSize ∧
      s.channels * (s.config.height * s.config.width) < wordSize ∧
        s.channels * (s.config.height * s.config.width) = each := by
  simp only [cellsPerRegion, PoolConfig.bins, bind_eq_ok_iff, times_eq_ok_iff]
  constructor
  · rintro ⟨_, ⟨hplane, rfl⟩, heach⟩
    exact ⟨hplane, heach⟩
  · rintro ⟨hplane, heach⟩
    exact ⟨_, ⟨hplane, rfl⟩, heach⟩

/-- The bins of a region of a result that can be counted are counted. -/
theorem cellsPerRegion_of_countable (h : (s.dims regions).Countable) :
    s.cellsPerRegion = .ok (s.channels * (s.config.height * s.config.width)) :=
  cellsPerRegion_eq_ok_iff.2 ⟨h.plane, h.entry, rfl⟩

/-- The bins of a number of regions are counted exactly. -/
theorem cells_eq_ok_iff {cells : ℕ} :
    s.cells regions = .ok cells ↔ (∃ each, s.cellsPerRegion = .ok each) ∧
      (s.dims regions).shape.count < wordSize ∧ (s.dims regions).shape.count = cells := by
  simp only [PooledShape.cells, bind_eq_ok_iff, times_eq_ok_iff, PooledDims.count_shape, dims,
    cellsPerRegion_eq_ok_iff]
  constructor
  · rintro ⟨_, ⟨hplane, hentry, rfl⟩, hcells⟩
    exact ⟨⟨_, hplane, hentry, rfl⟩, hcells⟩
  · rintro ⟨⟨_, hplane, hentry, rfl⟩, hcells⟩
    exact ⟨_, ⟨hplane, hentry, rfl⟩, hcells⟩

variable {α : Type} [Scalar α]

/-- Buffers of a shape before any pass: a zero and no winner for every bin. -/
def fresh (α : Type) [Scalar α] (s : PooledShape) (regions : ℕ) : Buffers α :=
  ⟨s, regions, Array.replicate (s.dims regions).shape.count Scalar.zero, .blank (s.dims regions)⟩

/-- Allocation gives fresh buffers if the result can be counted. -/
theorem allocate_eq_ok_iff {b : Buffers α} :
    s.allocate regions = .ok b ↔ (s.dims regions).Countable ∧ s.fresh α regions = b := by
  simp only [allocate, bind_eq_ok_iff, cells_eq_ok_iff, cellsPerRegion_eq_ok_iff,
    Winners.empty_eq_ok_iff, pure, Except.pure, Except.ok.injEq]
  constructor
  · rintro ⟨_, ⟨⟨_, hplane, hentry, -⟩, -, rfl⟩, _, ⟨hregions, hplanes, hrows, hcount, rfl⟩, rfl⟩
    exact ⟨⟨hregions, hplanes, hrows, hplane, hentry, hcount⟩, rfl⟩
  · rintro ⟨⟨hregions, hplanes, hrows, hplane, hentry, hcount⟩, rfl⟩
    exact ⟨_, ⟨⟨_, hplane, hentry, rfl⟩, hcount, rfl⟩, _, ⟨hregions, hplanes, hrows, hcount, rfl⟩,
      rfl⟩

/-- Fresh buffers are allocated for a result that can be counted. -/
theorem allocate_eq_ok (h : (s.dims regions).Countable) :
    s.allocate regions = .ok (s.fresh α regions) := allocate_eq_ok_iff.2 ⟨h, rfl⟩

/-- Allocation ends in an overflow if the result cannot be counted. -/
theorem allocate_of_not_countable (h : ¬ (s.dims regions).Countable) :
    (s.allocate regions : Except Fault (Buffers α)) = .error .overflow := by
  cases hend : (s.allocate regions : Except Fault (Buffers α)) with
  | ok b => exact absurd (allocate_eq_ok_iff.1 hend).1 h
  | error fault =>
    simp only [allocate, PooledShape.cells, cellsPerRegion, PoolConfig.bins, bind_eq_error_iff,
      times_eq_error_iff, pure, Except.pure, reduceCtorEq, exists_false, or_false,
      and_false] at hend
    rcases hend with ((⟨-, rfl⟩ | ⟨_, -, -, rfl⟩) | ⟨_, -, -, rfl⟩) | ⟨_, -, hempty⟩
    · rfl
    · rfl
    · rfl
    · rw [Winners.eq_overflow_of_empty hempty]

end PooledShape

end RegionPooling
