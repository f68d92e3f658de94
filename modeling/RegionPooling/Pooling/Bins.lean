import RegionPooling.Config
import RegionPooling.Region.Box

/-!
# Bins of a region

A box is divided into bins along each axis on its own. A bin covers the cells from the rounded-down
start of its share to the rounded-up end, shifted to the origin of the box and clamped to the map,
so that neighbouring bins may share a cell. The size of a share is a quotient in the arithmetic of
the map's elements. Specification §4.2, steps 3 and 4, and §10.9.

`BinAxis.candidates` goes the other way: it bounds the bins that may contain a given cell.
-/

namespace RegionPooling

/-- Positions from `start` up to and not including `stop`. -/
structure Span where
  start : Nat
  stop : Nat
  deriving DecidableEq, Repr

namespace Span

/-- Whether a span has no position. -/
def isEmpty (s : Span) : Bool := decide (s.stop ≤ s.start)

/-- Positions in ascending order. -/
def toList (s : Span) : List Nat := List.range' s.start (s.stop - s.start)

/-- A span holds the positions from its start up to its stop. -/
@[simp] theorem mem_toList {s : Span} {i : Nat} : i ∈ s.toList ↔ s.start ≤ i ∧ i < s.stop := by
  simp only [toList, List.mem_range'_1]; omega

/-- An empty span has no positions. -/
@[simp] theorem toList_eq_nil_iff {s : Span} : s.toList = [] ↔ s.isEmpty = true := by
  simp only [toList, isEmpty, List.range'_eq_nil_iff, decide_eq_true_iff]; omega

end Span

/-- Grid coordinate moved into the range from zero to a limit; §4.2, step 4. -/
def clamp (limit : Nat) (v : Int) : Nat := (max 0 (min v limit)).toNat

/-- Clamping stays within the limit. -/
@[simp] theorem clamp_le (limit : Nat) (v : Int) : clamp limit v ≤ limit := by
  simp only [clamp]; omega

/-- Clamping keeps order. -/
theorem clamp_mono (limit : Nat) {v w : Int} (h : v ≤ w) : clamp limit v ≤ clamp limit w := by
  simp only [clamp]; omega

/-- Division of an interval into bins: its first cell, and the size of each share. -/
structure BinAxis (α : Type) where
  origin : Int
  share : α

namespace BinAxis

variable {α : Type} [Scalar α]

/-- Division of an interval into a number of equal shares; §4.2, step 3. -/
def divide (i : Interval) (bins : Nat) : BinAxis α where
  origin := i.first
  share := Scalar.div (Scalar.ofInt i.length) (Scalar.ofInt bins)

/-- Start of a bin relative to the interval; §4.2, step 4. -/
def floorStart (a : BinAxis α) (bin : Nat) : Int :=
  Scalar.floorGrid (Scalar.mul (Scalar.ofInt bin) a.share)

/-- End of a bin relative to the interval; §4.2, step 4. -/
def ceilStop (a : BinAxis α) (bin : Nat) : Int :=
  Scalar.ceilGrid (Scalar.mul (Scalar.ofInt (bin + 1 : Nat)) a.share)

/-- Cells of a bin on a map that is `limit` cells long; §4.2, step 4, and §10.6 for the sums. -/
def span (a : BinAxis α) (limit bin : Nat) : Span where
  start := clamp limit (saturate (a.floorStart bin + a.origin))
  stop := clamp limit (saturate (a.ceilStop bin + a.origin))

/-- Bins that may contain a cell; the feasible bins of §10.10. No bin starts before the interval;
the quotients are widened by one bin at either end, since a last bin that was rounded up reaches
past the interval. -/
def candidates (a : BinAxis α) (bins cell : Nat) : Span :=
  let offset := saturate (cell - a.origin)
  let first := Scalar.floorGrid (Scalar.div (Scalar.ofInt offset) a.share)
  let last := Scalar.ceilGrid (Scalar.div (Scalar.ofInt (saturate (offset + 1))) a.share)
  if offset < 0 then ⟨0, 0⟩
  else ⟨clamp bins (saturate (first - 1)), clamp bins (saturate (last + 1))⟩

/-- Candidates are bins of the axis. -/
@[simp] theorem candidates_stop_le (a : BinAxis α) (bins cell : Nat) :
    (a.candidates bins cell).stop ≤ bins := by
  unfold candidates
  dsimp only
  split
  · exact Nat.zero_le _
  · exact clamp_le bins _

/-- A bin ends inside the map. -/
@[simp] theorem span_stop_le (a : BinAxis α) (limit bin : Nat) : (a.span limit bin).stop ≤ limit :=
  clamp_le limit _

end BinAxis

/-- Rectangle of map cells covered by a bin. -/
structure BinExtent where
  rows : Span
  columns : Span
  deriving DecidableEq, Repr

namespace BinExtent

/-- Whether a bin covers no cell; §4.2, step 5. -/
def isEmpty (e : BinExtent) : Bool := e.rows.isEmpty || e.columns.isEmpty

/-- Plane positions of the covered cells in raster order, on a map of a given width. -/
def offsets (e : BinExtent) (width : Nat) : List Nat :=
  e.rows.toList.flatMap fun row => e.columns.toList.map fun column => row * width + column

/-- The covered positions are those of a covered row and column. -/
theorem mem_offsets {e : BinExtent} {width k : Nat} :
    k ∈ e.offsets width ↔ ∃ row ∈ e.rows.toList, ∃ column ∈ e.columns.toList,
      row * width + column = k := by
  simp only [offsets, List.mem_flatMap, List.mem_map]

end BinExtent

/-- Division of a box into bins, row axis and column axis. -/
structure BinGrid (α : Type) where
  rows : BinAxis α
  columns : BinAxis α

namespace BinGrid

variable {α : Type} [Scalar α]

/-- Bins of a region under a configuration. -/
def ofRegion (r : Region) (config : PoolConfig) : BinGrid α where
  rows := .divide (r.box α config.scale).rows config.height
  columns := .divide (r.box α config.scale).columns config.width

/-- Cells of one bin on a map. -/
def extent (g : BinGrid α) (height width row column : Nat) : BinExtent :=
  ⟨g.rows.span height row, g.columns.span width column⟩

/-- Cells of every bin on a map, bins in raster order. -/
def extents (g : BinGrid α) (config : PoolConfig) (height width : Nat) : List BinExtent :=
  let rows := (List.range config.height).map (g.rows.span height)
  let columns := (List.range config.width).map (g.columns.span width)
  rows.flatMap fun row => columns.map fun column => ⟨row, column⟩

/-- The bins are listed in raster order. -/
theorem extents_eq (g : BinGrid α) (config : PoolConfig) (height width : Nat) :
    g.extents config height width =
      (List.range config.height).flatMap fun row =>
        (List.range config.width).map (g.extent height width row) := by
  simp only [extents, List.flatMap_map, List.map_map]
  rfl

end BinGrid

end RegionPooling
