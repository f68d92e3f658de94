import RegionPooling.Numeric.Scalar
import RegionPooling.Region.Basic

/-!
# Boxes on the grid of a map

A region is projected onto the grid of a feature map by scaling and rounding each coordinate. A box
is one interval of rows and one of columns. Both ends belong to an interval; a reversed interval is
kept as it is but counts as one cell long. All interval arithmetic saturates. Specification §4.2,
steps 1 and 2, and §10.6.
-/

namespace RegionPooling

/-- Grid cells from `first` to `last`, both included. -/
structure Interval where
  first : Int
  last : Int
  deriving DecidableEq, Repr

namespace Interval

/-- Number of cells, at least one: the guard of §4.2, step 2. -/
def length (i : Interval) : Int := max (saturate (saturate (i.last - i.first) + 1)) 1

/-- Whether a cell lies between the ends. -/
def contains (i : Interval) (cell : Int) : Bool := decide (i.first ≤ cell ∧ cell ≤ i.last)

/-- Every interval counts as at least one cell. -/
@[simp] theorem one_le_length (i : Interval) : 1 ≤ i.length := by
  simp only [length]; omega

/-- Every length is a grid coordinate. -/
@[simp] theorem length_le_gridMax (i : Interval) : i.length ≤ gridMax := by
  have := saturate_le_gridMax (saturate (i.last - i.first) + 1)
  simp only [length, gridMax] at *
  omega

/-- An interval holds the cells from its first to its last. -/
@[simp] theorem contains_iff {i : Interval} {cell : Int} :
    i.contains cell = true ↔ i.first ≤ cell ∧ cell ≤ i.last := decide_eq_true_iff

end Interval

/-- Rectangle of grid cells. -/
structure Box where
  rows : Interval
  columns : Interval
  deriving DecidableEq, Repr

namespace Box

/-- Number of rows. -/
def height (b : Box) : Int := b.rows.length

/-- Number of columns. -/
def width (b : Box) : Int := b.columns.length

/-- Whether a cell lies between the corners; `contains`, §10.6. -/
def contains (b : Box) (row column : Int) : Bool :=
  b.columns.contains column && b.rows.contains row

end Box

/-- Grid coordinate of an image coordinate, §4.2, step 1: the product with the scale, formed in `α`
and rounded half away from zero. -/
def project (α : Type) [Scalar α] (scale coordinate : Binary .single) : Int :=
  Scalar.roundGrid (Scalar.mul (Scalar.ofSingle coordinate) (Scalar.ofSingle scale) : α)

/-- Box of a region on a map, the products formed in `α`; `scaled_as`, §10.6. -/
def Region.box (α : Type) [Scalar α] (r : Region) (scale : Binary .single) : Box where
  rows := ⟨project α scale r.y1, project α scale r.y2⟩
  columns := ⟨project α scale r.x1, project α scale r.x2⟩

end RegionPooling
