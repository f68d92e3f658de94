import RegionPooling.Numeric.Decimal

/-!
# Regions of interest

A region names a batch entry and two corners in image coordinates; specification §3 and §10.6.
Equality of regions compares coordinates bit by bit, so that zeros of different sign differ; it is
the fingerprint of §10.8.
-/

namespace RegionPooling

/-- A rectangle in image coordinates, in one entry of a batch. -/
structure Region where
  batch : Nat
  x1 : Binary .single
  y1 : Binary .single
  x2 : Binary .single
  y2 : Binary .single
  deriving DecidableEq

namespace Region

/-- Coordinates in the order in which they are listed. -/
def coordinates (r : Region) : List (Binary .single) := [r.x1, r.y1, r.x2, r.y2]

/-- All four coordinates are numbers. -/
def isFinite (r : Region) : Bool := r.coordinates.all Binary.isFinite

/-- Text of a region, field by field. -/
def text (r : Region) : String :=
  "Roi \x7b batch_index: " ++ toString r.batch
    ++ ", x1: " ++ r.x1.text .detailed ++ ", y1: " ++ r.y1.text .detailed
    ++ ", x2: " ++ r.x2.text .detailed ++ ", y2: " ++ r.y2.text .detailed ++ " \x7d"

end Region

end RegionPooling
