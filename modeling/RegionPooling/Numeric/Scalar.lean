import RegionPooling.Numeric.Binary

/-!
# Element arithmetic

The operations that pooling needs of the elements of a map; specification §10.9 has all of it done
in the element type. Nothing is assumed about them here; floating-point numbers of either format are
an instance. Integers enter from grid coordinates and leave through the three grid roundings.
-/

namespace RegionPooling

/-- Arithmetic on the elements of a map. -/
class Scalar (α : Type) where
  zero : α
  nan : α
  isNaN : α → Bool
  lt : α → α → Bool
  add : α → α → α
  mul : α → α → α
  div : α → α → α
  ofInt : Int → α
  ofSingle : Binary .single → α
  floorGrid : α → Int
  ceilGrid : α → Int
  roundGrid : α → Int

instance (f : Format) : Scalar (Binary f) where
  zero := Binary.zero
  nan := Binary.nan
  isNaN := Binary.isNaN
  lt := Binary.lt
  add := Binary.add
  mul := Binary.mul
  div := Binary.div
  ofInt := Binary.ofInt
  ofSingle := Binary.convert
  floorGrid := Binary.floorGrid
  ceilGrid := Binary.ceilGrid
  roundGrid := Binary.roundGrid

end RegionPooling
