import RegionPooling.Tensor.Basic

/-!
# Regions read from a tensor

A tensor of regions has one row of five values per region: the batch entry and the four
coordinates. The batch value is truncated toward zero; it is refused if it is not a finite number
above minus one. The first row refused decides the answer. Specification §10.6.
-/

namespace RegionPooling

/-- Values that can stand in a tensor of regions. -/
class RegionValue (α : Type) where
  toDouble : α → Binary .double
  toSingle : α → Binary .single

instance (f : Format) : RegionValue (Binary f) := ⟨Binary.convert, Binary.convert⟩

instance : RegionValue Int64 := ⟨fun n => Binary.ofInt n.toInt, fun n => Binary.ofInt n.toInt⟩

instance : RegionValue UInt64 := ⟨fun n => Binary.ofInt n.toNat, fun n => Binary.ofInt n.toNat⟩

/-- Whole part of a finite number above minus one, capped at the largest size word. -/
def Binary.index? {f : Format} : Binary f → Option Nat
  | finite negative units _ =>
    if negative then if f.one ≤ units then none else some 0
    else some (min (units / f.one) (wordSize - 1))
  | _ => none

namespace Region

/-- Number of values in a row. -/
def fields : Nat := 5

/-- Name under which a refused tensor of regions is reported. -/
def parsing : String := "rois_from_tensor"

/-- Region of one row of values. -/
def ofRow {α : Type} [RegionValue α] (index : Nat) : List α → Except Fault Region
  | [batch, x1, y1, x2, y2] =>
    let value := RegionValue.toDouble batch
    match value.index? with
    | some entry =>
      .ok ⟨entry, RegionValue.toSingle x1, RegionValue.toSingle y1, RegionValue.toSingle x2,
        RegionValue.toSingle y2⟩
    | none => .error (.rejected ⟨parsing, .region index (.notAnIndex value)⟩)
  | _ => .error .outOfBounds

/-- Regions of the rows of a tensor; `rois_from_tensor`, §10.6. -/
def ofTensor {α : Type} [RegionValue α] (t : Tensor α) : Except Fault (List Region) :=
  match t.shape.dims with
  | [rows, columns] =>
    if columns = fields then
      (List.range rows).mapM fun row => do
        let values ← slice t.data (row * fields) fields
        ofRow row values.toList
    else .error (.rejected (.ofShape parsing (.regionRows t.shape) t.shape))
  | _ => .error (.rejected (.ofShape parsing (.regionRows t.shape) t.shape))

end Region

end RegionPooling
