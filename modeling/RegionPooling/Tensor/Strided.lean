import RegionPooling.Tensor.Basic

/-!
# Strided views

A view reads storage with a stride of its own along each axis, so that axes can be reordered and
reversed without moving an element. `Tensor.ofStrided` copies a view into row-major order, the order
that specification §10.2 asks of every tensor.
-/

namespace RegionPooling

/-- One axis of a view: how many elements, and how far apart they lie. -/
structure StridedAxis where
  length : Nat
  stride : Int
  deriving DecidableEq, Repr

/-- View into storage: the position of its first element and its axes. -/
structure Strided (α : Type) where
  source : Array α
  origin : Int
  axes : List StridedAxis

namespace Strided

variable {α : Type}

/-- Axes of a row-major block. -/
def rowMajor : List Nat → List StridedAxis
  | [] => []
  | d :: dims => ⟨d, (Shape.mk dims).count⟩ :: rowMajor dims

/-- View of a whole tensor. -/
def ofTensor (t : Tensor α) : Strided α := ⟨t.data, 0, rowMajor t.shape.dims⟩

/-- Dimensions of a view. -/
def shape (v : Strided α) : Shape := ⟨v.axes.map StridedAxis.length⟩

/-- View whose axes are taken in a given order, if that names each axis once. -/
def permute (v : Strided α) (order : List Nat) : Option (Strided α) :=
  if order.isPerm (List.range v.axes.length) then
    some ⟨v.source, v.origin, order.filterMap (v.axes[·]?)⟩
  else none

/-- View that runs backwards along one axis, if there is such an axis. -/
def reverse (v : Strided α) (axis : Nat) : Option (Strided α) :=
  v.axes[axis]?.map fun a =>
    ⟨v.source, v.origin + (a.length - 1 : Nat) * a.stride,
      v.axes.set axis ⟨a.length, -a.stride⟩⟩

/-- Positions of the elements in row-major order of the axes. -/
def positions (origin : Int) : List StridedAxis → List Int
  | [] => [origin]
  | a :: axes => (List.range a.length).flatMap fun (i : Nat) =>
    positions (origin + i * a.stride) axes

/-- Elements of a view in row-major order. -/
def elements (v : Strided α) : Except Fault (List α) :=
  if v.shape.count = 0 then .ok []
  else (positions v.origin v.axes).mapM fun p =>
    if 0 ≤ p then fetch v.source p.toNat else .error .outOfBounds

/-- A row-major block keeps its dimensions. -/
@[simp] theorem map_length_rowMajor (dims : List Nat) :
    (rowMajor dims).map StridedAxis.length = dims := by
  induction dims with
  | nil => rfl
  | cons d dims ih => rw [rowMajor, List.map_cons, ih]

/-- The view of a whole tensor has the tensor's shape. -/
@[simp] theorem shape_ofTensor (t : Tensor α) : (ofTensor t).shape = t.shape := by
  rw [shape, ofTensor, map_length_rowMajor]

/-- There is one position for every element. -/
@[simp] theorem length_positions (origin : Int) (axes : List StridedAxis) :
    (positions origin axes).length = (Shape.mk (axes.map StridedAxis.length)).count := by
  induction axes generalizing origin with
  | nil => rfl
  | cons a axes ih =>
    simp only [positions, List.length_flatMap, ih, List.map_cons, Shape.count_cons]
    rw [List.map_const', List.length_range, List.sum_replicate_nat]

end Strided

/-- Copy of a view in row-major order; `from_array`, §10.2. -/
def Tensor.ofStrided {α : Type} (v : Strided α) : Except Fault (Tensor α) := do
  let elements ← v.elements
  match Tensor.ofArray elements.toArray v.shape with
  | .ok t => .ok t
  | .error e => .error (.rejected e)

end RegionPooling
