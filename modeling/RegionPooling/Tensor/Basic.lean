import RegionPooling.Storage

/-!
# Dense tensors

A tensor is a shape with one element for every index list, in row-major order; specification §10.2.
Only shapes whose dimensions other than zero fit into storage exist; the two conditions are part of
the type. Main statements: a tensor is read at exactly the index lists of its shape, and it is
determined by its shape and its data.
-/

namespace RegionPooling

/-- Dense block of elements in row-major order. -/
structure Tensor (α : Type) where
  shape : Shape
  data : Array α
  size_data : data.size = shape.count
  fits : shape.occupied ≤ storageLimit

namespace Tensor

variable {α : Type}

/-- Shape and data determine a tensor. -/
@[ext] theorem ext {s t : Tensor α} (shape : s.shape = t.shape) (data : s.data = t.data) :
    s = t := by
  cases s
  cases t
  simp_all

/-- Name under which a refused construction is reported. -/
def creation : String := "tensor_creation"

/-- Tensor of given elements; `from_vec`, §10.2. The number of elements is compared with the size
word of the shape, and then the shape must fit into storage. -/
def ofArray (data : Array α) (shape : Shape) : Except PoolError (Tensor α) :=
  if length : data.size = shape.size then
    if fits : shape.occupied ≤ storageLimit then
      .ok ⟨shape, data, by rw [length, Shape.size_eq_count fits], fits⟩
    else .error ⟨creation, .shape .storageOverflow none⟩
  else .error (.ofShape creation (.dataLength data.size shape) shape)

/-- Tensor with one element everywhere; `full`, §10.2. A shape that does not fit into storage is a
fault. -/
def full (shape : Shape) (value : α) : Except Fault (Tensor α) :=
  if fits : shape.occupied ≤ storageLimit then
    .ok ⟨shape, Array.replicate shape.count value, Array.size_replicate, fits⟩
  else .error .outOfBounds

/-- Number of axes. -/
def rank (t : Tensor α) : Nat := t.shape.rank

/-- Number of elements. -/
def size (t : Tensor α) : Nat := t.shape.size

/-- Whether there is no element. -/
def isEmpty (t : Tensor α) : Bool := t.size == 0

/-- Element at an index list, if it lies in the shape; `get`, §10.2. -/
def get? (t : Tensor α) (index : List Nat) : Option α :=
  (t.shape.offset? index).bind (t.data[·]?)

/-- Elements in row-major order; `to_vec`, §10.2. -/
def toList (t : Tensor α) : List α := t.data.toList

/-- Same shape, and elements that agree pairwise. -/
def agree (same : α → α → Bool) (s t : Tensor α) : Bool :=
  decide (s.shape = t.shape) && (s.data.zip t.data).all fun (x, y) => same x y

/-- The size word of a tensor is its exact number of elements. -/
theorem size_eq_size_data (t : Tensor α) : t.size = t.data.size := by
  rw [size, Shape.size_eq_count t.fits, t.size_data]

/-- The shape of a tensor fits into storage. -/
theorem occupied_le {t : Tensor α} {shape : Shape} (h : t.shape = shape) :
    shape.occupied ≤ storageLimit := by
  rw [← h]
  exact t.fits

/-- A tensor is formed exactly if its elements are as many as the size word of the shape says and
the shape fits into storage. -/
theorem ofArray_eq_ok_iff {data : Array α} {shape : Shape} {t : Tensor α} :
    ofArray data shape = .ok t ↔
      data.size = shape.size ∧ shape.occupied ≤ storageLimit ∧ t.shape = shape ∧ t.data = data := by
  simp only [ofArray]
  split
  · next length =>
    split
    · next fits =>
      rw [Except.ok.injEq]
      constructor
      · rintro rfl
        exact ⟨length, fits, rfl, rfl⟩
      · rintro ⟨-, -, shape, data⟩
        exact ext shape.symm data.symm
    · next fits => simp [fits]
  · next length => simp [length]

/-- A tensor is read at exactly the index lists of its shape. -/
theorem get?_isSome_iff (t : Tensor α) (index : List Nat) :
    (t.get? index).isSome ↔ (t.shape.offset? index).isSome := by
  simp only [get?]
  cases found : t.shape.offset? index with
  | none => simp
  | some k =>
    have small : k < t.data.size := by rw [t.size_data]; exact Shape.offset?_lt_count found
    simp [small]

end Tensor

end RegionPooling
