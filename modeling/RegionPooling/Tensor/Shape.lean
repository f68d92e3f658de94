import RegionPooling.Numeric.Word

/-!
# Shapes

A shape is a list of dimensions. Elements are laid out in row-major order: `offset?` is the position
of an index list, the last axis running fastest. `count` is the exact number of elements and `size`
its remainder modulo the word size. Feature maps and pooled results have four named dimensions.
Specification §3 and §10.2.
-/

namespace RegionPooling

/-- Dimensions of a dense block of elements. -/
structure Shape where
  dims : List Nat
  deriving DecidableEq, Repr

namespace Shape

/-- Number of axes. -/
def rank (s : Shape) : Nat := s.dims.length

/-- Exact number of elements. -/
def count (s : Shape) : Nat := s.dims.foldr (· * ·) 1

/-- Number of elements as a size word. -/
def size (s : Shape) : Nat := wrap s.count

/-- Product of the dimensions that are not zero. -/
def occupied (s : Shape) : Nat := (Shape.mk (s.dims.filter (· != 0))).count

/-- Text of a list of sizes. -/
def listText (sizes : List Nat) : String :=
  "[" ++ ", ".intercalate (sizes.map toString) ++ "]"

/-- Text of the dimensions, as `[a, b, c]`; §10.2. -/
def text (s : Shape) : String := listText s.dims

/-- Row-major position of an index list. -/
def offset? (s : Shape) (index : List Nat) : Option Nat :=
  go s.dims index
where
  go : List Nat → List Nat → Option Nat
    | [], [] => some 0
    | d :: dims, i :: index =>
      if i < d then (go dims index).map (i * (Shape.mk dims).count + ·) else none
    | _, _ => none

/-- A shape without axes has one element. -/
@[simp] theorem count_nil : (Shape.mk []).count = 1 := rfl

/-- The first axis multiplies the number of elements. -/
@[simp] theorem count_cons (d : Nat) (dims : List Nat) :
    (Shape.mk (d :: dims)).count = d * (Shape.mk dims).count := rfl

/-- Leaving out zero dimensions never makes the product smaller. -/
theorem count_le_occupied (s : Shape) : s.count ≤ s.occupied := by
  obtain ⟨dims⟩ := s
  suffices both : (Shape.mk dims).count ≤ (Shape.mk dims).occupied ∧ 0 < (Shape.mk dims).occupied
    from both.1
  induction dims with
  | nil => exact ⟨Nat.le_refl 1, Nat.one_pos⟩
  | cons d dims ih =>
    obtain ⟨le, pos⟩ := ih
    by_cases zero : d = 0
    · subst zero
      exact ⟨by rw [count_cons, Nat.zero_mul]; exact Nat.zero_le _, pos⟩
    · have occupied_cons : (Shape.mk (d :: dims)).occupied = d * (Shape.mk dims).occupied := by
        simp [occupied, zero, count_cons]
      rw [occupied_cons, count_cons]
      exact ⟨Nat.mul_le_mul_left d le, Nat.mul_pos (Nat.pos_of_ne_zero zero) pos⟩

/-- One more axis never makes the product of the nonzero dimensions smaller. -/
theorem occupied_le_cons (d : Nat) (dims : List Nat) :
    (Shape.mk dims).occupied ≤ (Shape.mk (d :: dims)).occupied := by
  by_cases zero : d = 0
  · simp [occupied, zero]
  · simp only [occupied, List.filter_cons, bne_iff_ne, ne_eq, zero, not_false_eq_true, if_true,
      count_cons]
    exact Nat.le_mul_of_pos_left _ (Nat.pos_of_ne_zero zero)

/-- A shape that fits into storage has as many elements as its size word says. -/
theorem size_eq_count {s : Shape} (fits : s.occupied ≤ storageLimit) : s.size = s.count :=
  wrap_of_le_storageLimit (Nat.le_trans s.count_le_occupied fits)

/-- Every position lies inside the block. -/
theorem offset?_lt_count {s : Shape} {index : List Nat} {k : Nat} (h : s.offset? index = some k) :
    k < s.count := by
  obtain ⟨dims⟩ := s
  simp only [offset?] at h
  induction dims generalizing index k with
  | nil =>
    cases index with
    | nil => simp [offset?.go] at h; subst h; exact Nat.one_pos
    | cons => simp [offset?.go] at h
  | cons d dims ih =>
    cases index with
    | nil => simp [offset?.go] at h
    | cons i index =>
      simp only [offset?.go] at h
      split at h
      · next lt =>
        obtain ⟨inner, found, rfl⟩ := Option.map_eq_some_iff.1 h
        have small := ih found
        rw [count_cons]
        calc i * (Shape.mk dims).count + inner
          _ < i * (Shape.mk dims).count + (Shape.mk dims).count := by omega
          _ = (i + 1) * (Shape.mk dims).count := by rw [Nat.add_mul, Nat.one_mul]
          _ ≤ d * (Shape.mk dims).count := Nat.mul_le_mul_right _ lt
      · cases h

end Shape

/-- Coordinates of an element of a feature map. -/
structure MapPosition where
  batch : Nat
  channel : Nat
  row : Nat
  column : Nat
  deriving DecidableEq, Repr

/-- Dimensions of a feature map; `FeatureMap`, §3. -/
structure MapDims where
  batch : Nat
  channels : Nat
  height : Nat
  width : Nat
  deriving DecidableEq, Repr

namespace MapDims

/-- The four dimensions in order. -/
def toList (d : MapDims) : List Nat := [d.batch, d.channels, d.height, d.width]

/-- The dimensions as a shape. -/
def shape (d : MapDims) : Shape := ⟨d.toList⟩

/-- Elements of one channel of one batch entry. -/
def plane (d : MapDims) : Nat := d.height * d.width

/-- Position of the first element of a plane. -/
def planeStart (d : MapDims) (batch channel : Nat) : Nat :=
  (batch * d.channels + channel) * d.plane

/-- Position of an element inside its plane. -/
def planeOffset (d : MapDims) (p : MapPosition) : Nat := p.row * d.width + p.column

/-- Coordinates of the element at a flat position. -/
def position (d : MapDims) (k : Nat) : MapPosition where
  batch := k / d.plane / d.channels
  channel := k / d.plane % d.channels
  row := k / d.width % d.height
  column := k % d.width

/-- Elements of a row lie inside the plane. -/
theorem planeOffset_lt_plane {d : MapDims} {p : MapPosition} (row : p.row < d.height)
    (column : p.column < d.width) : d.planeOffset p < d.plane := by
  calc p.row * d.width + p.column
    _ < p.row * d.width + d.width := by omega
    _ = (p.row + 1) * d.width := by rw [Nat.add_mul, Nat.one_mul]
    _ ≤ d.height * d.width := Nat.mul_le_mul_right _ row

/-- The coordinates of an element are read back from its flat position. -/
theorem position_add {d : MapDims} {p : MapPosition} (channel : p.channel < d.channels)
    (row : p.row < d.height) (column : p.column < d.width) :
    d.position (d.planeStart p.batch p.channel + d.planeOffset p) = p := by
  have inside := planeOffset_lt_plane row column
  have plane_pos : 0 < d.plane := by omega
  have by_plane : (d.planeStart p.batch p.channel + d.planeOffset p) / d.plane
      = p.batch * d.channels + p.channel := by
    rw [planeStart, Nat.mul_comm, Nat.mul_add_div plane_pos, Nat.div_eq_of_lt inside, Nat.add_zero]
  have by_row : (d.planeStart p.batch p.channel + d.planeOffset p)
      = d.width * ((p.batch * d.channels + p.channel) * d.height + p.row) + p.column := by
    rw [planeStart, planeOffset, plane, Nat.mul_add, Nat.mul_comm d.width p.row,
      Nat.mul_comm d.width, Nat.mul_assoc, Nat.add_assoc]
  simp only [position, by_plane]
  rw [by_row, Nat.mul_add_div (by omega), Nat.mul_add_mod, Nat.div_eq_of_lt column, Nat.add_zero,
    Nat.mod_eq_of_lt column, Nat.mul_comm p.batch, Nat.mul_add_div (by omega),
    Nat.div_eq_of_lt channel, Nat.mul_add_mod, Nat.mod_eq_of_lt channel,
    Nat.mul_comm _ d.height, Nat.mul_add_mod, Nat.mod_eq_of_lt row, Nat.add_zero]

end MapDims

/-- Dimensions of a pooled result; `PooledOutput`, §3. -/
structure PooledDims where
  regions : Nat
  channels : Nat
  height : Nat
  width : Nat
  deriving DecidableEq, Repr

namespace PooledDims

/-- The four dimensions in order. -/
def toList (d : PooledDims) : List Nat := [d.regions, d.channels, d.height, d.width]

/-- The dimensions as a shape. -/
def shape (d : PooledDims) : Shape := ⟨d.toList⟩

end PooledDims

/-- The four dimensions of a feature map, if there are four. -/
def Shape.mapDims? (s : Shape) : Option MapDims :=
  match s.dims with
  | [batch, channels, height, width] => some ⟨batch, channels, height, width⟩
  | _ => none

/-- Four dimensions are read exactly from the list of the same four. -/
theorem Shape.mapDims?_eq_some_iff {s : Shape} {d : MapDims} :
    s.mapDims? = some d ↔ s = d.shape := by
  obtain ⟨dims⟩ := s
  constructor
  · intro h
    simp only [mapDims?] at h
    split at h
    · cases h; rfl
    · cases h
  · intro h; rw [h]; rfl

end RegionPooling
