import Mathlib.Data.List.Forall2
import Mathlib.Data.Set.Function
import Mathlib.Tactic.Ring
import RegionPooling.Proofs.Layout.Creation

/-!
# Index lists in row-major order

An index list lies in a shape if it has one index for every axis and each is less than its axis. Its
place is formed axis by axis, the last axis running fastest. Main statements: the index lists of a
shape correspond one to one to the places below the number of elements, and a tensor is read at the
place of an index list of its shape, and nowhere else. Specification §10.2.
-/

namespace RegionPooling

namespace Shape

/-- An index list lies in a shape if it has one index for every axis, less than the axis. -/
def Contains (s : Shape) (index : List ℕ) : Prop := List.Forall₂ (· < ·) index s.dims

instance (s : Shape) (index : List ℕ) : Decidable (s.Contains index) :=
  inferInstanceAs (Decidable (List.Forall₂ _ _ _))

/-- Place of an index list: for every axis the place so far is multiplied by the length of the axis,
and the index is added. -/
def place (s : Shape) (index : List ℕ) : ℕ :=
  (s.dims.zip index).foldl (fun k axis ↦ k * axis.1 + axis.2) 0

/-- Index list at a place: quotients and remainders by the number of elements of the later axes. -/
def indexAt : List ℕ → ℕ → List ℕ
  | [], _ => []
  | _ :: dims, k => k / (Shape.mk dims).count :: indexAt dims (k % (Shape.mk dims).count)

variable {s : Shape} {index dims : List ℕ} {d i k : ℕ}

/-- No index belongs to a shape without axes. -/
theorem contains_nil : (Shape.mk []).Contains index ↔ index = [] :=
  List.forall₂_nil_right_iff

/-- The first index belongs to the first axis. -/
theorem contains_cons : (Shape.mk (d :: dims)).Contains (i :: index) ↔
    i < d ∧ (Shape.mk dims).Contains index :=
  List.forall₂_cons

/-- An index list of a shape has the rank of the shape. -/
theorem Contains.length_eq (h : s.Contains index) : index.length = s.rank :=
  List.Forall₂.length_eq h

/-- An index list of the right length whose indices are all less than their axes lies in the shape,
and no other does. -/
theorem contains_iff_getElem : s.Contains index ↔ index.length = s.rank ∧
    ∀ axis (hi : axis < index.length) (hd : axis < s.dims.length), index[axis] < s.dims[axis] :=
  List.forall₂_iff_get

private theorem foldl_place (h : (Shape.mk dims).Contains index) (k : ℕ) :
    (dims.zip index).foldl (fun k axis ↦ k * axis.1 + axis.2) k =
      k * (Shape.mk dims).count + (Shape.mk dims).place index := by
  induction dims generalizing index k with
  | nil => simp [place, count_nil]
  | cons d dims ih =>
    cases index with
    | nil => cases h
    | cons i index =>
      have hrest := (contains_cons.1 h).2
      have hnext (k : ℕ) : ((d :: dims).zip (i :: index)).foldl
          (fun k axis ↦ k * axis.1 + axis.2) k =
          (k * d + i) * (Shape.mk dims).count + (Shape.mk dims).place index := ih hrest _
      have hplace : (Shape.mk (d :: dims)).place (i :: index) = _ := hnext 0
      rw [hnext k, hplace, count_cons]
      ring

/-- The first index counts blocks of the elements of the later axes. -/
theorem place_cons (h : (Shape.mk dims).Contains index) :
    (Shape.mk (d :: dims)).place (i :: index) =
      i * (Shape.mk dims).count + (Shape.mk dims).place index := by
  have hplace : (Shape.mk (d :: dims)).place (i :: index) = _ := foldl_place h (0 * d + i)
  rw [hplace, Nat.zero_mul, Nat.zero_add]

/-- The position of an index list is its place, and index lists outside the shape have none. -/
theorem offset?_eq_some_iff : s.offset? index = some k ↔ s.Contains index ∧ s.place index = k := by
  obtain ⟨dims⟩ := s
  simp only [offset?]
  induction dims generalizing index k with
  | nil => cases index <;> simp [offset?.go, contains_nil, place]
  | cons d dims ih =>
    cases index with
    | nil => simp [offset?.go, Contains]
    | cons i index =>
      simp only [offset?.go, contains_cons]
      split
      · next hi =>
        simp only [Option.map_eq_some_iff, ih, hi, true_and]
        constructor
        · rintro ⟨_, ⟨hrest, rfl⟩, rfl⟩
          exact ⟨hrest, place_cons hrest⟩
        · rintro ⟨hrest, rfl⟩
          exact ⟨_, ⟨hrest, rfl⟩, (place_cons hrest).symm⟩
      · next hi => simp [hi]

/-- An index list of a shape has its place. -/
theorem Contains.offset?_eq (h : s.Contains index) : s.offset? index = some (s.place index) :=
  offset?_eq_some_iff.2 ⟨h, rfl⟩

/-- Index lists outside the shape have no position. -/
theorem offset?_eq_none_iff : s.offset? index = none ↔ ¬ s.Contains index := by
  simp [Option.eq_none_iff_forall_ne_some, offset?_eq_some_iff]

/-- Every place lies inside the block of elements. -/
theorem Contains.place_lt (h : s.Contains index) : s.place index < s.count :=
  offset?_lt_count h.offset?_eq

/-- The index list at a place of the block lies in the shape and has this place. -/
theorem contains_indexAt (h : k < (Shape.mk dims).count) :
    (Shape.mk dims).Contains (indexAt dims k) ∧ (Shape.mk dims).place (indexAt dims k) = k := by
  induction dims generalizing k with
  | nil =>
    rw [count_nil] at h
    simp [indexAt, contains_nil, place]
    omega
  | cons d dims ih =>
    rw [count_cons] at h
    have hpos : 0 < (Shape.mk dims).count := Nat.pos_of_ne_zero fun hzero ↦ by simp [hzero] at h
    obtain ⟨hrest, hplace⟩ := ih (Nat.mod_lt k hpos)
    rw [indexAt, contains_cons, place_cons hrest, hplace]
    exact ⟨⟨(Nat.div_lt_iff_lt_mul hpos).2 h, hrest⟩, Nat.div_add_mod' k _⟩

/-- Every place of the block belongs to an index list. -/
theorem exists_place_eq (h : k < s.count) : ∃ index, s.Contains index ∧ s.place index = k :=
  ⟨indexAt s.dims k, contains_indexAt h⟩

/-- An index list of the shape is the one at its place. -/
theorem Contains.indexAt_place (h : (Shape.mk dims).Contains index) :
    indexAt dims ((Shape.mk dims).place index) = index := by
  induction dims generalizing index with
  | nil => rw [contains_nil.1 h, indexAt]
  | cons d dims ih =>
    cases index with
    | nil => cases h
    | cons i index =>
      have hrest := (contains_cons.1 h).2
      have hlt := hrest.place_lt
      have hpos : 0 < (Shape.mk dims).count := Nat.zero_lt_of_lt hlt
      rw [place_cons hrest, indexAt, Nat.mul_comm i, Nat.mul_add_div hpos, Nat.mul_add_mod,
        Nat.div_eq_of_lt hlt, Nat.mod_eq_of_lt hlt, Nat.add_zero, ih hrest]

/-- Index lists of a shape correspond one to one to the places of its elements. -/
theorem bijOn_place (s : Shape) :
    Set.BijOn s.place {index | s.Contains index} (Set.Iio s.count) := by
  have hinverse : Set.InvOn (indexAt s.dims) s.place {index | s.Contains index} (Set.Iio s.count) :=
    ⟨fun _ h ↦ Contains.indexAt_place h, fun _ h ↦ (contains_indexAt h).2⟩
  exact hinverse.bijOn (fun _ h ↦ Contains.place_lt h) fun _ h ↦ (contains_indexAt h).1

end Shape

namespace Tensor

variable {α : Type}

/-- A tensor holds elements in row-major order: it is read at the index lists of its shape, each of
which has a place of its own, and gives the element at the place. -/
structure HoldsRowMajor (t : Tensor α) (s : Shape) (data : Array α) : Prop where
  shape : t.shape = s
  inside : ∀ index, s.Contains index →
    ∃ x, data[s.place index]? = some x ∧ t.get? index = some x
  outside : ∀ index, ¬ s.Contains index → t.get? index = none
  places : Set.BijOn s.place {index | s.Contains index} (Set.Iio t.size)
  slice : t.data = data
  list : t.toList = data.toList

/-- Inside the shape a tensor is read at the place of the index list. -/
theorem get?_of_contains (t : Tensor α) {index : List ℕ} (h : t.shape.Contains index) :
    t.get? index = t.data[t.shape.place index]? := by
  rw [get?, h.offset?_eq, Option.bind_some]

/-- Outside the shape a tensor is not read. -/
theorem get?_of_not_contains (t : Tensor α) {index : List ℕ} (h : ¬ t.shape.Contains index) :
    t.get? index = none := by
  rw [get?, Shape.offset?_eq_none_iff.2 h, Option.bind_none]

/-- A tensor is read at exactly the index lists of its shape. -/
theorem exists_get?_iff (t : Tensor α) {index : List ℕ} :
    (∃ x, t.get? index = some x) ↔ t.shape.Contains index := by
  rw [← Option.isSome_iff_exists, get?_isSome_iff, Option.isSome_iff_exists]
  simp [Shape.offset?_eq_some_iff]

/-- Every tensor holds its own elements in row-major order. -/
theorem holdsRowMajor (t : Tensor α) : t.HoldsRowMajor t.shape t.data where
  shape := rfl
  inside index h := by
    obtain ⟨x, hx⟩ := t.exists_get?_iff.2 h
    exact ⟨x, (t.get?_of_contains h).symm.trans hx, hx⟩
  outside index h := t.get?_of_not_contains h
  places := by
    rw [size_eq_size_data, t.size_data]
    exact t.shape.bijOn_place
  slice := rfl
  list := rfl

end Tensor

end RegionPooling
