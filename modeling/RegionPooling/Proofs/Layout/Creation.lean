import Mathlib.Algebra.BigOperators.Group.List.Basic
import RegionPooling.Tensor.Basic

/-!
# Creation of tensors

The number of elements is compared with a product that was reduced to a size word, while storage
looks at the exact product of the dimensions other than zero. Only the two checks together say that
there is one element for every index list. Main statement: a tensor is created exactly if the
elements are as many as the exact product says and the shape fits into storage, and the refusal says
which check failed. Of storage nothing is used but that it refuses what does not fit and takes the
exact number of elements for what does. Specification §10.2.
-/

namespace RegionPooling

namespace Shape

private theorem count_eq_prod (s : Shape) : s.count = s.dims.prod := rfl

/-- The product of the dimensions other than zero, as a product over a list. -/
theorem occupied_eq_prod (s : Shape) : s.occupied = (s.dims.filter (· ≠ 0)).prod := by
  have hsame : (fun d : ℕ ↦ d != 0) = fun d ↦ decide (d ≠ 0) := by
    funext d
    simp [bne, beq_eq_decide]
  rw [occupied, count_eq_prod, hsame]

/-- Product of dimensions formed one by one, every product being reduced to a size word. -/
def reducedProduct (dims : List ℕ) : ℕ := dims.foldl (fun n d ↦ wrap (n * d)) 1

private theorem foldl_wrap_mul {n : ℕ} (h : n < wordSize) (dims : List ℕ) :
    dims.foldl (fun n d ↦ wrap (n * d)) n = wrap (n * dims.prod) := by
  induction dims generalizing n with
  | nil => rw [List.foldl_nil, List.prod_nil, Nat.mul_one, wrap_of_lt h]
  | cons d dims ih =>
    rw [List.foldl_cons, ih (wrap_lt _), wrap_wrap_mul, List.prod_cons, Nat.mul_assoc]

/-- The size word of a shape is the product that is reduced on the way. -/
theorem size_eq_reducedProduct (s : Shape) : s.size = reducedProduct s.dims := by
  rw [reducedProduct, foldl_wrap_mul (by decide), Nat.one_mul, size, count_eq_prod]

end Shape

/-- What is known of the storage of tensors: which numbers of elements it takes for which shapes. It
refuses every shape that does not fit, and takes the exact number of elements for one that does. -/
structure StorageRule where
  takes : ℕ → Shape → Bool
  refuses_large : ∀ n s, storageLimit < s.occupied → takes n s = false
  takes_exact : ∀ s, s.occupied ≤ storageLimit → takes s.count s = true

namespace StorageRule

/-- Storage that takes nothing but exact numbers of elements. -/
def exact : StorageRule where
  takes n s := decide (s.occupied ≤ storageLimit) && decide (n = s.count)
  refuses_large n s h := by simp [Nat.not_le.2 h]
  takes_exact s h := by simp [h]

/-- Shape and elements that storage takes under a rule after the number of elements was compared
with the reduced product. -/
def create {α : Type} (rule : StorageRule) (data : Array α) (shape : Shape) :
    Except PoolError (Shape × Array α) :=
  if data.size = Shape.reducedProduct shape.dims then
    if rule.takes data.size shape then .ok (shape, data)
    else .error ⟨Tensor.creation, .shape .storageOverflow none⟩
  else .error (.ofShape Tensor.creation (.dataLength data.size shape) shape)

end StorageRule

namespace Tensor

variable {α : Type} {data : Array α} {shape : Shape}

/-- Elements that are compared with the reduced product are as many as the exact one says, if the
shape fits into storage. -/
theorem size_eq_count_iff (fits : shape.occupied ≤ storageLimit) :
    data.size = shape.size ↔ data.size = shape.count := by
  rw [Shape.size_eq_count fits]

/-- A tensor is created exactly from as many elements as its shape has, if the shape fits. -/
theorem exists_ofArray_iff :
    (∃ t, ofArray data shape = .ok t) ↔
      data.size = shape.count ∧ shape.occupied ≤ storageLimit := by
  constructor
  · rintro ⟨t, ht⟩
    obtain ⟨hlength, hfits, -⟩ := ofArray_eq_ok_iff.1 ht
    exact ⟨(size_eq_count_iff hfits).1 hlength, hfits⟩
  · rintro ⟨hcount, hfits⟩
    exact ⟨⟨shape, data, hcount, hfits⟩,
      ofArray_eq_ok_iff.2 ⟨(size_eq_count_iff hfits).2 hcount, hfits, rfl, rfl⟩⟩

/-- A refusal carries the shape if the number of elements is not the reduced product, and none if
the shape does not fit into storage. -/
theorem ofArray_eq_error_iff {e : PoolError} :
    ofArray data shape = .error e ↔
      data.size ≠ shape.size ∧ e = ⟨creation, .shape (.dataLength data.size shape) (some shape)⟩ ∨
      data.size = shape.size ∧ storageLimit < shape.occupied ∧
        e = ⟨creation, .shape .storageOverflow none⟩ := by
  unfold ofArray
  split
  · next hlength =>
    split
    · next hfits => simp [hlength, Nat.not_lt.2 hfits]
    · next hfits => simp [hlength, Nat.not_le.1 hfits, eq_comm]
  · next hlength => simp [hlength, PoolError.ofShape, eq_comm]

/-- Whatever else storage takes or refuses, creation ends the same way. -/
theorem map_ofArray_eq_create (rule : StorageRule) (data : Array α) (shape : Shape) :
    (ofArray data shape).map (fun t ↦ (t.shape, t.data)) = rule.create data shape := by
  unfold ofArray StorageRule.create
  rw [← Shape.size_eq_reducedProduct]
  split
  · next hlength =>
    split
    · next hfits =>
      have htakes := rule.takes_exact shape hfits
      rw [← (size_eq_count_iff hfits).1 hlength] at htakes
      rw [if_pos htakes]
      rfl
    · next hfits =>
      have hrefuses := rule.refuses_large data.size shape (Nat.not_le.1 hfits)
      rw [if_neg (by simp [hrefuses])]
      rfl
  · rfl

/-- A tensor is created exactly if the elements are as many as the exact product of the dimensions
says and the product of the dimensions other than zero is at most the greatest signed word.
Otherwise creation is refused: with the shape if the number of elements is not the product that was
reduced on the way, and without it if storage refused the shape. A tensor that was created has the
shape and the elements, and its size is their exact number. All this is so for every rule of
storage. -/
theorem ofArray_exact (rule : StorageRule) (data : Array α) (shape : Shape) :
    ((∃ t, ofArray data shape = .ok t) ↔ data.size = shape.dims.prod ∧
      (shape.dims.filter (· ≠ 0)).prod ≤ 9223372036854775807) ∧
    (∀ e, ofArray data shape = .error e ↔
      data.size ≠ Shape.reducedProduct shape.dims ∧
          e = ⟨"tensor_creation", .shape (.dataLength data.size shape) (some shape)⟩ ∨
        data.size = Shape.reducedProduct shape.dims ∧
          9223372036854775807 < (shape.dims.filter (· ≠ 0)).prod ∧
          e = ⟨"tensor_creation", .shape .storageOverflow none⟩) ∧
    (∀ t, ofArray data shape = .ok t →
      t.shape = shape ∧ t.data = data ∧ t.size = shape.dims.prod) ∧
    (ofArray data shape).map (fun t ↦ (t.shape, t.data)) = rule.create data shape := by
  rw [← Shape.size_eq_reducedProduct, ← Shape.count_eq_prod, ← Shape.occupied_eq_prod]
  refine ⟨exists_ofArray_iff, fun e ↦ ofArray_eq_error_iff, ?_,
    map_ofArray_eq_create rule data shape⟩
  intro t ht
  obtain ⟨-, hfits, hshape, hdata⟩ := ofArray_eq_ok_iff.1 ht
  refine ⟨hshape, hdata, ?_⟩
  rw [size, hshape, Shape.size_eq_count hfits]

/-- Storage refuses two axes of half a word each, whose reduced product is as little as the number
of elements, and it refuses axes too long for it although a third axis leaves no element. -/
theorem ofArray_exact_reduced :
    let half : Shape := ⟨[4294967296, 4294967296]⟩
    let hollow : Shape := ⟨[9223372036854775808, 2, 0]⟩
    let data : Array ℕ := #[]
    data.size ≠ half.dims.prod ∧ data.size = hollow.dims.prod ∧
      ∀ shape ∈ [half, hollow], data.size = Shape.reducedProduct shape.dims ∧
        ofArray data shape = .error ⟨"tensor_creation", .shape .storageOverflow none⟩ := by
  intro half hollow data
  have hshapes : ∀ shape ∈ [half, hollow], data.size = Shape.reducedProduct shape.dims ∧
      9223372036854775807 < (shape.dims.filter (· ≠ 0)).prod := by
    decide
  refine ⟨by decide, by decide, fun shape hmem ↦ ?_⟩
  obtain ⟨hreduced, hlarge⟩ := hshapes shape hmem
  obtain ⟨-, hrefused, -⟩ := ofArray_exact .exact data shape
  exact ⟨hreduced, (hrefused _).2 (.inr ⟨hreduced, hlarge, rfl⟩)⟩

end Tensor

end RegionPooling
