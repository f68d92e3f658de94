import Mathlib.Algebra.BigOperators.Ring.List
import RegionPooling.Proofs.Layout.Steps
import RegionPooling.Proofs.Layout.Views

/-!
# Copies of views

A view is kept as a tensor as it stands if its elements already lie one after another in row-major
order, and is copied otherwise. Whether they do is asked of a test that is only known to be right;
it may call a view with reordered axes standard, since an axis of one element has no order and a
view without elements has none either. Main statement: a tensor of any rank is read at the row-major
places of its index lists, and what is kept of it after its axes were reordered and some of them
reversed is read at the index lists counted back and put back in order, and lies in one run.
Specification §10.2.
-/

namespace RegionPooling

namespace Strided

variable {α : Type} {v : Strided α} {t : Tensor α} {l : List α} {index : List ℕ}

/-- Every index list of a view leads to an element of its storage. -/
def Readable (v : Strided α) : Prop :=
  ∀ index, v.shape.Contains index → ∃ x, v.read (v.address index) = .ok x

/-- A list holds the elements of a view in row-major order of its axes. -/
structure Lists (v : Strided α) (l : List α) : Prop where
  length : l.length = v.shape.count
  element : ∀ index, v.shape.Contains index →
    ∃ x, l[v.shape.place index]? = some x ∧ v.read (v.address index) = .ok x

private theorem exists_mapM_read {places : List ℤ} (h : v.Readable)
    (hlength : places.length = v.shape.count)
    (hplaces : ∀ index, v.shape.Contains index →
      places[v.shape.place index]? = some (v.address index)) :
    ∃ l, places.mapM v.read = .ok l ∧ v.Lists l := by
  have hread : ∀ p ∈ places, ∃ x, v.read p = .ok x := by
    intro p hp
    obtain ⟨k, hk, rfl⟩ := List.getElem_of_mem hp
    obtain ⟨index, hin, rfl⟩ := Shape.exists_place_eq (hlength ▸ hk)
    rw [(List.getElem?_eq_some_iff.1 (hplaces index hin)).2]
    exact h index hin
  obtain ⟨l, hl⟩ := exists_mapM_eq_ok hread
  obtain ⟨hsame, heach⟩ := List.forall₂_iff_get.1 (mapM_eq_ok_iff.1 hl)
  refine ⟨l, hl, hsame.symm.trans hlength, ?_⟩
  intro index hin
  obtain ⟨hk, haddress⟩ := List.getElem?_eq_some_iff.1 (hplaces index hin)
  refine ⟨l[v.shape.place index], List.getElem?_eq_getElem (hsame ▸ hk), ?_⟩
  rw [← haddress]
  exact heach _ hk (hsame ▸ hk)

private theorem exists_elements (h : v.Readable) : ∃ l, v.elements = .ok l ∧ v.Lists l := by
  rw [elements]
  split
  · next hempty =>
    exact ⟨[], rfl, hempty.symm, fun index hin ↦ absurd hin.place_lt (by omega)⟩
  · exact exists_mapM_read h (length_positions _ _) fun index hin ↦ getElem?_positions hin

/-- A view has one list in row-major order. -/
theorem Lists.eq {l' : List α} (h : v.Lists l) (h' : v.Lists l') : l = l' := by
  apply List.ext_getElem (h.length.trans h'.length.symm)
  intro k hk _
  obtain ⟨index, hin, rfl⟩ := Shape.exists_place_eq (h.length ▸ hk)
  obtain ⟨x, hx, hread⟩ := h.element index hin
  obtain ⟨x', hx', hread'⟩ := h'.element index hin
  rw [(List.getElem?_eq_some_iff.1 hx).2, (List.getElem?_eq_some_iff.1 hx').2]
  exact Except.ok.inj (hread.symm.trans hread')

/-- A view with a list is readable. -/
theorem Lists.readable (h : v.Lists l) : v.Readable := fun index hin ↦ by
  obtain ⟨x, -, hread⟩ := h.element index hin
  exact ⟨x, hread⟩

/-- The elements of a view with a list are the list. -/
theorem Lists.elements_eq (h : v.Lists l) : v.elements = .ok l := by
  obtain ⟨l', hl', hlists⟩ := exists_elements h.readable
  rw [hl', hlists.eq h]

/-- A view is read as the tensor of its shape that holds its list. -/
theorem Lists.get?_eq (h : v.Lists l) (hshape : t.shape = v.shape) (hdata : t.data = l.toArray)
    (index : List ℕ) : v.get? index = t.get? index := by
  rw [get?]
  split
  · next hin =>
    obtain ⟨x, hx, hread⟩ := h.element index hin
    rw [← hshape] at hin hx
    simp [hread, t.get?_of_contains hin, hdata, hx, Except.toOption]
  · next hout => rw [t.get?_of_not_contains (hshape ▸ hout)]

/-- A view that shows a tensor is readable. -/
theorem Shows.readable {origin : List ℕ → List ℕ} (h : v.Shows t origin) : v.Readable :=
  fun index hin ↦ by
    obtain ⟨x, hread, -⟩ := h.read_address hin
    exact ⟨x, hread⟩

/-- A view that shows a tensor is read as the tensor at the index lists that its own come from. -/
theorem Shows.get?_eq {origin : List ℕ → List ℕ} (h : v.Shows t origin)
    (hin : v.shape.Contains index) : v.get? index = t.get? (origin index) := by
  obtain ⟨x, hread, hx⟩ := h.read_address hin
  rw [get?, if_pos hin, hread, hx]
  rfl

private theorem lists_rowMajor {dims : List ℕ} (h : l.length = (Shape.mk dims).count) :
    (⟨l.toArray, 0, rowMajor dims⟩ : Strided α).Lists l := by
  have hshape : (⟨l.toArray, 0, rowMajor dims⟩ : Strided α).shape = ⟨dims⟩ := by
    rw [shape, map_length_rowMajor]
  refine ⟨by rw [hshape, h], ?_⟩
  intro index hin
  rw [hshape] at hin ⊢
  have hk : (Shape.mk dims).place index < l.length := h ▸ hin.place_lt
  refine ⟨l[(Shape.mk dims).place index], List.getElem?_eq_getElem hk, ?_⟩
  rw [address, distance_rowMajor hin]
  simp [read, fetch_eq_ok_iff, hk]

end Strided

/-- What is known of the test for the standard layout: what it calls standard lies in row-major
order, and it calls every row-major block standard. -/
structure LayoutTest where
  standard : List StridedAxis → Bool
  sound : ∀ axes index, standard axes = true →
    (Shape.mk (axes.map StridedAxis.length)).Contains index →
      Strided.distance axes index = (Shape.mk (axes.map StridedAxis.length)).place index
  rowMajor : ∀ dims, standard (Strided.rowMajor dims) = true

namespace LayoutTest

/-- Every axis of more than one element steps over the elements of the later axes. -/
def stepsOver : List StridedAxis → Bool
  | [] => true
  | a :: axes => (a.length == 1 || a.stride == (Shape.mk (axes.map StridedAxis.length)).count) &&
    stepsOver axes

private theorem distance_stepsOver {axes : List StridedAxis} {index : List ℕ}
    (hsteps : stepsOver axes = true)
    (hin : (Shape.mk (axes.map StridedAxis.length)).Contains index) :
    Strided.distance axes index = (Shape.mk (axes.map StridedAxis.length)).place index := by
  induction axes generalizing index with
  | nil => simp [Strided.distance, Shape.place]
  | cons a axes ih =>
    cases index with
    | nil => cases hin
    | cons i index =>
      obtain ⟨hi, hrest⟩ := Shape.contains_cons.1 hin
      simp only [stepsOver, Bool.and_eq_true, Bool.or_eq_true, beq_iff_eq] at hsteps
      rw [Strided.distance_cons, ih hsteps.2 hrest, List.map_cons, Shape.place_cons hrest]
      obtain hone | hstride := hsteps.1
      · rw [hone, Nat.lt_one_iff] at hi
        simp [hi]
      · rw [hstride]
        push_cast
        rfl

/-- The test that looks at the strides: a view without elements is standard, and any other if its
axes step over the elements of the later ones. -/
def strides : LayoutTest where
  standard axes := axes.any (·.length == 0) || stepsOver axes
  sound axes index hstandard hin := by
    obtain hempty | hsteps := Bool.or_eq_true_iff.1 hstandard
    · obtain ⟨a, ha, hzero⟩ := List.any_eq_true.1 hempty
      have hcount : (Shape.mk (axes.map StridedAxis.length)).count = 0 :=
        List.prod_eq_zero (List.mem_map.2 ⟨a, ha, beq_iff_eq.1 hzero⟩)
      exact absurd hin.place_lt (by omega)
    · exact distance_stepsOver hsteps hin
  rowMajor dims := by
    have hsteps : stepsOver (Strided.rowMajor dims) = true := by
      induction dims with
      | nil => rfl
      | cons d dims ih => simp [Strided.rowMajor, stepsOver, Strided.map_length_rowMajor, ih]
    rw [hsteps, Bool.or_true]

variable {α : Type} {v : Strided α} {l : List α}

/-- Elements of a view that lie one after another from its first one, if the test calls it
standard. -/
def slice? (test : LayoutTest) (v : Strided α) : Option (List α) :=
  if test.standard v.axes then
    ((List.range v.shape.count).mapM fun k : ℕ ↦ v.read (v.origin + k)).toOption
  else none

/-- Elements of a view: those that lie one after another, or else one by one. -/
def toList (test : LayoutTest) (v : Strided α) : Except Fault (List α) :=
  match test.slice? v with
  | some l => .ok l
  | none => v.elements

/-- What is kept of a view: the view itself if the test calls it standard, and a copy in row-major
order otherwise. -/
def keep (test : LayoutTest) (v : Strided α) : Except Fault (Strided α) :=
  if test.standard v.axes then .ok v
  else do
    let l ← v.elements
    return ⟨l.toArray, 0, Strided.rowMajor v.shape.dims⟩

/-- Elements of a standard view lie one after another in row-major order. -/
theorem slice?_eq (test : LayoutTest) (hstandard : test.standard v.axes = true) (h : v.Lists l) :
    test.slice? v = some l := by
  have hrun : ∃ l, ((List.range v.shape.count).map fun k : ℕ ↦ v.origin + k).mapM v.read = .ok l ∧
      v.Lists l := by
    apply Strided.exists_mapM_read h.readable (by simp)
    intro index hin
    have hdistance := test.sound v.axes index hstandard hin
    rw [Strided.address, hdistance, List.getElem?_map, List.getElem?_range hin.place_lt]
    rfl
  obtain ⟨l', hl', hlists⟩ := hrun
  rw [List.mapM_map] at hl'
  rw [slice?, if_pos hstandard, ← hlists.eq h]
  exact congrArg Except.toOption hl'

private theorem exists_keep (test : LayoutTest) (h : v.Lists l) :
    ∃ kept, test.keep v = .ok kept ∧ test.standard kept.axes = true ∧ kept.shape = v.shape ∧
      kept.Lists l := by
  rw [keep]
  split
  · next hstandard => exact ⟨v, rfl, hstandard, rfl, h⟩
  · refine ⟨_, by rw [h.elements_eq]; rfl, test.rowMajor _, ?_, Strided.lists_rowMajor h.length⟩
    exact congrArg Shape.mk (Strided.map_length_rowMajor _)

/-- What is kept of a view holds a tensor: it has its shape, is read as the tensor is, and its
elements lie one after another as those of the tensor. -/
structure Keeps (test : LayoutTest) (kept : Strided α) (t : Tensor α) : Prop where
  shape : kept.shape = t.shape
  element : ∀ index, kept.get? index = t.get? index
  slice : test.slice? kept = some t.toList
  list : test.toList kept = .ok t.toList

/-- What is kept of a view holds the tensor with the list of the view. -/
theorem exists_keeps (test : LayoutTest) {t : Tensor α} (h : v.Lists l) (hshape : t.shape = v.shape)
    (hdata : t.data = l.toArray) : ∃ kept, test.keep v = .ok kept ∧ test.Keeps kept t := by
  obtain ⟨kept, hkept, hstandard, hkeptShape, hlists⟩ := test.exists_keep h
  have hlist : t.toList = l := by rw [Tensor.toList, hdata]
  have hslice := test.slice?_eq hstandard hlists
  rw [← hshape] at hkeptShape
  exact ⟨kept, hkept, hkeptShape, hlists.get?_eq hkeptShape.symm hdata, by rw [hslice, hlist],
    by rw [toList, hslice, hlist]⟩

end LayoutTest

namespace Tensor

variable {α : Type} {v : Strided α} {t : Tensor α} {l : List α}

private theorem exists_ofStrided (h : v.Lists l) (hfits : v.shape.occupied ≤ storageLimit) :
    ∃ copied, ofStrided v = .ok copied ∧ copied.shape = v.shape ∧ copied.data = l.toArray := by
  have hsize : l.toArray.size = v.shape.count := by simp [h.length]
  obtain ⟨copied, hcopied⟩ := exists_ofArray_iff.2 ⟨hsize, hfits⟩
  obtain ⟨-, -, hshape, hdata⟩ := ofArray_eq_ok_iff.1 hcopied
  refine ⟨copied, ?_, hshape, hdata⟩
  rw [ofStrided, h.elements_eq]
  simp only [bind, Except.bind, hcopied]

private theorem occupied_reorder {dims order : List ℕ} (h : order.Perm (List.range dims.length)) :
    (Shape.mk (order.map (dims.getD · 0))).occupied = (Shape.mk dims).occupied := by
  have hdims : (List.range dims.length).map (dims.getD · 0) = dims := by
    apply List.ext_getElem
    · simp
    · intro k hk _
      simp only [List.length_map, List.length_range] at hk
      simp [hk]
  have hperm := h.map (dims.getD · 0)
  rw [hdims] at hperm
  rw [Shape.occupied_eq_prod, Shape.occupied_eq_prod]
  exact (hperm.filter _).prod_eq

/-- A tensor created from elements is read at the index lists of its shape, each at the row-major
place of its own, and holds the elements as they were. After its axes were taken in any order and
any of them reversed, the copy has the reordered dimensions and is read at the index lists of these,
each giving the element of the tensor at the index list counted back and put back in order. What is
kept without a copy, where the test for the standard layout allows it, holds the copy and lies in
one run, whatever else the test calls standard. -/
theorem rowMajor_of_layouts (test : LayoutTest) {data : Array α} {shape : Shape} {t : Tensor α}
    (ht : ofArray data shape = .ok t) :
    t.HoldsRowMajor shape data ∧
    ∀ order reversed : List ℕ, order.Perm (List.range t.rank) → reversed.Nodup →
      (∀ a ∈ reversed, a < t.rank) →
      ∃ permuted view copied kept,
        (Strided.ofTensor t).permute order = some permuted ∧
        reversed.foldlM Strided.reverse permuted = some view ∧
        ofStrided view = .ok copied ∧
        copied.shape = ⟨order.map (shape.dims.getD · 0)⟩ ∧
        copied.HoldsRowMajor copied.shape copied.data ∧
        (∀ index, copied.shape.Contains index →
          shape.Contains
            (Strided.restore order (Strided.countBack copied.shape.dims reversed index)) ∧
          copied.get? index =
            t.get? (Strided.restore order (Strided.countBack copied.shape.dims reversed index))) ∧
        test.keep view = .ok kept ∧ test.Keeps kept copied := by
  obtain ⟨-, -, hshape, hdata⟩ := ofArray_eq_ok_iff.1 ht
  subst hshape hdata
  refine ⟨t.holdsRowMajor, fun order reversed horder hnodup hlt ↦ ?_⟩
  obtain ⟨permuted, view, hpermuted, hview, hviewShape, hshows⟩ :=
    Strided.exists_rearranged horder hnodup hlt
  obtain ⟨l, -, hlists⟩ := Strided.exists_elements hshows.readable
  have hfits : view.shape.occupied ≤ storageLimit := by
    rw [hviewShape, occupied_reorder horder]
    exact t.fits
  obtain ⟨copied, hcopied, hcopiedShape, hcopiedData⟩ := exists_ofStrided hlists hfits
  obtain ⟨kept, hkept, hkeeps⟩ := test.exists_keeps hlists hcopiedShape hcopiedData
  rw [← hcopiedShape] at hshows
  refine ⟨permuted, view, copied, kept, hpermuted, hview, hcopied, hcopiedShape.trans hviewShape,
    copied.holdsRowMajor, ?_, hkept, hkeeps⟩
  intro index hin
  rw [hcopiedShape] at hin
  refine ⟨hshows.inside index hin, ?_⟩
  rw [← hlists.get?_eq hcopiedShape hcopiedData]
  exact hshows.get?_eq hin

/-- With the axes of two, one and three elements taken as second, first and third, and the axis of
one element reversed, the test calls the view standard, and it is kept as it stands. With the axes
taken as third, first and second, and the axis of three elements reversed, it does not. Both copies
hold the last element where it was moved to. -/
theorem rowMajor_of_layouts_exchanged :
    let t : Tensor ℕ := ⟨⟨[2, 1, 3]⟩, #[0, 1, 2, 3, 4, 5], rfl, by decide⟩
    ∃ still moved stillCopy movedCopy,
      ((Strided.ofTensor t).permute [1, 0, 2]).bind (·.reverse 0) = some still ∧
      ((Strided.ofTensor t).permute [2, 0, 1]).bind (·.reverse 0) = some moved ∧
      LayoutTest.strides.keep still = .ok still ∧ LayoutTest.strides.standard moved.axes = false ∧
      ofStrided still = .ok stillCopy ∧ stillCopy.get? [0, 1, 2] = some 5 ∧
      ofStrided moved = .ok movedCopy ∧ movedCopy.get? [0, 1, 0] = some 5 := by
  intro t
  have ht : ofArray t.data t.shape = .ok t := rfl
  obtain ⟨-, hviews⟩ := rowMajor_of_layouts .strides ht
  obtain ⟨_, still, stillCopy, _, hp, hstill, hcopied, hshape, -, hread, -, -⟩ :=
    hviews [1, 0, 2] [0] (by decide) (by decide) (by decide)
  obtain ⟨_, moved, movedCopy, _, hq, hmoved, hcopied', hshape', -, hread', -, -⟩ :=
    hviews [2, 0, 1] [0] (by decide) (by decide) (by decide)
  cases hp
  cases hq
  cases hstill
  cases hmoved
  refine ⟨_, _, stillCopy, movedCopy, rfl, rfl, rfl, rfl, hcopied, ?_, hcopied', ?_⟩
  · rw [(hread [0, 1, 2] (by rw [hshape]; decide)).2, hshape]
    rfl
  · rw [(hread' [0, 1, 0] (by rw [hshape']; decide)).2, hshape']
    rfl

end Tensor

end RegionPooling
