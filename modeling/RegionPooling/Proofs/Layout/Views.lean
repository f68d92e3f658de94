import Mathlib.Algebra.BigOperators.Group.List.Basic
import Mathlib.Tactic.Ring
import RegionPooling.Proofs.Layout.Positions
import RegionPooling.Proofs.Layout.RowMajor
import RegionPooling.Tensor.Strided

/-!
# Views of tensors

A view finds the element at an index list by the strides of its axes. Main statements: a view of a
tensor whose axes were reordered and then partly reversed shows at every index list the element of
the tensor at the index list that is counted back from the other ends and then put back into the
order of the tensor; its elements are listed in row-major order of its own axes.
-/

namespace RegionPooling

namespace Strided

variable {α : Type} {v : Strided α} {t : Tensor α} {axes : List StridedAxis}
  {order index dims : List ℕ}

/-- Distance in storage between the element at an index list and the first one. -/
def distance (axes : List StridedAxis) (index : List ℕ) : ℤ :=
  ((axes.zip index).map fun axis ↦ (axis.2 : ℤ) * axis.1.stride).sum

/-- Place in storage of the element at an index list. -/
def address (v : Strided α) (index : List ℕ) : ℤ := v.origin + distance v.axes index

/-- Element at a place in storage. -/
def read (v : Strided α) (p : ℤ) : Except Fault α :=
  if 0 ≤ p then fetch v.source p.toNat else .error .outOfBounds

/-- Element at an index list, if it lies in the shape of the view. -/
def get? (v : Strided α) (index : List ℕ) : Option α :=
  if v.shape.Contains index then (v.read (v.address index)).toOption else none

/-- The first index counts strides of the first axis. -/
theorem distance_cons (a : StridedAxis) (axes : List StridedAxis) (i : ℕ) (index : List ℕ) :
    distance (a :: axes) (i :: index) = i * a.stride + distance axes index := by
  simp [distance]

/-- The positions of a view are those of its index lists, in row-major order. -/
theorem getElem?_positions {origin : ℤ}
    (h : (Shape.mk (axes.map StridedAxis.length)).Contains index) :
    (positions origin axes)[(Shape.mk (axes.map StridedAxis.length)).place index]? =
      some (origin + distance axes index) := by
  induction axes generalizing origin index with
  | nil =>
    rw [Shape.contains_nil.1 h]
    simp [positions, distance, Shape.place]
  | cons a axes ih =>
    cases index with
    | nil => cases h
    | cons i index =>
      obtain ⟨hi, hrest⟩ := Shape.contains_cons.1 h
      rw [List.map_cons, Shape.place_cons hrest, positions,
        getElem?_flatMap_block (fun _ _ ↦ length_positions _ _) (List.getElem?_range hi)
          hrest.place_lt, ih hrest, distance_cons, Int.add_assoc]

/-- In a row-major block the distance of an element is its place. -/
theorem distance_rowMajor (h : (Shape.mk dims).Contains index) :
    distance (rowMajor dims) index = (Shape.mk dims).place index := by
  induction dims generalizing index with
  | nil => simp [rowMajor, distance, Shape.place]
  | cons d dims ih =>
    cases index with
    | nil => cases h
    | cons i index =>
      have hrest := (Shape.contains_cons.1 h).2
      rw [rowMajor, distance_cons, ih hrest, Shape.place_cons hrest]
      push_cast
      rfl

/-- A view shows the elements of a tensor: at an index list of the view stands the element of the
tensor at the index list that it comes from. -/
structure Shows (v : Strided α) (t : Tensor α) (origin : List ℕ → List ℕ) : Prop where
  source : v.source = t.data
  inside : ∀ index, v.shape.Contains index → t.shape.Contains (origin index)
  address : ∀ index, v.shape.Contains index → v.address index = t.shape.place (origin index)

/-- The view of a whole tensor shows it as it is. -/
theorem shows_ofTensor (t : Tensor α) : (ofTensor t).Shows t id where
  source := rfl
  inside index h := by rwa [shape_ofTensor] at h
  address index h := by
    rw [shape_ofTensor] at h
    simp [address, ofTensor, distance_rowMajor h]

/-- An index list of a view reads the element of the tensor that it comes from. -/
theorem Shows.read_address {origin : List ℕ → List ℕ} (h : v.Shows t origin)
    (hin : v.shape.Contains index) :
    ∃ x, v.read (v.address index) = .ok x ∧ t.get? (origin index) = some x := by
  obtain ⟨x, hx⟩ := t.exists_get?_iff.2 (h.inside index hin)
  refine ⟨x, ?_, hx⟩
  rw [t.get?_of_contains (h.inside index hin), ← h.source] at hx
  simp [read, h.address index hin, fetch_eq_ok_iff, hx]

section Reordering

/-- Axis of a view, by its number. -/
def axisAt (axes : List StridedAxis) (k : ℕ) : StridedAxis := axes.getD k ⟨0, 0⟩

/-- Index list in the order of the axes before they were reordered. -/
def restore (order index : List ℕ) : List ℕ :=
  (List.range index.length).map fun axis ↦ index.getD (order.idxOf axis) 0

variable (h : order.Perm (List.range axes.length))

include h

private theorem mem_order_iff {a : ℕ} : a ∈ order ↔ a < axes.length := by
  rw [h.mem_iff, List.mem_range]

private theorem length_order : order.length = axes.length := by
  rw [h.length_eq, List.length_range]

private theorem contains_restore
    (hin : (Shape.mk ((order.map (axisAt axes)).map StridedAxis.length)).Contains index) :
    (Shape.mk (axes.map StridedAxis.length)).Contains (restore order index) := by
  obtain ⟨hlength, hlt⟩ := Shape.contains_iff_getElem.1 hin
  simp only [Shape.rank, List.length_map, length_order h] at hlength
  refine Shape.contains_iff_getElem.2 ⟨by simp [restore, Shape.rank, hlength], ?_⟩
  intro a hi ha
  simp only [List.length_map] at ha
  have hplace := List.idxOf_lt_length_iff.2 ((mem_order_iff h).2 ha)
  have hk : order.idxOf a < index.length := by rwa [hlength, ← length_order h]
  have hbelow := hlt (order.idxOf a) hk (by simpa using hplace)
  simpa [restore, axisAt, hk, ha] using hbelow

private theorem distance_restore (hlength : index.length = axes.length) :
    distance (order.map (axisAt axes)) index = distance axes (restore order index) := by
  have hnodup : order.Nodup := h.nodup_iff.2 List.nodup_range
  let term (a : ℕ) : ℤ := (index.getD (order.idxOf a) 0 : ℤ) * (axisAt axes a).stride
  have hbefore : (axes.zip (restore order index)).map (fun axis ↦ (axis.2 : ℤ) * axis.1.stride) =
      (List.range axes.length).map term := by
    apply List.ext_getElem
    · simp [restore, hlength]
    · intro a ha _
      simp only [List.length_map, List.length_zip] at ha
      simp [restore, term, axisAt, show a < axes.length by omega]
  have hafter : ((order.map (axisAt axes)).zip index).map
      (fun axis ↦ (axis.2 : ℤ) * axis.1.stride) = order.map term := by
    apply List.ext_getElem
    · simp [hlength, length_order h]
    · intro k hk _
      simp only [List.length_map, List.length_zip] at hk
      simp [term, hnodup.idxOf_getElem, show k < index.length by omega]
  rw [distance, distance, hbefore, hafter]
  exact (h.map term).sum_eq

end Reordering

/-- A view whose axes are reordered shows the elements at the index lists in the old order. -/
theorem Shows.permute {origin : List ℕ → List ℕ} (hv : v.Shows t origin)
    (h : order.Perm (List.range v.axes.length)) :
    ∃ w, v.permute order = some w ∧ w.axes.length = v.axes.length ∧
      w.shape.dims = order.map (v.shape.dims.getD · 0) ∧ w.Shows t (origin ∘ restore order) := by
  have hdims : (order.map (axisAt v.axes)).map StridedAxis.length =
      order.map (v.shape.dims.getD · 0) := by
    rw [List.map_map]
    apply List.map_congr_left
    intro a ha
    simp [axisAt, shape, (mem_order_iff h).1 ha]
  refine ⟨⟨v.source, v.origin, order.map (axisAt v.axes)⟩, ?_, ?_, hdims, hv.source, ?_, ?_⟩
  · have haxes : order.filterMap (v.axes[·]?) = order.map (axisAt v.axes) := by
      rw [List.filterMap_eq_map_iff_forall_eq_some]
      intro a ha
      simp [axisAt, (mem_order_iff h).1 ha]
    rw [Strided.permute, if_pos (List.isPerm_iff.2 h), haxes]
  · rw [List.length_map, length_order h]
  · exact fun index hin ↦ hv.inside _ (contains_restore h hin)
  · intro index hin
    have hlength := hin.length_eq
    simp only [Shape.rank, shape, List.length_map, length_order h] at hlength
    rw [Function.comp_apply, ← hv.address _ (contains_restore h hin), Strided.address,
      Strided.address, distance_restore h hlength]

section Reversing

variable {a : ℕ} {x : StridedAxis}

private theorem contains_modify (hx : axes[a]? = some x)
    (hin : (Shape.mk (axes.map StridedAxis.length)).Contains index) :
    (Shape.mk (axes.map StridedAxis.length)).Contains
      (index.modify a (x.length - 1 - ·)) := by
  obtain ⟨hlength, hlt⟩ := Shape.contains_iff_getElem.1 hin
  refine Shape.contains_iff_getElem.2 ⟨by simp [hlength], ?_⟩
  intro k hk hd
  have hbelow := hlt k (by simpa using hk) hd
  rw [List.getElem_modify]
  split
  · next hak =>
    subst hak
    simp only [List.getElem_map, (List.getElem?_eq_some_iff.1 hx).2] at hbelow ⊢
    omega
  · exact hbelow

private theorem distance_modify (hx : axes[a]? = some x)
    (hin : (Shape.mk (axes.map StridedAxis.length)).Contains index) :
    (x.length - 1 : ℕ) * x.stride + distance (axes.set a ⟨x.length, -x.stride⟩) index =
      distance axes (index.modify a (x.length - 1 - ·)) := by
  induction axes generalizing a index with
  | nil => simp at hx
  | cons b axes ih =>
    cases index with
    | nil => cases hin
    | cons i index =>
      obtain ⟨hi, hrest⟩ := Shape.contains_cons.1 hin
      cases a with
      | zero =>
        obtain rfl := Option.some.inj hx
        have hback : ((b.length - 1 - i : ℕ) : ℤ) = (b.length - 1 : ℕ) - i := by omega
        simp only [List.set_cons_zero, List.modify_zero_cons, distance_cons, hback]
        ring
      | succ a =>
        simp only [List.set_cons_succ, List.modify_succ_cons, distance_cons, ← ih hx hrest]
        ring

/-- A view that runs backwards along an axis shows the elements counted back along it. -/
theorem Shows.reverse {origin : List ℕ → List ℕ} (hv : v.Shows t origin)
    (ha : a < v.axes.length) :
    ∃ w, v.reverse a = some w ∧ w.shape = v.shape ∧
      w.Shows t fun index ↦ origin (index.modify a (v.shape.dims.getD a 0 - 1 - ·)) := by
  have hx : v.axes[a]? = some v.axes[a] := List.getElem?_eq_getElem ha
  have hd : v.shape.dims.getD a 0 = v.axes[a].length := by simp [shape, ha]
  have hshape : (Strided.mk v.source (v.origin + (v.axes[a].length - 1 : ℕ) * v.axes[a].stride)
      (v.axes.set a ⟨v.axes[a].length, -v.axes[a].stride⟩)).shape = v.shape := by
    have hlengths : (v.axes.set a ⟨v.axes[a].length, -v.axes[a].stride⟩).map StridedAxis.length =
        (v.axes.set a v.axes[a]).map StridedAxis.length := by
      simp only [List.map_set]
    rw [List.set_getElem_self] at hlengths
    exact congrArg Shape.mk hlengths
  refine ⟨_, by rw [Strided.reverse, hx, Option.map_some], hshape, hv.source, ?_, ?_⟩
  · intro index hin
    rw [hshape] at hin
    rw [hd]
    exact hv.inside _ (contains_modify hx hin)
  · intro index hin
    rw [hshape] at hin
    rw [hd, ← hv.address _ (contains_modify hx hin), Strided.address, Strided.address,
      ← distance_modify hx hin]
    ring

/-- Index list counted back from the other end along some axes. -/
def countBack (dims reversed index : List ℕ) : List ℕ :=
  index.mapIdx fun axis i ↦ if axis ∈ reversed then dims.getD axis 0 - 1 - i else i

private theorem modify_countBack {reversed : List ℕ} (h : a ∉ reversed) :
    (countBack dims reversed index).modify a (dims.getD a 0 - 1 - ·) =
      countBack dims (a :: reversed) index := by
  apply List.ext_getElem
  · simp [countBack]
  · intro k hk _
    simp only [countBack, List.getElem_modify, List.getElem_mapIdx, List.mem_cons]
    by_cases hak : a = k
    · simp [hak, hak ▸ h]
    · simp [hak, Ne.symm hak]

/-- A view that runs backwards along some of its axes shows the elements counted back along them. -/
theorem Shows.reverseAll {origin : List ℕ → List ℕ} {reversed : List ℕ} (hv : v.Shows t origin)
    (hnodup : reversed.Nodup) (hlt : ∀ a ∈ reversed, a < v.axes.length) :
    ∃ w, reversed.foldlM Strided.reverse v = some w ∧ w.shape = v.shape ∧
      w.Shows t (origin ∘ countBack v.shape.dims reversed) := by
  induction reversed generalizing v origin with
  | nil =>
    have hsame : origin ∘ countBack v.shape.dims [] = origin := by
      funext index
      simp [countBack, List.mapIdx_eq_zipIdx_map]
    refine ⟨v, rfl, rfl, ?_⟩
    rw [hsame]
    exact hv
  | cons a reversed ih =>
    obtain ⟨hfresh, hnodup⟩ := List.nodup_cons.1 hnodup
    obtain ⟨w, hw, hshape, hshows⟩ := hv.reverse (hlt a List.mem_cons_self)
    have hlength : w.axes.length = v.axes.length := by
      simpa [shape] using congrArg (fun s ↦ s.dims.length) hshape
    obtain ⟨last, hlast, hlastShape, hlastShows⟩ := ih hshows hnodup fun b hb ↦
      hlength ▸ hlt b (List.mem_cons_of_mem _ hb)
    refine ⟨last, ?_, hlastShape.trans hshape, ?_⟩
    · rw [List.foldlM_cons, hw]
      exact hlast
    · have hsame : origin ∘ countBack v.shape.dims (a :: reversed) =
          (fun index ↦ origin (index.modify a (v.shape.dims.getD a 0 - 1 - ·))) ∘
            countBack v.shape.dims reversed := by
        funext index
        exact congrArg origin (modify_countBack hfresh).symm
      rw [hshape] at hlastShows
      rw [hsame]
      exact hlastShows

end Reversing

/-- After the axes of a tensor were taken in any order and any of them reversed, the view shows the
tensor at the index lists counted back and put back in order. -/
theorem exists_rearranged {reversed : List ℕ} (horder : order.Perm (List.range t.rank))
    (hnodup : reversed.Nodup) (hlt : ∀ a ∈ reversed, a < t.rank) :
    ∃ permuted view, (ofTensor t).permute order = some permuted ∧
      reversed.foldlM Strided.reverse permuted = some view ∧
      view.shape = ⟨order.map (t.shape.dims.getD · 0)⟩ ∧
      view.Shows t (restore order ∘ countBack view.shape.dims reversed) := by
  have hrank : (ofTensor t).axes.length = t.rank := by
    have hlengths := congrArg List.length (map_length_rowMajor t.shape.dims)
    rwa [List.length_map] at hlengths
  obtain ⟨permuted, hpermuted, hsides, hdims, hpermutedShows⟩ :=
    (shows_ofTensor t).permute (hrank ▸ horder)
  obtain ⟨view, hview, hshape, hshows⟩ := hpermutedShows.reverseAll hnodup fun a ha ↦ by
    rw [hsides, hrank]
    exact hlt a ha
  rw [shape_ofTensor] at hdims
  rw [← hshape] at hshows
  exact ⟨permuted, view, hpermuted, hview, hshape.trans (congrArg Shape.mk hdims), hshows⟩

end Strided

end RegionPooling
