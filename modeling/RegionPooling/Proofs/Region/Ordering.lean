import RegionPooling.Config
import RegionPooling.Proofs.Numeric.Exactness
import RegionPooling.Proofs.Numeric.Order
import RegionPooling.Region.Box

/-!
# Order of projected coordinates

A coordinate is converted, multiplied by the scale, rounded to a whole number and saturated. Each of
these steps keeps order; an infinite product stands for a whole number beyond the grid, so that it
needs no case of its own. Main statement: the projection keeps order in both formats, and the box of
a region whose corners are in order has its ends in order, contains both of its corners, and is as
long as its ends say, up to the greatest grid coordinate. Specification §10.6.
-/

namespace RegionPooling

namespace Format

variable {f : Format}

/-- Whole number nearest to a rounded quotient of units, halves going away from zero. -/
def nearestWhole (f : Format) (num den : ℕ) : ℕ :=
  (2 * f.roundRatio num den + f.one) / (2 * f.one)

/-- A larger quotient has a whole number at least as large. -/
theorem nearestWhole_mono {den : ℕ} (hd : 0 < den) : Monotone fun num ↦ f.nearestWhole num den := by
  intro a b h
  have hround : f.roundRatio a den ≤ f.roundRatio b den :=
    roundRatio_le_roundRatio hd hd (Nat.mul_le_mul_right den h)
  apply Nat.div_le_div_right
  omega

private theorem nearestWhole_zero {den : ℕ} (hd : 0 < den) : f.nearestWhole 0 den = 0 := by
  have hround : f.roundRatio 0 den = 0 := by
    simpa using roundRatio_mul_right f.representable_zero hd
  have ho := f.one_pos
  rw [nearestWhole, hround]
  exact Nat.div_eq_of_lt (by omega)

private theorem lt_nearestWhole_of_limit {num den : ℕ}
    (h : twoPow f.limitBits ≤ f.roundRatio num den) : gridMax < (f.nearestWhole num den : ℤ) := by
  have hlimit : twoPow 63 * (2 * f.one) ≤ 2 * twoPow f.limitBits := by
    cases f <;> decide +kernel
  have hwhole : twoPow 63 ≤ f.nearestWhole num den := by
    have ho := f.one_pos
    rw [nearestWhole, Nat.le_div_iff_mul_le (by omega)]
    omega
  have hgrid : gridMax + 1 = (twoPow 63 : ℤ) := by decide
  omega

end Format

namespace Binary

variable {f : Format}

private theorem roundGrid_ofRatio (negative : Bool) (num den : ℕ) :
    (ofRatio negative num den : Binary f).roundGrid =
      saturate (signed negative (f.nearestWhole num den)) := by
  unfold ofRatio
  dsimp only
  split
  · rfl
  · next h =>
    rw [Format.representable_roundRatio_iff, not_lt] at h
    have hbeyond := Format.lt_nearestWhole_of_limit h
    unfold roundGrid signed saturate gridMin
    unfold gridMax at hbeyond ⊢
    cases negative with
    | false =>
      simp only [Bool.false_eq_true, if_false]
      omega
    | true =>
      simp only [if_true]
      omega

private theorem exists_convert_eq (f : Format) :
    ∃ k, ∀ negative units (h : Format.single.Representable units), ∃ h',
      (convert (finite negative units h) : Binary f) = finite negative (units * k) h' := by
  cases f with
  | single =>
    refine ⟨1, fun negative units h ↦ ?_⟩
    simp only [Nat.mul_one]
    exact ⟨h, convert_self _⟩
  | double => exact ⟨twoPow 925, fun negative units h ↦ ⟨h.widen, convert_single h⟩⟩

/-- A number is numerically at most another one. -/
def AtMost (x y : Binary f) : Prop := x.lt y = true ∨ x.numEq y = true

private theorem atMost_finite_iff {s t : Bool} {u v : ℕ} {hu : f.Representable u}
    {hv : f.Representable v} :
    (finite s u hu).AtMost (finite t v hv) ↔ signed s u ≤ signed t v := by
  rw [AtMost, lt_iff_rank_lt rfl rfl, numEq_iff_rank_eq rfl rfl]
  exact le_iff_lt_or_eq.symm

private theorem signed_le_signed {change : ℕ → ℕ} (hmono : Monotone change) (hzero : change 0 = 0)
    {s t : Bool} {u v : ℕ} (h : signed s u ≤ signed t v) :
    signed s (change u) ≤ signed t (change v) := by
  cases s with
  | false =>
    cases t with
    | false =>
      simp only [signed, Bool.false_eq_true, if_false] at h ⊢
      have hle := hmono (show u ≤ v by omega)
      omega
    | true =>
      -- a negative sign above a positive one leaves zeros alone
      simp only [signed, Bool.false_eq_true, if_true, if_false] at h ⊢
      obtain rfl : u = 0 := by omega
      obtain rfl : v = 0 := by omega
      rw [hzero]
      rfl
  | true =>
    cases t with
    | false =>
      simp only [signed, Bool.false_eq_true, if_true, if_false]
      omega
    | true =>
      simp only [signed, if_true] at h ⊢
      have hle := hmono (show v ≤ u by omega)
      omega

end Binary

section

variable {f : Format} {scale : Binary .single}

private theorem exists_project_eq (f : Format) (hscale : PoolConfig.scaleUsable scale = true) :
    ∃ whole : ℕ → ℕ, Monotone whole ∧ whole 0 = 0 ∧
      ∀ negative units (h : Format.single.Representable units),
        project (Binary f) scale (.finite negative units h) =
          saturate (Binary.signed negative (whole units)) := by
  obtain ⟨hfinite, hpos⟩ := Bool.and_eq_true_iff.1 hscale
  cases scale with
  | nan => cases hfinite
  | infinity => cases hfinite
  | finite sign factor hfactor =>
    obtain rfl : sign = false := by
      cases sign with
      | false => rfl
      | true =>
        have hsigned : (0 : ℤ) < -factor := of_decide_eq_true hpos
        omega
    obtain ⟨k, hk⟩ := Binary.exists_convert_eq f
    obtain ⟨hfactor', hconvert⟩ := hk false factor hfactor
    have hmono := Format.nearestWhole_mono (f := f) f.one_pos
    refine ⟨fun units ↦ f.nearestWhole (units * k * (factor * k)) f.one, ?_, ?_, ?_⟩
    · intro u v h
      exact hmono (Nat.mul_le_mul_right _ (Nat.mul_le_mul_right _ h))
    · simp only [Nat.zero_mul]
      exact Format.nearestWhole_zero f.one_pos
    · intro negative units h
      obtain ⟨h', hunits⟩ := hk negative units h
      show ((Binary.convert _ : Binary f).mul (Binary.convert _)).roundGrid = _
      rw [hconvert, hunits, Binary.mul, Binary.roundGrid_ofRatio, Bool.bne_false]

/-- Coordinates in order are projected in order. -/
theorem project_le_project {a b : Binary .single} (hscale : PoolConfig.scaleUsable scale = true)
    (ha : a.isFinite = true) (hb : b.isFinite = true) (h : a.AtMost b) :
    project (Binary f) scale a ≤ project (Binary f) scale b := by
  obtain ⟨whole, hmono, hzero, hproject⟩ := exists_project_eq f hscale
  cases a with
  | nan => cases ha
  | infinity => cases ha
  | finite s u hu =>
    cases b with
    | nan => cases hb
    | infinity => cases hb
    | finite t v hv =>
      rw [hproject, hproject]
      apply saturate_mono
      exact Binary.signed_le_signed hmono hzero (Binary.atMost_finite_iff.1 h)

end

namespace Interval

variable {i : Interval}

private theorem length_of_le (h : i.first ≤ i.last) :
    i.length = saturate (saturate (i.last - i.first) + 1) := by
  unfold length
  simp only [saturate, gridMin, gridMax]
  omega

/-- An interval with its ends in order has the cells between them, up to the greatest grid
coordinate. -/
theorem length_eq_min (h : i.first ≤ i.last) :
    i.length = min (i.last - i.first + 1) (2 ^ 63 - 1) := by
  rw [length_of_le h]
  simp only [saturate, gridMin, gridMax]
  omega

end Interval

/-- The first corner of a region is at or before the second one along both axes. -/
structure Region.InOrder (r : Region) : Prop where
  columns : r.x1.AtMost r.x2
  rows : r.y1.AtMost r.y2

/-- Under a usable scale finite coordinates in order are projected in order, whatever becomes of
their products. So the box of a finite region with its corners in order has the ends of its rows and
of its columns in order, contains both corners, and counts the cells between its ends up to the
greatest grid coordinate: the least length of one cell changes nothing. -/
theorem project_keeps_order {f : Format} {scale : Binary .single}
    (hscale : PoolConfig.scaleUsable scale = true) :
    (∀ a b : Binary .single, a.isFinite = true → b.isFinite = true → a.AtMost b →
      project (Binary f) scale a ≤ project (Binary f) scale b) ∧
    ∀ region : Region, region.isFinite = true → region.InOrder →
      let box := region.box (Binary f) scale
      box.rows.first ≤ box.rows.last ∧ box.columns.first ≤ box.columns.last ∧
        box.contains box.rows.first box.columns.first = true ∧
        box.contains box.rows.last box.columns.last = true ∧
        box.height = min (box.rows.last - box.rows.first + 1) (2 ^ 63 - 1) ∧
        box.width = min (box.columns.last - box.columns.first + 1) (2 ^ 63 - 1) ∧
        ∀ i ∈ [box.rows, box.columns],
          i.length = saturate (saturate (i.last - i.first) + 1) := by
  refine ⟨fun a b ↦ project_le_project hscale, fun region hfinite horder ↦ ?_⟩
  intro box
  have hcoordinates : ∀ c ∈ region.coordinates, c.isFinite = true := List.all_eq_true.1 hfinite
  have hrows : box.rows.first ≤ box.rows.last :=
    project_le_project hscale (hcoordinates _ (by simp [Region.coordinates]))
      (hcoordinates _ (by simp [Region.coordinates])) horder.rows
  have hcolumns : box.columns.first ≤ box.columns.last :=
    project_le_project hscale (hcoordinates _ (by simp [Region.coordinates]))
      (hcoordinates _ (by simp [Region.coordinates])) horder.columns
  refine ⟨hrows, hcolumns, ?_, ?_, Interval.length_eq_min hrows, Interval.length_eq_min hcolumns,
    ?_⟩
  · simp only [Box.contains, Bool.and_eq_true, Interval.contains_iff]
    omega
  · simp only [Box.contains, Bool.and_eq_true, Interval.contains_iff]
    omega
  · intro i hi
    rcases List.mem_pair.1 hi with rfl | rfl
    · exact Interval.length_of_le hrows
    · exact Interval.length_of_le hcolumns

/-- Columns from the least to the greatest coordinate, whose products overflow, and rows from a
least negative number to zero. -/
theorem project_keeps_order_overflow :
    let least : Binary .single := .ofInt (-(2 ^ 24 - 1) * 2 ^ 104)
    let greatest : Binary .single := .ofInt ((2 ^ 24 - 1) * 2 ^ 104)
    let region : Region := ⟨0, least, .ofBits (2 ^ 31 + 1), greatest, .zero⟩
    let scale : Binary .single := .ofInt 16
    PoolConfig.scaleUsable scale = true ∧ region.isFinite = true ∧ region.InOrder ∧
      ((greatest.convert : Binary .single).mul scale.convert).isFinite = false ∧
      region.box (Binary .single) scale = ⟨⟨0, 0⟩, ⟨-2 ^ 63, 2 ^ 63 - 1⟩⟩ ∧
      (region.box (Binary .single) scale).contains 0 (-2 ^ 63) = true ∧
      (region.box (Binary .single) scale).height = 1 ∧
      (region.box (Binary .single) scale).width = 2 ^ 63 - 1 := by
  intro least greatest region scale
  have hscale : PoolConfig.scaleUsable scale = true := by decide +kernel
  have hregion : region.isFinite = true := by decide +kernel
  have horder : region.InOrder := ⟨.inl (by decide +kernel), .inl (by decide +kernel)⟩
  have hbox : region.box (Binary .single) scale = ⟨⟨0, 0⟩, ⟨-2 ^ 63, 2 ^ 63 - 1⟩⟩ := by
    decide +kernel
  obtain ⟨-, hcorner⟩ := project_keeps_order (f := .single) hscale
  obtain ⟨-, -, hfirst, -, hheight, hwidth, -⟩ := hcorner region hregion horder
  rw [hbox] at hfirst hheight hwidth
  refine ⟨hscale, hregion, horder, by decide +kernel, hbox, ?_, ?_, ?_⟩
  · rw [hbox]
    exact hfirst
  · rw [hbox, hheight]
    rfl
  · rw [hbox, hwidth]
    rfl

end RegionPooling
