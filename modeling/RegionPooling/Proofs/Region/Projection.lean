import RegionPooling.Proofs.Numeric.Exactness
import RegionPooling.Region.Box

/-!
# Projection onto the grid

A corner of a box comes from one product of a coordinate with the scale. Main statement: formed in
double numbers the product is exact, so that the corner is the exact product rounded to the nearest
whole number, halves away from zero, and moved to the nearer end of the grid if it lies outside.
Specification §4.2, step 1, and §10.6.
-/

namespace RegionPooling

/-- Grid coordinate that belongs to the exact product of a coordinate with a scale. -/
def IsProjection (scale coordinate : Binary .single) (n : ℤ) : Prop :=
  ∃ m, IsNearestAway (coordinate.value * scale.value) m ∧ n = max (-2 ^ 63) (min m (2 ^ 63 - 1))

/-- A product of finite numbers has one grid coordinate. -/
theorem IsProjection.unique {scale coordinate : Binary .single} {m n : ℤ}
    (hm : IsProjection scale coordinate m) (hn : IsProjection scale coordinate n) : m = n := by
  obtain ⟨k, hk, rfl⟩ := hm
  obtain ⟨l, hl, rfl⟩ := hn
  rw [hk.unique hl]

/-- Formed in double numbers the projection of a finite coordinate is that of the exact product. -/
theorem isProjection_iff_project {scale coordinate : Binary .single} {n : ℤ}
    (hscale : scale.isFinite = true) (hcoordinate : coordinate.isFinite = true) :
    IsProjection scale coordinate n ↔ n = project (Binary .double) scale coordinate := by
  obtain ⟨hfinite, hvalue⟩ := Binary.mul_convert_exact hcoordinate hscale
  obtain ⟨m, hm, hgrid⟩ := Binary.exists_roundGrid_eq hfinite
  rw [hvalue] at hm
  have hproject : IsProjection scale coordinate (project (Binary .double) scale coordinate) :=
    ⟨m, hm, hgrid⟩
  constructor
  · intro hn
    exact hn.unique hproject
  · rintro rfl
    exact hproject

/-- For a finite region and a finite scale, subnormal and huge ones included, no double product of a
coordinate with the scale is rounded, and each corner of the box is the grid coordinate that belongs
to the exact product. -/
theorem box_double_exact {region : Region} {scale : Binary .single}
    (hregion : region.isFinite = true) (hscale : scale.isFinite = true) :
    let box := region.box (Binary .double) scale
    (∀ c ∈ region.coordinates,
      ((c.convert : Binary .double).mul scale.convert).isFinite = true ∧
        ((c.convert : Binary .double).mul scale.convert).value = c.value * scale.value) ∧
    (∀ n, IsProjection scale region.x1 n ↔ n = box.columns.first) ∧
    (∀ n, IsProjection scale region.y1 n ↔ n = box.rows.first) ∧
    (∀ n, IsProjection scale region.x2 n ↔ n = box.columns.last) ∧
    ∀ n, IsProjection scale region.y2 n ↔ n = box.rows.last := by
  intro box
  have hfinite : ∀ c ∈ region.coordinates, c.isFinite = true := List.all_eq_true.1 hregion
  refine ⟨fun c hc ↦ Binary.mul_convert_exact (hfinite c hc) hscale, ?_, ?_, ?_, ?_⟩
  all_goals
    intro n
    exact isProjection_iff_project hscale (hfinite _ (by simp [Region.coordinates]))

/-- Coordinates whose halves lie between whole numbers, with the least and the greatest one. -/
theorem box_double_exact_halves :
    let region : Region := ⟨0, .ofInt (-5), .ofBits 1, .ofInt ((2 ^ 24 - 1) * 2 ^ 104), .ofInt 1⟩
    let scale : Binary .single := .ofFraction 1 2
    region.isFinite = true ∧ scale.isFinite = true ∧
      region.box (Binary .double) scale = ⟨⟨0, 1⟩, ⟨-3, 2 ^ 63 - 1⟩⟩ ∧
      IsProjection scale region.x1 (-3) ∧ IsProjection scale region.y1 0 ∧
      IsProjection scale region.x2 (2 ^ 63 - 1) ∧ IsProjection scale region.y2 1 := by
  intro region scale
  have hregion : region.isFinite = true := by decide +kernel
  have hscale : scale.isFinite = true := by decide +kernel
  have hbox : region.box (Binary .double) scale = ⟨⟨0, 1⟩, ⟨-3, 2 ^ 63 - 1⟩⟩ := by decide +kernel
  obtain ⟨-, hx1, hy1, hx2, hy2⟩ := box_double_exact hregion hscale
  rw [hbox] at hx1 hy1 hx2 hy2
  exact ⟨hregion, hscale, hbox, (hx1 _).2 rfl, (hy1 _).2 rfl, (hx2 _).2 rfl, (hy2 _).2 rfl⟩

end RegionPooling
