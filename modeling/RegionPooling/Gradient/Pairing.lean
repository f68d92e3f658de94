import RegionPooling.Pooling.Winners

/-!
# Inputs of a gradient

A gradient of a pooled result can be carried back to a map if the map's shape has four dimensions,
the gradient has the shape of the table of winners, and the winners belong to the regions and the
map; specification §10.4 and §10.8. Main statement: exactly these inputs are accepted.
-/

namespace RegionPooling

/-- Dimensions of the map for which a gradient can be carried back. -/
def acceptGradient {α : Type} (w : Winners) (gradient : Tensor α) (regions : List Region)
    (map : Shape) (operation : String) : Except PoolError MapDims :=
  match map.mapDims? with
  | none => .error (.ofShape operation (.inputRank map.rank) map)
  | some dims =>
    if gradient.shape ≠ w.dims.shape then
      .error ⟨operation, .mismatch (.dims w.dims.shape) (.dims gradient.shape)⟩
    else (w.checkPairing regions dims operation).map fun _ => dims

/-- Exactly these inputs are accepted. -/
theorem acceptGradient_eq_ok_iff {α : Type} {w : Winners} {gradient : Tensor α}
    {regions : List Region} {map : Shape} {operation : String} {d : MapDims} :
    acceptGradient w gradient regions map operation = .ok d ↔
      map = d.shape ∧ gradient.shape = w.dims.shape ∧
        w.checkPairing regions d operation = .ok () := by
  simp only [acceptGradient, ← Shape.mapDims?_eq_some_iff]
  cases map.mapDims? with
  | none => simp
  | some dims =>
    by_cases same : gradient.shape = w.dims.shape
    · simp only [same, ne_eq, not_true_eq_false, if_false]
      constructor
      · intro h
        cases valid : w.checkPairing regions dims operation with
        | error e => rw [valid] at h; cases h
        | ok u => rw [valid] at h; cases h; exact ⟨rfl, trivial, valid⟩
      · rintro ⟨eq, -, valid⟩
        cases eq
        rw [valid]
        rfl
    · simp [same]

end RegionPooling
