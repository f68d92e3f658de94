import RegionPooling.Proofs.Gradient.ElementSums

/-!
# Route counts

Counting the routes that end at a map element gives the number of bins that the element won. Main
statement: through a table that records a pass every element of the map is counted, and counting
leaves neither the storage of the table nor that of the counts. Specification §10.8.
-/

namespace RegionPooling

namespace Winners

variable {α : Type} [Scalar α] {w : Winners} {regions : List Region} {map : MapDims}
  {config : PoolConfig}

/-- A table belongs to the regions and the map of the pass that it records. -/
theorem Records.checkPairing_eq_ok (hr : w.Records α regions map config) (operation : String) :
    w.checkPairing regions map operation = .ok () :=
  checkPairing_eq_ok_iff.2 ⟨hr.regions_eq, _, hr.provenance, rfl, rfl⟩

/-- Numbers of bins that the elements of a map won, in the order of the elements. -/
def wonCounts (w : Winners) (regions : List Region) (map : MapDims) : Array ℕ :=
  ((List.range map.shape.count).map fun k ↦
    (w.wonBins regions map (map.position k)).length).toArray

/-- The number of bins that an element won is stored at its place. -/
theorem wonCounts_getElem? (w : Winners) (regions : List Region) {p : MapPosition}
    (hp : map.Contains p) :
    (w.wonCounts regions map)[map.place p]? = some (w.wonBins regions map p).length := by
  rw [wonCounts, List.getElem?_toArray]
  exact MapDims.getElem?_map_position (fun p ↦ (w.wonBins regions map p).length) hp

/-- Every element is counted as often as it won a bin. -/
theorem Records.routeCounts_eq_ok (hr : w.Records α regions map config)
    (hmap : map.shape.occupied ≤ storageLimit) :
    w.routeCounts regions map = .ok (w.wonCounts regions map) := by
  have hstart : Array.replicate map.shape.count 0 =
      ((List.range map.shape.count).map fun _ ↦ 0).toArray := by simp
  unfold routeCounts
  rw [hr.checkPairing_eq_ok, hr.routes_eq_ok, Shape.size_eq_count hmap, hstart]
  show List.foldlM _ _ _ = _
  rw [foldlM_eq_ok_of_adjust (fun n _ ↦ n + 1) fun r h ↦ ⟨hr.target_lt_count h, fun _ ↦ rfl⟩]
  unfold wonCounts
  congr 3
  funext k
  rw [hr.filter_routes k, List.foldl_add_const, List.length_map, Nat.zero_add, Nat.one_mul]

end Winners

end RegionPooling
