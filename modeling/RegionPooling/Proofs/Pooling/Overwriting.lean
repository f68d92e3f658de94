import RegionPooling.Proofs.Pooling.Cells

/-!
# Filling in place

Buffers need not be formed anew for every pass. In place, the inputs are checked first; then the
buffers are cleared for the new number of regions, the results of one region after another are
written over what is stored, and at the end the inputs are noted. Main statement: whatever the
buffers held before, this leaves in them what `Buffers.fill` gives, and refused inputs leave them as
they were. Specification §4.2 and §10.9 ask that a pass overwrites its buffers fully.
-/

namespace RegionPooling

namespace Buffers

variable {α : Type} [Scalar α]

/-- Writes the result of one bin over what is stored at a place. -/
def write (b : Buffers α) (place : ℕ) (result : BinResult α) : Except Fault (Buffers α) := do
  let output ← adjust b.output place fun _ ↦ result.value
  let cells ← adjust b.winners.cells place fun _ ↦ result.winner
  pure { b with output := output, winners := { b.winners with cells := cells } }

/-- Writes the results of bins that are stored one after another. -/
def writeRegion (b : Buffers α) (start : ℕ) (results : List (BinResult α)) :
    Except Fault (Buffers α) :=
  (results.zipIdx start).foldlM (fun b entry ↦ b.write entry.2 entry.1) b

/-- Pools the regions of a list, each with its place in the list, and writes their results. Every
region has the same number of bins. -/
def writeRegions (b : Buffers α) (data : Array α) (map : MapDims) (each : ℕ)
    (regions : List (Region × ℕ)) : Except Fault (Buffers α) :=
  regions.foldlM (fun b entry ↦ do
    let results ← poolRegion data map b.shape.config entry.1
    b.writeRegion (entry.2 * each) results) b

/-- Clears the buffers and writes the results of all regions. Without bins there is nothing to
write. -/
def rewrite (b : Buffers α) (data : Array α) (map : MapDims) (regions : List Region) :
    Except Fault (Buffers α) := do
  let cleared ← b.resize regions.length
  let each ← b.shape.cellsPerRegion
  if each = 0 then pure cleared else cleared.writeRegions data map each regions.zipIdx

/-- Notes the inputs of a pass. -/
def note (b : Buffers α) (map : MapDims) (regions : List Region) : Buffers α :=
  { b with winners := { b.winners with provenance := some ⟨regions, map, b.shape.config⟩ } }

/-- Pools a map into the buffers in place. The answer comes with the buffers that are left. -/
def overwrite (b : Buffers α) (map : Tensor α) (regions : List Region) :
    Except Fault (Except PoolError Unit × Buffers α) :=
  match b.accept map regions with
  | .error e => .ok (.error e, b)
  | .ok dims => do
    let written ← b.rewrite map.data dims regions
    pure (.ok (), written.note dims regions)

/-- Buffers with given results in place of what they hold. -/
def holding (b : Buffers α) (results : List (BinResult α)) : Buffers α :=
  { b with
    output := (results.map BinResult.value).toArray
    winners := { b.winners with cells := (results.map BinResult.winner).toArray } }

/-- Cleared buffers hold bins without cells. -/
theorem fresh_eq_holding (s : PooledShape) (regions : ℕ) :
    s.fresh α regions =
      (s.fresh α regions).holding (List.replicate (s.dims regions).shape.count .vacant) := by
  unfold holding PooledShape.fresh Winners.blank
  rw [List.map_replicate, List.map_replicate, List.toArray_replicate, List.toArray_replicate]
  rfl

private theorem write_holding (b : Buffers α) {results : List (BinResult α)} {place : ℕ}
    (h : place < results.length) (result : BinResult α) :
    (b.holding results).write place result = .ok (b.holding (results.set place result)) := by
  have houtput : place < (results.map BinResult.value).toArray.size := by
    simpa using h
  have hcells : place < (results.map BinResult.winner).toArray.size := by
    simpa using h
  simp [write, holding, adjust_of_lt _ houtput, adjust_of_lt _ hcells, List.map_set, pure,
    Except.pure]

/-- Writing as many results replaces those that follow each other from a place on. -/
theorem writeRegion_holding (b : Buffers α) (before after : List (BinResult α))
    {old new : List (BinResult α)} (h : old.length = new.length) :
    (b.holding (before ++ old ++ after)).writeRegion before.length new =
      .ok (b.holding (before ++ new ++ after)) := by
  induction new generalizing before old with
  | nil =>
    rw [List.length_nil, List.length_eq_zero_iff] at h
    subst h
    rfl
  | cons result new ih =>
    cases old with
    | nil => cases h
    | cons first old =>
      have hlt : before.length < (before ++ first :: old ++ after).length := by
        simp only [List.length_append, List.length_cons]
        omega
      have hset : (before ++ first :: old ++ after).set before.length result =
          (before ++ [result]) ++ old ++ after := by
        simp
      have hrest := ih (before ++ [result]) (Nat.succ.inj h)
      rw [List.length_append, List.length_singleton] at hrest
      unfold writeRegion at hrest ⊢
      rw [List.zipIdx_cons, List.foldlM_cons, write_holding b hlt, hset, ok_bind, hrest]
      simp

private theorem writeRegions_holding (b : Buffers α) {data : Array α} {map : MapDims} {each : ℕ}
    {result : ℕ → List (BinResult α)} {regions : List Region} {index : ℕ}
    {before : List (BinResult α)} (hbefore : before.length = index * each)
    (h : ∀ entry ∈ regions.zipIdx index, poolRegion data map b.shape.config entry.1 =
      .ok (result entry.2) ∧ (result entry.2).length = each) :
    (b.holding (before ++ List.replicate (regions.length * each) .vacant)).writeRegions data map
        each (regions.zipIdx index) =
      .ok (b.holding (before ++ (regions.zipIdx index).flatMap fun entry ↦ result entry.2)) := by
  induction regions generalizing index before with
  | nil => simp [writeRegions, pure, Except.pure]
  | cons region regions ih =>
    rw [List.zipIdx_cons, List.forall_mem_cons] at h
    obtain ⟨⟨hpool, hlength⟩, hrest⟩ := h
    dsimp only at hpool hlength
    have hsplit : List.replicate ((region :: regions).length * each) (BinResult.vacant (α := α)) =
        List.replicate each .vacant ++ List.replicate (regions.length * each) .vacant := by
      rw [← List.replicate_add, List.length_cons]
      congr 1
      ring
    have hsame : (List.replicate each (BinResult.vacant : BinResult α)).length =
        (result index).length := by
      simp [hlength]
    have hwrite := b.writeRegion_holding before (List.replicate (regions.length * each) .vacant)
      hsame
    have hnextPlace : (before ++ result index).length = (index + 1) * each := by
      rw [List.length_append, hbefore, hlength]
      ring
    have hnext := ih hnextPlace hrest
    unfold writeRegions at hnext ⊢
    rw [List.zipIdx_cons, List.foldlM_cons, hsplit, ← List.append_assoc]
    show (poolRegion data map b.shape.config region >>= fun results ↦
      (b.holding _).writeRegion (index * each) results) >>= _ = _
    rw [hpool, ok_bind, ← hbefore, hwrite, List.flatMap_cons, ← List.append_assoc]
    exact hnext

/-- The results of all bins are written, if the result can be counted. -/
theorem rewrite_eq_ok {b : Buffers α} {data : Array α} {map : MapDims} {regions : List Region}
    (hsize : data.size = map.shape.count) (hb : ∀ r ∈ regions, r.batch < map.batch)
    (hc : map.channels = b.shape.channels)
    (hcount : (b.shape.dims regions.length).Countable) :
    b.rewrite data map regions =
      .ok ((b.shape.fresh α regions.length).holding ((b.shape.dims regions.length).positions.map
        (resultAt data map b.shape.config regions))) := by
  have hresize : b.resize regions.length = .ok (b.shape.fresh α regions.length) :=
    PooledShape.allocate_eq_ok hcount
  have hall : (b.shape.dims regions.length).shape.count =
      regions.length * (b.shape.channels * (b.shape.config.height * b.shape.config.width)) :=
    PooledDims.count_shape _
  simp only [rewrite, hresize, PooledShape.cellsPerRegion_of_countable hcount, ok_bind]
  split
  · next hzero =>
    rw [PooledDims.positions_eq_nil hzero, fresh_eq_holding, hall, hzero, Nat.mul_zero]
    rfl
  · let result (index : ℕ) := ((b.shape.dims regions.length).regionPositions index).map
      (resultAt data map b.shape.config regions)
    have hresult : ∀ entry ∈ regions.zipIdx, poolRegion data map b.shape.config entry.1 =
        .ok (result entry.2) ∧ (result entry.2).length =
          b.shape.channels * (b.shape.config.height * b.shape.config.width) := by
      intro entry hmem
      refine ⟨poolRegion_eq_ok_of_mem hsize hb hc hmem, ?_⟩
      rw [List.length_map, PooledDims.length_regionPositions]
      rfl
    have hflat : (regions.zipIdx.flatMap fun entry ↦ result entry.2) =
        (b.shape.dims regions.length).positions.map (resultAt data map b.shape.config regions) := by
      rw [PooledDims.positions, List.map_flatMap]
      exact flatMap_zipIdx_eq_range (h := result) fun _ _ _ ↦ rfl
    have hstart : ([] : List (BinResult α)).length =
        0 * (b.shape.channels * (b.shape.config.height * b.shape.config.width)) :=
      (Nat.zero_mul _).symm
    have hwrite := (b.shape.fresh α regions.length).writeRegions_holding hstart hresult
    rw [fresh_eq_holding, hall, ← hflat]
    exact hwrite

/-- Filling in place leaves what filling gives, and refused inputs leave the buffers as they were.
-/
theorem overwrite_eq_ok {b : Buffers α} {map : Tensor α} {regions : List Region}
    (hcount : (b.shape.dims regions.length).Countable) :
    b.overwrite map regions = .ok (match b.accept map regions with
      | .ok dims => (.ok (), b.filled map dims regions)
      | .error e => (.error e, b)) := by
  unfold overwrite
  cases haccept : b.accept map regions with
  | error e => rfl
  | ok dims =>
    obtain ⟨hshape, hchannels, hregions⟩ := accept_eq_ok_iff.1 haccept
    have hsize : map.data.size = dims.shape.count := by rw [map.size_data, hshape]
    dsimp only
    rw [rewrite_eq_ok hsize (fun r hr ↦ (hregions r hr).1) hchannels hcount]
    rfl

end Buffers

end RegionPooling
