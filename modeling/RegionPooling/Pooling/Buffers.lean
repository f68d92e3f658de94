import RegionPooling.Pooling.MapPooling
import RegionPooling.Pooling.Winners
import RegionPooling.Region.Validation

/-!
# Pooled buffers

Buffers hold a pooled result and its winners, and can be filled again and again for one pooled shape
and any number of regions. Filling replaces everything the buffers held; a refusal leaves them as
they were. Where the number of bins is no size word, neither allocating nor filling has a result.
`pool` allocates buffers, fills them once and takes them apart. Specification §10.7 and §10.9.
-/

namespace RegionPooling

/-- Storage for a pooled result and its winners. -/
structure Buffers (α : Type) where
  shape : PooledShape
  regions : Nat
  output : Array α
  winners : Winners
  deriving DecidableEq

variable {α : Type}

/-- Fresh buffers for a number of regions: zeros, and no winners; `allocate`, §10.7. -/
def PooledShape.allocate [Scalar α] (s : PooledShape) (regions : Nat) :
    Except Fault (Buffers α) := do
  let cells ← s.cells regions
  let winners ← Winners.empty (s.dims regions)
  pure ⟨s, regions, Array.replicate cells Scalar.zero, winners⟩

namespace Buffers

/-- Dimensions of the result held. -/
def dims (b : Buffers α) : PooledDims := b.shape.dims b.regions

/-- Copy of the pooled values. -/
def outputTensor (b : Buffers α) : Except PoolError (Tensor α) :=
  Tensor.ofArray b.output b.dims.shape

/-- The pooled values and the winners. -/
def parts (b : Buffers α) : Except PoolError (Tensor α × Winners) :=
  b.outputTensor.map (·, b.winners)

/-- The parts are the pooled values as a tensor, if they form one, and the winners. -/
theorem parts_eq_ok_iff {b : Buffers α} {output : Tensor α} {w : Winners} :
    b.parts = .ok (output, w) ↔ b.outputTensor = .ok output ∧ b.winners = w := by
  unfold parts
  cases b.outputTensor with
  | error e => simp [Except.map]
  | ok t => simp [Except.map]

/-- Name under which refused maps and regions are reported. -/
def filling : String := "roi_pool2d_forward"

/-- Dimensions of a map that these buffers can take together with the regions: the map has four
dimensions and their number of channels, and the regions fit its batch. -/
def accept (b : Buffers α) (map : Tensor α) (regions : List Region) : Except PoolError MapDims :=
  match map.shape.mapDims? with
  | none => .error (.ofShape filling (.mapRank map.rank) map.shape)
  | some dims =>
    if b.shape.channels ≠ dims.channels then
      .error ⟨filling, .mismatch (.channels b.shape.channels) (.channels dims.channels)⟩
    else (validateRegions regions dims.batch filling).map fun _ => dims

/-- Clears the buffers for a number of regions. Nothing of what they held is left, so that they are
those of an allocation. -/
def resize [Scalar α] (b : Buffers α) (regions : Nat) : Except Fault (Buffers α) :=
  b.shape.allocate regions

/-- The same buffers with the results of a pass in place of what they hold. -/
def hold [Scalar α] (b : Buffers α) (map : MapDims) (regions : List Region)
    (results : List (List (BinResult α))) : Buffers α :=
  { b with
    output := (results.flatten.map BinResult.value).toArray
    winners :=
      { b.winners with
        cells := (results.flatten.map BinResult.winner).toArray
        provenance := some ⟨regions, map, b.shape.config⟩ } }

/-- Pools a map into the buffers; `roi_pool2d_forward_into`, §10.9. -/
def fill [Scalar α] (b : Buffers α) (map : Tensor α) (regions : List Region) : Run (Buffers α) := do
  let dims ← Run.ofResult (b.accept map regions)
  let cleared ← Run.ofExcept (b.resize regions.length)
  let results ← Run.ofExcept (poolRegions map.data dims b.shape regions)
  Run.reportAll (poolEvents dims b.shape.config regions results)
  pure (cleared.hold dims regions results)

/-- Buffers take exactly the maps of four dimensions and their own channel count, with regions in
order. -/
theorem accept_eq_ok_iff {b : Buffers α} {map : Tensor α} {regions : List Region} {d : MapDims} :
    b.accept map regions = .ok d ↔
      map.shape = d.shape ∧ d.channels = b.shape.channels ∧
        ∀ r ∈ regions, r.batch < d.batch ∧ r.isFinite = true := by
  simp only [accept, ← Shape.mapDims?_eq_some_iff]
  cases map.shape.mapDims? with
  | none => simp
  | some dims =>
    by_cases channels : b.shape.channels = dims.channels
    · have accepted := @validateRegions_eq_ok_iff regions dims.batch filling
      simp only [channels, ne_eq, not_true_eq_false, if_false]
      cases valid : validateRegions regions dims.batch filling with
      | error e =>
        simp only [valid] at accepted
        constructor
        · intro h; cases h
        · rintro ⟨same, -, all⟩; cases same; exact absurd (accepted.2 all) (by simp)
      | ok u =>
        have all := accepted.1 valid
        constructor
        · intro h; cases h; exact ⟨rfl, rfl, all⟩
        · rintro ⟨same, -, -⟩; cases same; rfl
    · simp only [channels, ne_eq, not_false_eq_true, if_true]
      constructor
      · intro h; cases h
      · rintro ⟨same, count, -⟩; cases same; exact absurd count.symm channels

/-- Filling succeeds when the inputs are accepted, the bins can be counted and every bin is pooled;
the buffers then hold the results. -/
theorem outcome_fill_eq_ok_iff [Scalar α] {b after : Buffers α} {map : Tensor α}
    {regions : List Region} :
    (b.fill map regions).outcome = .ok after ↔
      ∃ dims, b.accept map regions = .ok dims ∧
        ∃ cleared, b.resize regions.length = .ok cleared ∧
          ∃ results, poolRegions map.data dims b.shape regions = .ok results ∧
            cleared.hold dims regions results = after := by
  simp [fill]

end Buffers

/-- Pools a map under a configuration: the pooled values and their winners; `roi_pool2d_forward`,
§10.9. -/
def pool [Scalar α] (map : Tensor α) (regions : List Region) (config : PoolConfig) :
    Run (Tensor α × Winners) := do
  let shape ← PooledShape.resolveFor config map.shape
  let fresh ← Run.ofExcept (shape.allocate regions.length)
  let filled ← fresh.fill map regions
  Run.ofResult filled.parts

/-- Pooling succeeds when the shape resolves, fresh buffers are allocated and filled, and their
contents fit a tensor. -/
theorem outcome_pool_eq_ok_iff [Scalar α] {map : Tensor α} {regions : List Region}
    {config : PoolConfig} {result : Tensor α × Winners} :
    (pool map regions config).outcome = .ok result ↔
      ∃ shape, (PooledShape.resolveFor config map.shape).outcome = .ok shape ∧
        ∃ fresh : Buffers α, shape.allocate regions.length = .ok fresh ∧
          ∃ filled, (fresh.fill map regions).outcome = .ok filled ∧ filled.parts = .ok result := by
  simp [pool]

end RegionPooling
