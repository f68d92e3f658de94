import RegionPooling.Config
import RegionPooling.Event

/-!
# Pooled shapes

The shape of a pooled result, up to the number of regions: the channels of the map and a
configuration that has been accepted. It is resolved from a configuration and either a channel count
or the shape of a map. Specification §4.1 and §10.7.
-/

namespace RegionPooling

/-- Channels and configuration of a pooled result. -/
structure PooledShape where
  channels : Nat
  config : PoolConfig
  deriving DecidableEq

namespace PooledShape

/-- Shape for a configuration and a number of channels; a bad configuration is refused. `resolve`,
§10.7. -/
def resolve (config : PoolConfig) (channels : Nat) : Run PooledShape := do
  Run.ofResult config.validate
  Run.report (.shapeResolved channels config.height config.width)
  pure ⟨channels, config⟩

/-- Shape for a configuration and the shape of a map, which must have four dimensions;
`resolve_for`, §10.7. -/
def resolveFor (config : PoolConfig) (map : Shape) : Run PooledShape :=
  match map.mapDims? with
  | some dims => resolve config dims.channels
  | none =>
    .ofResult (.error (.ofShape "resolve_pooled_shape" (.mapRank map.rank) map))

/-- Dimensions of the result for a number of regions; `output_dims`, §10.7. -/
def dims (s : PooledShape) (regions : Nat) : PooledDims :=
  ⟨regions, s.channels, s.config.height, s.config.width⟩

/-- Bins of one region over all channels; `cells_per_roi`, §10.7. -/
def cellsPerRegion (s : PooledShape) : Except Fault Nat := do
  times s.channels (← s.config.bins)

/-- Bins of a number of regions. -/
def cells (s : PooledShape) (regions : Nat) : Except Fault Nat := do
  times regions (← s.cellsPerRegion)

@[simp] theorem dims_regions (s : PooledShape) (n : Nat) : (s.dims n).regions = n := rfl

@[simp] theorem dims_channels (s : PooledShape) (n : Nat) : (s.dims n).channels = s.channels := rfl

@[simp] theorem dims_height (s : PooledShape) (n : Nat) : (s.dims n).height = s.config.height := rfl

@[simp] theorem dims_width (s : PooledShape) (n : Nat) : (s.dims n).width = s.config.width := rfl

/-- Exactly the accepted configurations resolve, and they resolve to themselves. -/
theorem outcome_resolve_eq_ok_iff {config : PoolConfig} {channels : Nat} {s : PooledShape} :
    (resolve config channels).outcome = .ok s ↔
      config.validate = .ok () ∧ s = ⟨channels, config⟩ := by
  rw [resolve, Run.outcome_check_bind_eq_ok_iff, Run.outcome_check_bind_eq_ok_iff]
  simp [eq_comm (a := s)]

/-- A shape resolves for a map exactly if the map has four dimensions and the configuration is
accepted. -/
theorem outcome_resolveFor_eq_ok_iff {config : PoolConfig} {map : Shape} {s : PooledShape} :
    (resolveFor config map).outcome = .ok s ↔
      ∃ d : MapDims, map = d.shape ∧ config.validate = .ok () ∧ s = ⟨d.channels, config⟩ := by
  simp only [← Shape.mapDims?_eq_some_iff, resolveFor]
  cases map.mapDims? with
  | none => simp
  | some d => simp [outcome_resolve_eq_ok_iff]

end PooledShape

end RegionPooling
