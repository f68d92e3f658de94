import RegionPooling.Gradient.Scatter
import RegionPooling.Pooling.Buffers
import RegionPooling.Region.Rows

/-!
# Pooling layers

A layer is a configuration that has been accepted. It pools maps under that configuration, with
regions given as a list or as the rows of a tensor, and carries gradients back by scattering; it
keeps no state between calls. Specification §10.11.
-/

namespace RegionPooling

/-- Layer with an accepted configuration. -/
structure Layer where
  config : PoolConfig
  deriving DecidableEq

namespace Layer

/-- Layer for a configuration; a bad configuration is refused, and the accepted scale is reported;
§10.3. -/
def create (config : PoolConfig) : Run Layer := do
  Run.ofResult config.validate
  Run.report (.scaleAccepted config.scale)
  pure ⟨config⟩

/-- Layer with a square grid. -/
def square (size : Nat) (scale : Binary .single) : Run Layer := create (.square size scale)

/-- Exactly the accepted configurations give a layer, and it keeps them. -/
theorem outcome_create_eq_ok_iff {config : PoolConfig} {layer : Layer} :
    (create config).outcome = .ok layer ↔ config.validate = .ok () ∧ layer = ⟨config⟩ := by
  rw [create, Run.outcome_check_bind_eq_ok_iff, Run.outcome_check_bind_eq_ok_iff]
  simp [eq_comm (a := layer)]

variable {α : Type} [Scalar α]

/-- Pools a map. -/
def forward (layer : Layer) (map : Tensor α) (regions : List Region) : Run (Tensor α × Winners) :=
  pool map regions layer.config

/-- Pools a map over the regions of a tensor, and returns the regions as well;
`forward_tensor_rois`, §10.11. -/
def forwardRows [RegionValue α] (layer : Layer) (map rows : Tensor α) :
    Run (Tensor α × Winners × List Region) := do
  let regions ← Run.ofExcept (Region.ofTensor rows)
  let (output, winners) ← layer.forward map regions
  pure (output, winners, regions)

/-- Carries a gradient back to the map. -/
def backward (_layer : Layer) (winners : Winners) (gradient : Tensor α) (regions : List Region)
    (map : Shape) : Run (Tensor α) :=
  scatter winners gradient regions map

end Layer

end RegionPooling
