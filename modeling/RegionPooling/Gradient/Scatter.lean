import RegionPooling.Event
import RegionPooling.Gradient.Pairing
import RegionPooling.Gradient.Routes
import RegionPooling.Numeric.Scalar

/-!
# Gradient by scattering

Every route adds the gradient of its bin to the map element at its end. Sums start from zero and are
formed in the order of the routes. Specification §4.3 (a) and §10.10.
-/

namespace RegionPooling

variable {α : Type} [Scalar α]

/-- Adds the gradient at the start of a route to the element at its end. -/
def addRoute (gradient sums : Array α) (route : Route) : Except Fault (Array α) := do
  let term ← fetch gradient route.cell
  adjust sums route.target (Scalar.add · term)

/-- Name under which refused inputs of scattering are reported. -/
def scattering : String := "roi_pool2d_backward"

/-- Gradient of the map, formed by walking the routes; `roi_pool2d_backward`, §10.10. -/
def scatter (w : Winners) (gradient : Tensor α) (regions : List Region) (map : Shape) :
    Run (Tensor α) := do
  let dims ← Run.ofResult (acceptGradient w gradient regions map scattering)
  let routes ← Run.ofExcept (w.routes regions dims)
  let sums ← Run.ofExcept
    (routes.foldlM (addRoute gradient.data) (Array.replicate dims.shape.size Scalar.zero))
  Run.report (.routed regions.length dims)
  Run.ofResult (Tensor.ofArray sums dims.shape)

/-- Scattering succeeds when the inputs are accepted, every route stays inside its plane and every
term is added inside the map. -/
theorem outcome_scatter_eq_ok_iff {w : Winners} {gradient : Tensor α} {regions : List Region}
    {map : Shape} {result : Tensor α} :
    (scatter w gradient regions map).outcome = .ok result ↔
      ∃ dims, acceptGradient w gradient regions map scattering = .ok dims ∧
        ∃ routes, w.routes regions dims = .ok routes ∧
          ∃ sums, routes.foldlM (addRoute gradient.data)
              (Array.replicate dims.shape.size Scalar.zero) = .ok sums ∧
            Tensor.ofArray sums dims.shape = .ok result := by
  simp [scatter]

end RegionPooling
