import RegionPooling.Event
import RegionPooling.Gradient.Pairing
import RegionPooling.Pooling.Bins
import RegionPooling.Storage

/-!
# Gradient by gathering

Every map element looks, for each region of its batch entry, among the bins that may contain it for
those that it won, and adds their gradients. The sums are those of scattering, in the same order, as
long as no bin that an element won is missed. Specification §4.3 (b) and §10.10.
-/

namespace RegionPooling

variable {α : Type} [Scalar α]

/-- A region with its place in the list and its bins. -/
structure PlacedGrid (α : Type) where
  index : Nat
  batch : Nat
  grid : BinGrid α

/-- Bins of every region under a configuration. -/
def placeGrids (regions : List Region) (config : PoolConfig) : List (PlacedGrid α) :=
  regions.zipIdx.map fun (region, index) => ⟨index, region.batch, .ofRegion region config⟩

/-- Bins of one region that may have been won by an element of its batch entry. -/
def PlacedGrid.candidateCells (g : PlacedGrid α) (dims : PooledDims) (channels bins : Nat)
    (p : MapPosition) : List Nat :=
  let start := (g.index * channels + p.channel) * bins
  let columns := (g.grid.columns.candidates dims.width p.column).toList
  (g.grid.rows.candidates dims.height p.row).toList.flatMap fun row =>
    columns.map fun column => start + row * dims.width + column

/-- Adds the gradient of a bin if the element won it. -/
def addIfWon (w : Winners) (gradient : Array α) (offset : Nat) (sum : α) (cell : Nat) :
    Except Fault α := do
  let winner ← fetch w.cells cell
  if winner = some offset then
    let term ← fetch gradient cell
    pure (Scalar.add sum term)
  else pure sum

/-- Gradient of one map element. -/
def gatherAt (w : Winners) (gradient : Array α) (grids : List (PlacedGrid α)) (dims : MapDims)
    (bins : Nat) (p : MapPosition) : Except Fault α :=
  let cells := (grids.filter (·.batch = p.batch)).flatMap
    (·.candidateCells w.dims dims.channels bins p)
  cells.foldlM (addIfWon w gradient (dims.planeOffset p)) Scalar.zero

/-- Name under which refused inputs of gathering are reported. -/
def gathering : String := "roi_pool2d_backward_gather"

/-- Gradient of the map, formed element by element; `roi_pool2d_backward_gather`, §10.10. -/
def gather (w : Winners) (gradient : Tensor α) (regions : List Region) (map : Shape) :
    Run (Tensor α) := do
  let dims ← Run.ofResult (acceptGradient w gradient regions map gathering)
  let bins ← Run.ofExcept w.bins
  match w.config with
  | none => Run.ofResult (.error ⟨gathering, .stale .unpopulated⟩)
  | some config =>
    let grids := placeGrids regions ⟨w.dims.height, w.dims.width, config.scale⟩
    let sums ← Run.ofExcept <| (List.range dims.shape.size).mapM fun k =>
      gatherAt w gradient.data grids dims bins (dims.position k)
    Run.ofResult (Tensor.ofArray sums.toArray dims.shape)

/-- Gathering succeeds when the inputs are accepted, the bins of a channel can be counted, the table
was filled, and the sum of every element is formed inside the storage. -/
theorem outcome_gather_eq_ok_iff {w : Winners} {gradient : Tensor α} {regions : List Region}
    {map : Shape} {result : Tensor α} :
    (gather w gradient regions map).outcome = .ok result ↔
      ∃ dims, acceptGradient w gradient regions map gathering = .ok dims ∧
        ∃ bins, w.bins = .ok bins ∧
          ∃ config, w.config = some config ∧
            ∃ sums, ((List.range dims.shape.size).mapM fun k =>
                gatherAt w gradient.data
                  (placeGrids regions ⟨w.dims.height, w.dims.width, config.scale⟩) dims bins
                  (dims.position k)) = .ok sums ∧
              Tensor.ofArray sums.toArray dims.shape = .ok result := by
  cases found : w.config with
  | none => simp [gather, found]
  | some config => simp [gather, found]

end RegionPooling
