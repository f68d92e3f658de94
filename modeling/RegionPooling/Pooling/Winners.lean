import RegionPooling.Config
import RegionPooling.Tensor.Basic

/-!
# Winners

For every bin of a pooled result, the plane position of the element that won it. A table of winners
remembers the regions, the map and the configuration it was recorded for; an empty table remembers
none. Specification §3 and §10.8.
-/

namespace RegionPooling

/-- The inputs for which winners were recorded; `provenance`, §10.8. -/
structure Provenance where
  regions : List Region
  map : MapDims
  config : PoolConfig
  deriving DecidableEq

/-- Winner of every bin of a pooled result; `WinnerIndex`, §10.8. -/
structure Winners where
  dims : PooledDims
  cells : Array (Option Nat)
  provenance : Option Provenance
  deriving DecidableEq

namespace Winners

/-- Table without winners that belongs to no inputs. -/
def empty (dims : PooledDims) : Except Fault Winners := do
  let size ← product dims.toList
  pure ⟨dims, Array.replicate size none, none⟩

/-- Bins of one channel of one region. -/
def bins (w : Winners) : Except Fault Nat := times w.dims.height w.dims.width

/-- Whether a pass has filled the table. -/
def isPopulated (w : Winners) : Bool := w.provenance.isSome

/-- Configuration of the pass that filled the table. -/
def config (w : Winners) : Option PoolConfig := w.provenance.map Provenance.config

/-- Winner of one bin; outside the dimensions there is none. `get`, §10.8. -/
def get (w : Winners) (region channel row column : Nat) : Except Fault (Option Nat) :=
  if region < w.dims.regions ∧ channel < w.dims.channels ∧ row < w.dims.height
      ∧ column < w.dims.width then
    fetch w.cells
      (((region * w.dims.channels + channel) * w.dims.height + row) * w.dims.width + column)
  else .ok none

/-- Number of bins that have a winner. -/
def won (w : Winners) : Nat := w.cells.countP Option.isSome

/-- Minus one for a bin without a winner, and positions as they are; §3. -/
def mark : Option Nat → Int64
  | none => -1
  | some offset => Int64.ofNat offset

/-- Winners as a tensor of signed words; `to_tensor`, §10.8. -/
def toTensor (w : Winners) : Except PoolError (Tensor Int64) :=
  Tensor.ofArray (w.cells.map mark) w.dims.shape

/-- Cause for which a table does not belong to the given regions and map. -/
def staleCause? (w : Winners) (regions : List Region) (map : MapDims) : Option StaleCause :=
  match w.provenance with
  | none => some .unpopulated
  | some source =>
    if w.dims.regions ≠ regions.length then some (.regionCount w.dims.regions regions.length)
    else if source.map ≠ map then some (.mapShape source.map map)
    else if source.regions ≠ regions then some .otherRegions
    else none

/-- Accepts a table for the given regions and map, or refuses it as stale; §10.8. -/
def checkPairing (w : Winners) (regions : List Region) (map : MapDims) (operation : String) :
    Except PoolError Unit :=
  match w.staleCause? regions map with
  | none => .ok ()
  | some cause => .error ⟨operation, .stale cause⟩

/-- A table belongs to exactly the inputs it remembers. -/
theorem checkPairing_eq_ok_iff {w : Winners} {regions : List Region} {map : MapDims}
    {operation : String} :
    w.checkPairing regions map operation = .ok () ↔
      w.dims.regions = regions.length ∧
        ∃ source, w.provenance = some source ∧ source.map = map ∧ source.regions = regions := by
  simp only [checkPairing, staleCause?]
  cases w.provenance with
  | none => simp
  | some source =>
    by_cases count : w.dims.regions = regions.length <;> by_cases same : source.map = map <;>
      by_cases set : source.regions = regions <;> simp [count, same, set]

end Winners

end RegionPooling
