import RegionPooling.Pooling.Winners
import RegionPooling.Storage

/-!
# Routes from bins to map elements

A route leads from a bin that has a winner to the map element that won it. Routes are listed region
by region, channel by channel, bins in raster order. Counting the routes that end at each element
gives the gradient of a map under a unit gradient of its pooled result. Specification §4.3 (a) and
§10.8.
-/

namespace RegionPooling

/-- A bin with a winner, and the map element that won, both as flat positions. -/
structure Route where
  cell : Nat
  target : Nat
  deriving DecidableEq, Repr

/-- Route of one bin whose plane starts at `base`; a winner outside the plane is a fault. -/
def route (plane base cell : Nat) : Option Nat → Except Fault (Option Route)
  | none => .ok none
  | some offset => if offset < plane then .ok (some ⟨cell, base + offset⟩) else .error .outOfBounds

namespace Winners

/-- Routes of one channel of one region. -/
def channelRoutes (w : Winners) (map : MapDims) (bins index : Nat) (region : Region)
    (channel : Nat) : Except Fault (List Route) := do
  let start := (index * map.channels + channel) * bins
  let cells ← slice w.cells start bins
  let routes ← (cells.toList.zipIdx start).mapM fun (winner, cell) =>
    route map.plane (map.planeStart region.batch channel) cell winner
  pure (routes.filterMap id)

/-- Routes of all regions. -/
def routes (w : Winners) (regions : List Region) (map : MapDims) : Except Fault (List Route) := do
  let bins ← w.bins
  let routes ← regions.zipIdx.mapM fun (region, index) => do
    let channels ← (List.range map.channels).mapM (w.channelRoutes map bins index region)
    pure channels.flatten
  pure routes.flatten

/-- Number of bins that each map element won; `route_counts`, §10.8. -/
def routeCounts (w : Winners) (regions : List Region) (map : MapDims) :
    Except Fault (Array Nat) := do
  Fault.ofRefusal (w.checkPairing regions map "route_counts")
  let routes ← w.routes regions map
  routes.foldlM (fun counts route => adjust counts route.target (· + 1))
    (Array.replicate map.shape.size 0)

end Winners

end RegionPooling
