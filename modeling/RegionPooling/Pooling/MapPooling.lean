import RegionPooling.Pooling.Maximum
import RegionPooling.Pooling.PooledShape

/-!
# Pooling a map

Every region is pooled on its own entry of the batch, every channel on its own plane. The results of
a region are listed channel by channel and bins in raster order. Regions without bins are not
visited. Specification §4.2, step 7, and §10.5.
-/

namespace RegionPooling

variable {α : Type} [Scalar α]

/-- Pools the bins of one plane. -/
def poolPlane (plane : Array α) (width : Nat) (extents : List BinExtent) :
    Except Fault (List (BinResult α)) :=
  extents.mapM (poolBin plane width)

/-- Pools every channel of one region; §4.2, steps 1 to 7. -/
def poolRegion (data : Array α) (map : MapDims) (config : PoolConfig) (region : Region) :
    Except Fault (List (BinResult α)) := do
  let extents := (BinGrid.ofRegion region config : BinGrid α).extents config map.height map.width
  let channels ← (List.range map.channels).mapM fun channel => do
    let plane ← slice data (map.planeStart region.batch channel) map.plane
    poolPlane plane map.width extents
  pure channels.flatten

/-- Pools regions that have bins; one list of results for each. -/
def poolRegions (data : Array α) (map : MapDims) (shape : PooledShape) (regions : List Region) :
    Except Fault (List (List (BinResult α))) := do
  let each ← shape.cellsPerRegion
  if each = 0 then pure [] else regions.mapM (poolRegion data map shape.config)

/-- Number of bins without cells. -/
def vacancies (results : List (BinResult α)) : Nat := results.countP BinResult.isVacant

/-- Events of a pooled map: the regions that have bins without cells, then a summary; §10.5. -/
def poolEvents (map : MapDims) (config : PoolConfig) (regions : List Region)
    (results : List (List (BinResult α))) : List Event :=
  let counts := results.map vacancies
  ((regions.zip counts).filter fun entry => decide (0 < entry.2)).map
      (fun entry => .emptyBins entry.1 entry.2)
    ++ [.pooled regions.length map config.height config.width (counts.foldr (· + ·) 0)]

end RegionPooling
