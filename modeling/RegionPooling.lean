import RegionPooling.Gradient.Gather
import RegionPooling.Layer
import RegionPooling.Tensor.Strided
import RegionPooling.Proofs.Numeric.Nearest
import RegionPooling.Proofs.Numeric.Magnitude
import RegionPooling.Proofs.Bins.Edges
import RegionPooling.Proofs.Bins.Candidates
import RegionPooling.Proofs.Layout.Positions
import RegionPooling.Proofs.Numeric.Order
import RegionPooling.Proofs.Pooling.FirstMaximum
import RegionPooling.Proofs.Pooling.Sizes
import RegionPooling.Proofs.Pooling.Cells
import RegionPooling.Proofs.Pooling.Reference
import RegionPooling.Proofs.Pooling.Refilling
import RegionPooling.Proofs.Pooling.WholePlane
import RegionPooling.Proofs.Pooling.Independence
import RegionPooling.Proofs.Numeric.WholeNumbers
import RegionPooling.Proofs.Gradient.UnitGradient
import RegionPooling.Proofs.Gradient.Raising
import RegionPooling.Proofs.Strict.Passes
import RegionPooling.Proofs.Gradient.Agreement
import RegionPooling.Proofs.Gradient.Scattering
import RegionPooling.Proofs.Gradient.Gathering
import RegionPooling.Proofs.Gradient.OffMap
import RegionPooling.Proofs.Session.Pairing
import RegionPooling.Proofs.Pooling.Lookups
import RegionPooling.Proofs.Bins.Tiling
import RegionPooling.Proofs.Bins.Fit
import RegionPooling.Proofs.Pooling.BlockPooling
import RegionPooling.Proofs.Pooling.Acceptance
import RegionPooling.Proofs.Region.Projection
import RegionPooling.Proofs.Gradient.Lowering
import RegionPooling.Proofs.Layout.Creation
import RegionPooling.Proofs.Layout.Steps
import RegionPooling.Proofs.Layout.RowMajor
import RegionPooling.Proofs.Layout.Views
import RegionPooling.Proofs.Layout.Copies
import RegionPooling.Proofs.Pooling.Marks
import RegionPooling.Proofs.Region.Parsing
import RegionPooling.Proofs.Region.Ordering
import RegionPooling.Proofs.Pooling.Accounting
