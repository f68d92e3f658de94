import RegionPooling.Region.Basic
import RegionPooling.Tensor.Shape

/-!
# Rejections

Every rejection names the operation that refused its inputs and the cause; specification §7 and
§10.4. Causes are values; their wording is fixed once, in `PoolError.message`. Callers may also word
a rejection of their own.

A `Fault` is either a rejection, or an access outside the storage it was meant for, or a product of
sizes that is no size word. The last two are not answers to the caller, so they carry nothing.
-/

namespace RegionPooling

/-- Defects of a pooling configuration; `InvalidConfig`, §10.4. -/
inductive ConfigDefect where
  | noRows
  | noColumns
  | scale (value : Binary .single)
  | worded (text : String)
  deriving DecidableEq

/-- Defects of a region; `PreconditionViolation`, §10.4. -/
inductive RegionDefect where
  | notAnIndex (value : Binary .double)
  | batchOutOfRange (batch batchSize : Nat)
  | notFinite (region : Region)
  | worded (text : String)
  deriving DecidableEq

/-- Defects of a shape; `InvalidShape`, §10.4. -/
inductive ShapeDefect where
  | mapRank (rank : Nat)
  | inputRank (rank : Nat)
  | dataLength (length : Nat) (shape : Shape)
  | regionRows (shape : Shape)
  | storageOverflow
  | worded (text : String)
  deriving DecidableEq

/-- One side of a comparison between shapes; `ShapeMismatch`, §10.4. -/
inductive ShapeSide where
  | channels (count : Nat)
  | dims (shape : Shape)
  | worded (text : String)
  deriving DecidableEq

/-- Reasons for which recorded winners do not belong to the inputs; `StaleWinnerIndex`, §10.4. -/
inductive StaleCause where
  | unpopulated
  | regionCount (covered supplied : Nat)
  | mapShape (recorded supplied : MapDims)
  | otherRegions
  | worded (text : String)
  deriving DecidableEq

/-- Why an operation refused its inputs. -/
inductive Cause where
  | config (defect : ConfigDefect)
  | region (index : Nat) (defect : RegionDefect)
  | shape (defect : ShapeDefect) (dims : Option Shape)
  | mismatch (expected got : ShapeSide)
  | stale (cause : StaleCause)
  deriving DecidableEq

/-- Refusal of an operation. -/
structure PoolError where
  operation : String
  cause : Cause
  deriving DecidableEq

/-- Wording of a configuration defect. -/
def ConfigDefect.text : ConfigDefect → String
  | noRows => "pooled_height must be > 0"
  | noColumns => "pooled_width must be > 0"
  | scale value => "spatial_scale must be finite and positive, got " ++ value.text .plain
  | worded text => text

/-- Wording of a region defect. -/
def RegionDefect.text : RegionDefect → String
  | notAnIndex value => "batch index " ++ value.text .plain ++ " is not a valid index"
  | batchOutOfRange batch batchSize =>
    "batch index " ++ toString batch ++ " out of range for batch size " ++ toString batchSize
  | notFinite region => "non-finite coordinates " ++ region.text
  | worded text => text

/-- Wording of a shape defect. -/
def ShapeDefect.text : ShapeDefect → String
  | mapRank rank => "Feature maps must be 4D, got " ++ toString rank ++ "D"
  | inputRank rank => "Input shape must be 4D, got " ++ toString rank ++ "D"
  | dataLength length shape =>
    "Data length " ++ toString length ++ " does not match shape " ++ shape.text
      ++ " (expected " ++ toString shape.size ++ " elements)"
  | regionRows shape => "ROIs must be [num_rois, 5], got " ++ shape.text
  | storageOverflow => "Shape error: ShapeError/Overflow: arithmetic overflow"
  | worded text => text

/-- Wording of one side of a comparison. -/
def ShapeSide.text : ShapeSide → String
  | channels count => toString count ++ " channels"
  | dims shape => shape.text
  | worded text => text

/-- Wording of a reason. -/
def StaleCause.text : StaleCause → String
  | unpopulated => "winner index has not been populated by a forward pass"
  | regionCount covered supplied =>
    "winner index covers " ++ toString covered ++ " ROIs but " ++ toString supplied
      ++ " were supplied"
  | mapShape recorded supplied =>
    "winner index was computed for feature map " ++ recorded.shape.text
      ++ " but input shape is " ++ supplied.shape.text
  | otherRegions => "winner index was computed for a different ROI set"
  | worded text => text

namespace PoolError

/-- Full text of a refusal. -/
def message (e : PoolError) : String :=
  let place := " in operation '" ++ e.operation ++ "': "
  match e.cause with
  | .config defect => "Invalid configuration" ++ place ++ defect.text
  | .region _ defect => "Precondition violated" ++ place ++ defect.text
  | .shape defect _ => "Invalid shape" ++ place ++ defect.text
  | .mismatch expected got =>
    "Shape mismatch" ++ place ++ "expected " ++ expected.text ++ ", got " ++ got.text
  | .stale cause => "Stale winner index" ++ place ++ cause.text

/-- Refusal of a shape, with the shape attached. -/
def ofShape (operation : String) (defect : ShapeDefect) (dims : Shape) : PoolError :=
  ⟨operation, .shape defect (some dims)⟩

end PoolError

/-- Ways in which an operation ends without a result. -/
inductive Fault where
  | rejected (error : PoolError)
  | outOfBounds
  | overflow
  deriving DecidableEq

/-- A result, or a refusal as a fault. -/
def Fault.ofRefusal {α : Type} : Except PoolError α → Except Fault α
  | .ok a => .ok a
  | .error e => .error (.rejected e)

/-- A refusal becomes a fault and a result stays. -/
@[simp] theorem Fault.ofRefusal_eq_ok_iff {α : Type} {result : Except PoolError α} {a : α} :
    Fault.ofRefusal result = .ok a ↔ result = .ok a := by
  cases result <;> simp [ofRefusal]

end RegionPooling
