import RegionPooling.Storage

/-!
# Pooling configuration

The size of the pooled grid and the scale from image to map coordinates; specification §4.1 and
§10.3. Main statement: a configuration is accepted exactly when both sizes are positive and the
scale is finite and positive.
-/

namespace RegionPooling

/-- Size of the pooled grid and scale of the coordinates. -/
structure PoolConfig where
  height : Nat
  width : Nat
  scale : Binary .single
  deriving DecidableEq

namespace PoolConfig

/-- Square grid; `square`, §10.3. -/
def square (size : Nat) (scale : Binary .single) : PoolConfig := ⟨size, size, scale⟩

/-- Seven by seven bins on a map sixteen times smaller than the image; the default of §10.3. -/
def standard : PoolConfig := square 7 (.ofFraction 1 16)

/-- Number of bins of one channel of one region. -/
def bins (c : PoolConfig) : Except Fault Nat := times c.height c.width

/-- Equal sizes and numerically equal scales. -/
def agree (c d : PoolConfig) : Bool :=
  decide (c.height = d.height) && decide (c.width = d.width) && c.scale.numEq d.scale

/-- A scale is usable if it is finite and above zero. -/
def scaleUsable (scale : Binary .single) : Bool := scale.isFinite && Binary.zero.lt scale

/-- First defect of a configuration: rows, then columns, then scale; §10.3. -/
def defect? (c : PoolConfig) : Option ConfigDefect :=
  if c.height = 0 then some .noRows
  else if c.width = 0 then some .noColumns
  else if scaleUsable c.scale then none
  else some (.scale c.scale)

/-- Accepts a configuration or names its first defect; `validate`, §10.3. -/
def validate (c : PoolConfig) : Except PoolError Unit :=
  match c.defect? with
  | none => .ok ()
  | some defect => .error ⟨"roi_pool_config", .config defect⟩

/-- Exactly the configurations with a positive size both ways and a usable scale are accepted. -/
theorem validate_eq_ok_iff {c : PoolConfig} :
    c.validate = .ok () ↔ 0 < c.height ∧ 0 < c.width ∧ scaleUsable c.scale = true := by
  simp only [validate, defect?, Nat.pos_iff_ne_zero]
  by_cases rows : c.height = 0 <;> by_cases columns : c.width = 0 <;>
    by_cases scale : scaleUsable c.scale = true <;> simp [rows, columns, scale]

end PoolConfig

end RegionPooling
