import RegionPooling.Numeric.Scalar
import RegionPooling.Pooling.Bins
import RegionPooling.Storage

/-!
# Maximum of a bin

The winner of a bin is its first largest element in raster order; elements that are not numbers
never win. A bin without cells gives zero, and a bin whose elements are all not numbers gives
not-a-number; neither has a winner. Specification §4.2, steps 5 and 6, and §10.9.
-/

namespace RegionPooling

/-- What pooling one bin gives. -/
inductive BinResult (α : Type) where
  /-- The bin has no cell. -/
  | vacant
  /-- No cell of the bin holds a number. -/
  | undefined
  /-- The winner's position in its plane, and its value. -/
  | won (offset : Nat) (value : α)
  deriving DecidableEq

namespace BinResult

variable {α : Type}

/-- Pooled value of a bin. -/
def value [Scalar α] : BinResult α → α
  | vacant => Scalar.zero
  | undefined => Scalar.nan
  | won _ value => value

/-- Position of the winner, if there is one. -/
def winner : BinResult α → Option Nat
  | won offset _ => some offset
  | _ => none

/-- Whether a bin has no cell. -/
def isVacant : BinResult α → Bool
  | vacant => true
  | _ => false

end BinResult

/-- An element with its position. -/
structure Sample (α : Type) where
  offset : Nat
  value : α
  deriving DecidableEq

variable {α : Type} [Scalar α]

/-- The better of the best sample so far and the next one. Only a strictly larger value replaces,
so that ties go to the first; §4.2, step 6. -/
def better (best : Option (Sample α)) (next : Sample α) : Option (Sample α) :=
  match best with
  | none => if Scalar.isNaN next.value then none else some next
  | some current => if Scalar.lt current.value next.value then some next else best

/-- First largest element at the given positions of a plane. -/
def firstMax (plane : Array α) (offsets : List Nat) : Except Fault (Option (Sample α)) :=
  offsets.foldlM (fun best offset => do
    let value ← fetch plane offset
    pure (better best ⟨offset, value⟩)) none

/-- Pools one bin of a plane; §4.2, steps 5 and 6. -/
def poolBin (plane : Array α) (width : Nat) (extent : BinExtent) : Except Fault (BinResult α) :=
  if extent.isEmpty then .ok .vacant
  else do
    match ← firstMax plane (extent.offsets width) with
    | some best => pure (.won best.offset best.value)
    | none => pure .undefined

/-- At positions inside the plane the fold reads every element. -/
theorem firstMax_eq_ok {plane : Array α} {offsets : List Nat} {value : Nat → α}
    (read : ∀ k ∈ offsets, plane[k]? = some (value k)) :
    firstMax plane offsets =
      .ok (offsets.foldl (fun best k => better best ⟨k, value k⟩) none) := by
  simp only [firstMax]
  generalize (none : Option (Sample α)) = best
  induction offsets generalizing best with
  | nil => rfl
  | cons k offsets ih =>
    have here := fetch_eq_ok_iff.2 (read k (List.mem_cons_self ..))
    have rest := ih (fun j mem => read j (List.mem_cons_of_mem _ mem)) (better best ⟨k, value k⟩)
    rw [List.foldlM_cons, here]
    exact rest

end RegionPooling
