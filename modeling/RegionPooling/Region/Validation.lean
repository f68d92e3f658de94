import RegionPooling.Error

/-!
# Regions that fit a batch

A list of regions is accepted if each one names an entry of the batch and has finite coordinates.
Otherwise the first offending region is refused, its batch entry being looked at first;
specification §4.2 and §10.6. Main statement: the list is accepted exactly when every region is in
order.
-/

namespace RegionPooling

namespace Region

/-- Defect of a region in a batch of a given size. -/
def defect? (r : Region) (batchSize : Nat) : Option RegionDefect :=
  if batchSize ≤ r.batch then some (.batchOutOfRange r.batch batchSize)
  else if r.isFinite then none
  else some (.notFinite r)

/-- A region is in order if its entry exists and its coordinates are numbers. -/
@[simp] theorem defect?_eq_none_iff {r : Region} {batchSize : Nat} :
    r.defect? batchSize = none ↔ r.batch < batchSize ∧ r.isFinite = true := by
  simp only [defect?]
  split
  · simp; omega
  · split <;> simp_all

end Region

/-- Defect of the first offending region, with its place in the list. -/
def firstDefect? (regions : List Region) (batchSize : Nat) : Option (Nat × RegionDefect) :=
  go 0 regions
where
  /-- Defect of the first offender among the regions from a given place on. -/
  go (index : Nat) : List Region → Option (Nat × RegionDefect)
    | [] => none
    | r :: regions =>
      match r.defect? batchSize with
      | some defect => some (index, defect)
      | none => go (index + 1) regions

/-- Accepts a list of regions for a batch, or refuses its first offender; `validate_rois`, §10.6. -/
def validateRegions (regions : List Region) (batchSize : Nat) (operation : String) :
    Except PoolError Unit :=
  match firstDefect? regions batchSize with
  | none => .ok ()
  | some (index, defect) => .error ⟨operation, .region index defect⟩

/-- No defect is found exactly when no region has one. -/
theorem firstDefect?_eq_none_iff {regions : List Region} {batchSize : Nat} :
    firstDefect? regions batchSize = none ↔ ∀ r ∈ regions, r.defect? batchSize = none := by
  simp only [firstDefect?]
  generalize 0 = index
  induction regions generalizing index with
  | nil => simp [firstDefect?.go]
  | cons r regions ih =>
    simp only [firstDefect?.go, List.forall_mem_cons]
    split
    · next found => simp [found]
    · next none => simp [none, ih]

/-- Exactly the lists of regions in order are accepted. -/
theorem validateRegions_eq_ok_iff {regions : List Region} {batchSize : Nat} {operation : String} :
    validateRegions regions batchSize operation = .ok () ↔
      ∀ r ∈ regions, r.batch < batchSize ∧ r.isFinite = true := by
  simp only [← Region.defect?_eq_none_iff, ← firstDefect?_eq_none_iff, validateRegions]
  split <;> simp_all

end RegionPooling
