import RegionPooling.Layer
import RegionPooling.Proofs.Pooling.Reference

/-!
# Accepted and refused inputs

Pooling checks its inputs in several places: the rank of the map and the configuration when the
shape of the result is resolved, the regions when the buffers are filled, and the shape of the
result again when it becomes a tensor. `Refused` says at once which inputs are to be refused and
with which error. Main statement: if the result fits into storage, pooling refuses exactly those
inputs, with exactly that error, and pools all others; the check of the result refuses nothing. A
layer never blames its own configuration, whatever the size of the result. Specification §4.1, §4.2,
§10.3 and §10.4.
-/

namespace RegionPooling

/-- A scale that is not a number, infinite, negative or zero. -/
def Binary.IsBadScale {f : Format} (x : Binary f) : Prop :=
  x.isNaN = true ∨ (∃ negative, x = .infinity negative) ∨ x.lt .zero = true ∨ x.numEq .zero = true

/-- Defect that a configuration is refused for: the number of rows is looked at first, then the
number of columns, then the scale. -/
inductive PoolConfig.Faulty (c : PoolConfig) : ConfigDefect → Prop where
  | noRows (rows : c.height = 0) : Faulty c .noRows
  | noColumns (rows : 0 < c.height) (columns : c.width = 0) : Faulty c .noColumns
  | scale (rows : 0 < c.height) (columns : 0 < c.width) (bad : c.scale.IsBadScale) :
    Faulty c (.scale c.scale)

/-- Defect that a region is refused for in a batch: its batch entry is looked at first. -/
inductive Region.Faulty (r : Region) (batchSize : ℕ) : RegionDefect → Prop where
  | batchOutOfRange (batch : batchSize ≤ r.batch) :
    Faulty r batchSize (.batchOutOfRange r.batch batchSize)
  | notFinite (batch : r.batch < batchSize) (coordinate : ∃ x ∈ r.coordinates, x.isFinite = false) :
    Faulty r batchSize (.notFinite r)

/-- Inputs that pooling must refuse, with the error: a map that has not four dimensions, otherwise a
faulty configuration, otherwise the first faulty region. -/
inductive Refused (map : Shape) (regions : List Region) (config : PoolConfig) :
    PoolError → Prop where
  | rank (rank : map.rank ≠ 4) :
    Refused map regions config ⟨"resolve_pooled_shape", .shape (.mapRank map.rank) (some map)⟩
  | config (d : MapDims) (shape : map = d.shape) (defect : ConfigDefect)
    (faulty : config.Faulty defect) :
    Refused map regions config ⟨"roi_pool_config", .config defect⟩
  | region (d : MapDims) (shape : map = d.shape) (accepted : ∀ defect, ¬ config.Faulty defect)
    (index : ℕ) (region : Region) (here : regions[index]? = some region)
    (before : ∀ r ∈ regions.take index, ∀ defect, ¬ r.Faulty d.batch defect)
    (defect : RegionDefect) (faulty : region.Faulty d.batch defect) :
    Refused map regions config ⟨"roi_pool2d_forward", .region index defect⟩

/-- Four dimensions are read from every shape of rank four and from no other. -/
theorem Shape.mapDims?_eq_none_iff {s : Shape} : s.mapDims? = none ↔ s.rank ≠ 4 := by
  constructor
  · rintro hnone hrank
    obtain ⟨a, b, c, d, hdims⟩ := List.length_eq_four.1 hrank
    rw [mapDims?, hdims] at hnone
    cases hnone
  · intro hrank
    cases hdims : s.mapDims? with
    | none => rfl
    | some d =>
      rw [mapDims?_eq_some_iff] at hdims
      subst hdims
      exact absurd rfl hrank

section

variable {config : PoolConfig}

/-- The usable scales are those that are not bad. -/
theorem PoolConfig.scaleUsable_eq_false_iff {scale : Binary .single} :
    scaleUsable scale = false ↔ scale.IsBadScale := by
  unfold scaleUsable Binary.IsBadScale
  cases scale with
  | nan => simp [Binary.isFinite, Binary.isNaN]
  | infinity negative => simp [Binary.isFinite, Binary.isNaN]
  | finite negative units h =>
    simp only [Binary.isFinite, Binary.isNaN, Binary.zero, Binary.signedZero, Binary.lt,
      Binary.numEq, Bool.true_and, decide_eq_false_iff_not, decide_eq_true_eq, reduceCtorEq,
      exists_false, false_or]
    exact not_lt.trans le_iff_lt_or_eq

/-- The defect that is found in a configuration is the one to be refused for. -/
theorem PoolConfig.defect?_eq_some_iff {defect : ConfigDefect} :
    config.defect? = some defect ↔ config.Faulty defect := by
  unfold defect?
  constructor
  · intro h
    split at h
    · next rows => cases h; exact .noRows rows
    · next rows =>
      split at h
      · next columns => cases h; exact .noColumns (Nat.pos_of_ne_zero rows) columns
      · next columns =>
        split at h
        · cases h
        · next scale =>
          cases h
          exact .scale (Nat.pos_of_ne_zero rows) (Nat.pos_of_ne_zero columns)
            (scaleUsable_eq_false_iff.1 (Bool.eq_false_iff.2 scale))
  · rintro (rows | ⟨rows, columns⟩ | ⟨rows, columns, bad⟩)
    · rw [if_pos rows]
    · rw [if_neg rows.ne', if_pos columns]
    · rw [if_neg rows.ne', if_neg columns.ne',
        if_neg (Bool.eq_false_iff.1 (scaleUsable_eq_false_iff.2 bad))]

/-- A faulty configuration is refused for its defect. -/
theorem PoolConfig.Faulty.validate_eq {defect : ConfigDefect} (h : config.Faulty defect) :
    config.validate = .error ⟨"roi_pool_config", .config defect⟩ := by
  rw [validate, defect?_eq_some_iff.2 h]

private theorem PoolConfig.validate_eq_ok_of_not_faulty (h : ∀ defect, ¬ config.Faulty defect) :
    config.validate = .ok () := by
  cases hdefect : config.defect? with
  | none => rw [validate, hdefect]
  | some defect => exact absurd (defect?_eq_some_iff.1 hdefect) (h defect)

private theorem PoolConfig.not_faulty_of_validate (h : config.validate = .ok ())
    (defect : ConfigDefect) : ¬ config.Faulty defect := by
  intro hfaulty
  rw [hfaulty.validate_eq] at h
  cases h

end

section

variable {regions : List Region} {batchSize : ℕ}

/-- The defect that is found in a region is the one to be refused for. -/
theorem Region.defect?_eq_some_iff {r : Region} {defect : RegionDefect} :
    r.defect? batchSize = some defect ↔ r.Faulty batchSize defect := by
  have hfinite : r.isFinite = false ↔ ∃ x ∈ r.coordinates, x.isFinite = false := by
    simp only [isFinite, List.all_eq_false, Bool.not_eq_true]
  unfold defect?
  constructor
  · intro h
    split at h
    · next batch => cases h; exact .batchOutOfRange batch
    · next batch =>
      split at h
      · cases h
      · next finite =>
        cases h
        exact .notFinite (Nat.lt_of_not_le batch) (hfinite.1 (Bool.eq_false_iff.2 finite))
  · rintro (batch | ⟨batch, coordinate⟩)
    · rw [if_pos batch]
    · rw [if_neg (Nat.not_le.2 batch), if_neg (Bool.eq_false_iff.1 (hfinite.2 coordinate))]

/-- A region is in order if it is not faulty. -/
theorem Region.not_faulty_iff {r : Region} :
    (∀ defect, ¬ r.Faulty batchSize defect) ↔ r.batch < batchSize ∧ r.isFinite = true := by
  rw [← defect?_eq_none_iff, Option.eq_none_iff_forall_ne_some]
  exact forall_congr' fun defect ↦ not_congr defect?_eq_some_iff.symm

/-- The first defect found among regions is that of a faulty region with none before it. -/
theorem firstDefect?_eq_some_iff {index : ℕ} {defect : RegionDefect} :
    firstDefect? regions batchSize = some (index, defect) ↔
      ∃ region, regions[index]? = some region ∧ region.Faulty batchSize defect ∧
        ∀ r ∈ regions.take index, ∀ defect, ¬ r.Faulty batchSize defect := by
  suffices hgo : ∀ base n, firstDefect?.go batchSize base regions = some (n, defect) ↔
      ∃ k region, n = base + k ∧ regions[k]? = some region ∧ region.Faulty batchSize defect ∧
        ∀ r ∈ regions.take k, ∀ defect, ¬ r.Faulty batchSize defect by
    rw [firstDefect?, hgo]
    constructor
    · rintro ⟨k, region, hk, hfirst⟩
      obtain rfl : index = k := by omega
      exact ⟨region, hfirst⟩
    · rintro ⟨region, hfirst⟩
      exact ⟨index, region, (Nat.zero_add index).symm, hfirst⟩
  induction regions with
  | nil =>
    intro base n
    simp [firstDefect?.go]
  | cons r regions ih =>
    intro base n
    rw [firstDefect?.go]
    cases hr : r.defect? batchSize with
    | some found =>
      -- the search ends at a faulty region, and no later one is the first
      have hfaulty := Region.defect?_eq_some_iff.1 hr
      constructor
      · intro h
        obtain ⟨rfl, rfl⟩ := Prod.mk.inj (Option.some.inj h)
        exact ⟨0, r, rfl, rfl, hfaulty, by simp⟩
      · rintro ⟨k, region, rfl, hk, hregion, hbefore⟩
        cases k with
        | zero =>
          obtain rfl := Option.some.inj hk
          rw [Region.defect?_eq_some_iff.2 hregion] at hr
          obtain rfl := Option.some.inj hr
          rfl
        | succ k => exact absurd hfaulty (hbefore r (by simp) found)
    | none =>
      have hr' : ∀ defect, ¬ r.Faulty batchSize defect :=
        Region.not_faulty_iff.2 (Region.defect?_eq_none_iff.1 hr)
      refine (ih (base + 1) n).trans ?_
      constructor
      · rintro ⟨k, region, rfl, hk, hregion, hbefore⟩
        refine ⟨k + 1, region, by omega, hk, hregion, ?_⟩
        rw [List.take_succ_cons]
        exact List.forall_mem_cons.2 ⟨hr', hbefore⟩
      · rintro ⟨k, region, rfl, hk, hregion, hbefore⟩
        cases k with
        | zero =>
          obtain rfl := Option.some.inj hk
          exact absurd hregion (hr' defect)
        | succ k =>
          rw [List.take_succ_cons] at hbefore
          exact ⟨k, region, by omega, hk, hregion, (List.forall_mem_cons.1 hbefore).2⟩

/-- The first faulty region of a list is refused for its defect. -/
theorem validateRegions_of_faulty {index : ℕ} {region : Region} {defect : RegionDefect}
    (hregion : regions[index]? = some region)
    (hbefore : ∀ r ∈ regions.take index, ∀ defect, ¬ r.Faulty batchSize defect)
    (h : region.Faulty batchSize defect) (operation : String) :
    validateRegions regions batchSize operation = .error ⟨operation, .region index defect⟩ := by
  rw [validateRegions, firstDefect?_eq_some_iff.2 ⟨region, hregion, h, hbefore⟩]

private theorem exists_first_faulty (h : ¬ ∀ r ∈ regions, r.batch < batchSize ∧ r.isFinite = true) :
    ∃ index region defect, regions[index]? = some region ∧ region.Faulty batchSize defect ∧
      ∀ r ∈ regions.take index, ∀ defect, ¬ r.Faulty batchSize defect := by
  simp only [← Region.defect?_eq_none_iff] at h
  rw [← firstDefect?_eq_none_iff] at h
  obtain ⟨⟨index, defect⟩, hfound⟩ := Option.ne_none_iff_exists'.1 h
  obtain ⟨region, hfirst⟩ := firstDefect?_eq_some_iff.1 hfound
  exact ⟨index, region, defect, hfirst⟩

end

private theorem inOrder_of_not_refused {map : Shape} {regions : List Region} {config : PoolConfig}
    (h : ∀ e, ¬ Refused map regions config e) :
    ∃ d : MapDims, map = d.shape ∧ config.validate = .ok () ∧
      ∀ r ∈ regions, r.batch < d.batch ∧ r.isFinite = true := by
  cases hmap : map.mapDims? with
  | none => exact absurd (.rank (Shape.mapDims?_eq_none_iff.1 hmap)) (h _)
  | some d =>
    have hshape := Shape.mapDims?_eq_some_iff.1 hmap
    have hconfig : ∀ defect, ¬ config.Faulty defect :=
      fun defect hfaulty ↦ h _ (.config d hshape defect hfaulty)
    refine ⟨d, hshape, PoolConfig.validate_eq_ok_of_not_faulty hconfig, ?_⟩
    by_contra hregions
    obtain ⟨index, region, defect, hregion, hfaulty, hbefore⟩ := exists_first_faulty hregions
    exact h _ (.region d hshape hconfig index region hregion hbefore defect hfaulty)

section

variable {α : Type} [Scalar α] {map : Tensor α} {regions : List Region} {config : PoolConfig}

/-- Pooling refuses what is to be refused, whatever the size of the result. -/
theorem Refused.outcome_pool {e : PoolError} (h : Refused map.shape regions config e)
    (hcount : ∀ d : MapDims, map.shape = d.shape →
      (d.pooled config regions.length).Countable) :
    (pool map regions config).outcome = .error (.rejected e) := by
  unfold pool
  rw [Run.outcome_bind]
  cases h with
  | rank hrank =>
    rw [PooledShape.resolveFor, Shape.mapDims?_eq_none_iff.2 hrank]
    rfl
  | config d hshape defect hfaulty =>
    rw [PooledShape.resolveFor, Shape.mapDims?_eq_some_iff.2 hshape]
    dsimp only
    rw [PooledShape.resolve, Run.outcome_bind, hfaulty.validate_eq]
    rfl
  | region d hshape hconfig index region hregion hbefore defect hfaulty =>
    have hresolve : (PooledShape.resolveFor config map.shape).outcome =
        .ok ⟨d.channels, config⟩ :=
      PooledShape.outcome_resolveFor_eq_ok_iff.2
        ⟨d, hshape, PoolConfig.validate_eq_ok_of_not_faulty hconfig, rfl⟩
    let fresh := (PooledShape.mk d.channels config).fresh α regions.length
    have hallocate : (PooledShape.mk d.channels config).allocate regions.length = .ok fresh :=
      PooledShape.allocate_eq_ok (hcount d hshape)
    have hchannels : ¬ fresh.shape.channels ≠ d.channels := not_not.2 rfl
    have haccept : fresh.accept map regions =
        .error ⟨"roi_pool2d_forward", .region index defect⟩ := by
      rw [Buffers.accept, Shape.mapDims?_eq_some_iff.2 hshape]
      dsimp only
      rw [if_neg hchannels, validateRegions_of_faulty hregion hbefore hfaulty]
      rfl
    rw [hresolve]
    show (Run.ofExcept ((PooledShape.mk d.channels config).allocate regions.length) >>=
      fun fresh ↦ fresh.fill map regions >>= _).outcome = _
    rw [hallocate]
    show (fresh.fill map regions >>= _).outcome = _
    rw [Run.outcome_bind, Buffers.fill, Run.outcome_bind, haccept]
    rfl

end

/-- An outcome that is a result or a fault that says nothing to the caller. -/
def NeverRefuses {β : Type} (outcome : Except Fault β) : Prop :=
  ∀ e, outcome ≠ .error (.rejected e)

namespace NeverRefuses

variable {β γ : Type}

/-- A result is no refusal. -/
theorem ok (b : β) : NeverRefuses (.ok b : Except Fault β) := fun _ ↦ nofun

/-- An access outside storage is no refusal. -/
theorem outOfBounds : NeverRefuses (.error .outOfBounds : Except Fault β) := fun _ ↦ nofun

/-- An overflow is no refusal. -/
theorem overflow : NeverRefuses (.error .overflow : Except Fault β) := fun _ ↦ nofun

/-- A sequence refuses nothing if neither part does. -/
theorem bind {first : Except Fault β} {next : β → Except Fault γ} (hfirst : NeverRefuses first)
    (hnext : ∀ b, NeverRefuses (next b)) : NeverRefuses (first >>= next) := by
  cases first with
  | error fault =>
    intro e h
    exact hfirst e (congrArg Except.error (Except.error.inj h))
  | ok b => exact hnext b

/-- A list of steps refuses nothing if no step does. -/
theorem mapM {l : List β} {step : β → Except Fault γ} (h : ∀ b, NeverRefuses (step b)) :
    NeverRefuses (l.mapM step) := by
  induction l with
  | nil => exact ok []
  | cons b l ih =>
    rw [List.mapM_cons]
    exact (h b).bind fun _ ↦ ih.bind fun _ ↦ ok _

/-- A loop refuses nothing if no step does. -/
theorem foldlM {l : List β} {step : γ → β → Except Fault γ} (h : ∀ c b, NeverRefuses (step c b))
    (c : γ) : NeverRefuses (l.foldlM step c) := by
  induction l generalizing c with
  | nil => exact ok c
  | cons b l ih =>
    rw [List.foldlM_cons]
    exact (h c b).bind fun c ↦ ih c

end NeverRefuses

section

variable {α : Type}

private theorem neverRefuses_times (m n : ℕ) : NeverRefuses (times m n) := by
  unfold times
  split
  · exact .ok _
  · exact .overflow

private theorem neverRefuses_cellsPerRegion (s : PooledShape) : NeverRefuses s.cellsPerRegion :=
  (neverRefuses_times _ _).bind fun _ ↦ neverRefuses_times _ _

private theorem neverRefuses_fetch (xs : Array α) (i : ℕ) : NeverRefuses (fetch xs i) := by
  unfold fetch
  split
  · exact .ok _
  · exact .outOfBounds

private theorem neverRefuses_slice (xs : Array α) (start length : ℕ) :
    NeverRefuses (slice xs start length) := by
  unfold slice
  split
  · exact .ok _
  · exact .outOfBounds

variable [Scalar α]

/-- Pooling a bin refuses nothing. -/
theorem neverRefuses_poolBin (plane : Array α) (width : ℕ) (extent : BinExtent) :
    NeverRefuses (poolBin plane width extent) := by
  unfold poolBin firstMax
  split
  · exact .ok _
  · refine .bind (.foldlM (fun _ _ ↦ (neverRefuses_fetch _ _).bind fun _ ↦ .ok _) _) fun best ↦ ?_
    cases best <;> exact .ok _

/-- Allocating buffers refuses nothing. -/
theorem neverRefuses_allocate (s : PooledShape) (regions : ℕ) :
    NeverRefuses (s.allocate regions : Except Fault (Buffers α)) := by
  by_cases hcount : (s.dims regions).Countable
  · rw [PooledShape.allocate_eq_ok hcount]
    exact .ok _
  · rw [PooledShape.allocate_of_not_countable hcount]
    exact .overflow

/-- Pooling regions refuses nothing. -/
theorem neverRefuses_poolRegions (data : Array α) (map : MapDims) (shape : PooledShape)
    (regions : List Region) : NeverRefuses (poolRegions data map shape regions) := by
  have hplane (plane : Array α) (extents : List BinExtent) :
      NeverRefuses (poolPlane plane map.width extents) :=
    .mapM (neverRefuses_poolBin plane map.width)
  have hregion (region : Region) :
      NeverRefuses (poolRegion data map shape.config region) :=
    .bind (.mapM fun _ ↦ (neverRefuses_slice _ _ _).bind fun plane ↦ hplane plane _) fun _ ↦ .ok _
  refine .bind (neverRefuses_cellsPerRegion shape) fun each ↦ ?_
  split
  · exact .ok _
  · exact .mapM hregion

end

/-- A refusal that is due to a configuration. -/
def PoolError.BlamesConfig (e : PoolError) : Prop := ∃ defect, e.cause = .config defect

section

variable {α : Type} {e : PoolError}

/-- An accepted configuration is not blamed when a shape is resolved. -/
theorem PooledShape.not_blamesConfig_of_resolveFor {config : PoolConfig} {map : Shape}
    (hvalid : config.validate = .ok ())
    (h : (resolveFor config map).outcome = .error (.rejected e)) : ¬ e.BlamesConfig := by
  rw [resolveFor] at h
  cases hmap : map.mapDims? with
  | none =>
    rw [hmap] at h
    obtain rfl := Except.error.inj (Run.outcome_ofResult_eq_rejected_iff.1 h)
    rintro ⟨defect, hcause⟩
    cases hcause
  | some d =>
    have hresolve : (resolve config d.channels).outcome = .ok ⟨d.channels, config⟩ :=
      outcome_resolve_eq_ok_iff.2 ⟨hvalid, rfl⟩
    rw [hmap] at h
    cases hresolve.symm.trans h

/-- Buffers blame no configuration for a map and regions that they do not take. -/
theorem Buffers.not_blamesConfig_of_accept {b : Buffers α} {map : Tensor α} {regions : List Region}
    (h : b.accept map regions = .error e) : ¬ e.BlamesConfig := by
  rintro ⟨defect, hcause⟩
  unfold accept at h
  split at h
  · cases h
    cases hcause
  · split at h
    · cases h
      cases hcause
    · unfold validateRegions at h
      split at h
      · cases h
      · cases h
        cases hcause

private theorem Tensor.not_blamesConfig_of_ofArray {data : Array α} {shape : Shape}
    (h : Tensor.ofArray data shape = .error e) : ¬ e.BlamesConfig := by
  rintro ⟨defect, hcause⟩
  unfold Tensor.ofArray at h
  split at h
  · split at h
    · cases h
    · cases h
      cases hcause
  · cases h
    cases hcause

/-- Buffers blame no configuration for parts that do not form a tensor. -/
theorem Buffers.not_blamesConfig_of_parts {b : Buffers α} (h : b.parts = .error e) :
    ¬ e.BlamesConfig := by
  unfold parts at h
  cases houtput : b.outputTensor with
  | ok output =>
    rw [houtput] at h
    cases h
  | error e' =>
    rw [houtput] at h
    obtain rfl : e' = e := Except.error.inj h
    exact Tensor.not_blamesConfig_of_ofArray houtput

variable [Scalar α]

/-- Filling buffers blames no configuration. -/
theorem Buffers.not_blamesConfig_of_fill {b : Buffers α} {map : Tensor α} {regions : List Region}
    (h : (b.fill map regions).outcome = .error (.rejected e)) : ¬ e.BlamesConfig := by
  unfold fill at h
  rcases Run.outcome_bind_eq_error_iff.1 h with haccept | ⟨d, -, h⟩
  · exact not_blamesConfig_of_accept (Run.outcome_ofResult_eq_rejected_iff.1 haccept)
  rcases Run.outcome_bind_eq_error_iff.1 h with hresize | ⟨cleared, -, h⟩
  · exact absurd hresize (neverRefuses_allocate (α := α) b.shape regions.length e)
  rcases Run.outcome_bind_eq_error_iff.1 h with hpool | ⟨results, -, hrest⟩
  · exact absurd hpool (neverRefuses_poolRegions map.data d b.shape regions e)
  · exact absurd hrest nofun

/-- An accepted configuration is not blamed for anything, whatever the size of the result. -/
theorem not_blamesConfig_of_outcome_pool {map : Tensor α} {regions : List Region}
    {config : PoolConfig} (hvalid : config.validate = .ok ())
    (h : (pool map regions config).outcome = .error (.rejected e)) : ¬ e.BlamesConfig := by
  unfold pool at h
  rcases Run.outcome_bind_eq_error_iff.1 h with hresolve | ⟨shape, -, h⟩
  · exact PooledShape.not_blamesConfig_of_resolveFor hvalid hresolve
  rcases Run.outcome_bind_eq_error_iff.1 h with hallocate | ⟨fresh, -, h⟩
  · exact absurd hallocate (neverRefuses_allocate (α := α) shape regions.length e)
  rcases Run.outcome_bind_eq_error_iff.1 h with hfill | ⟨filled, -, hparts⟩
  · exact Buffers.not_blamesConfig_of_fill hfill
  · exact Buffers.not_blamesConfig_of_parts (Run.outcome_ofResult_eq_rejected_iff.1 hparts)

/-- If its result fits into storage, pooling ends in a fault exactly for inputs that are to be
refused, and the fault is the refusal. It pools exactly the maps of four dimensions under a
configuration that is not faulty with regions none of which is faulty, and the result has one entry
for every region, channel of the map, row and column of bins. A layer that was created never blames
its configuration. -/
theorem pool_accepts_iff {map : Tensor α} {regions : List Region} {config : PoolConfig}
    (hfits : ∀ d : MapDims, map.shape = d.shape →
      (d.pooled config regions.length).shape.occupied ≤ storageLimit) :
    (∀ fault, (pool map regions config).outcome = .error fault ↔
      ∃ e, fault = .rejected e ∧ Refused map.shape regions config e) ∧
    ((∃ result, (pool map regions config).outcome = .ok result) ↔
      ∃ d : MapDims, map.shape = d.shape ∧ (∀ defect, ¬ config.Faulty defect) ∧
        ∀ r ∈ regions, ∀ defect, ¬ r.Faulty d.batch defect) ∧
    (∀ output w, (pool map regions config).outcome = .ok (output, w) →
      ∃ d : MapDims, map.shape = d.shape ∧
        output.shape = ⟨[regions.length, d.channels, config.height, config.width]⟩) ∧
    ∀ (own : PoolConfig) (layer : Layer), (Layer.create own).outcome = .ok layer →
      ∀ (input : Tensor α) (others : List Region) (e : PoolError),
        (layer.forward input others).outcome = .error (.rejected e) → ¬ e.BlamesConfig := by
  have hcount : ∀ d : MapDims, map.shape = d.shape →
      (d.pooled config regions.length).Countable :=
    fun d hshape ↦ PooledDims.countable_of_fits (hfits d hshape)
  have hpooled (h : ∀ e, ¬ Refused map.shape regions config e) :
      ∃ result, (pool map regions config).outcome = .ok result := by
    obtain ⟨d, hshape, hvalid, hregions⟩ := inOrder_of_not_refused h
    exact (exists_outcome_pool_iff hshape hvalid hregions).2 (hfits d hshape)
  refine ⟨?_, ?_, ?_, ?_⟩
  · intro fault
    constructor
    · intro h
      by_cases hrefused : ∃ e, Refused map.shape regions config e
      · obtain ⟨e, he⟩ := hrefused
        exact ⟨e, Except.error.inj (h.symm.trans (he.outcome_pool hcount)), he⟩
      · obtain ⟨result, hresult⟩ := hpooled (not_exists.1 hrefused)
        exact absurd (h.symm.trans hresult) nofun
    · rintro ⟨e, rfl, he⟩
      exact he.outcome_pool hcount
  · constructor
    · rintro ⟨⟨output, w⟩, h⟩
      obtain ⟨d, hd⟩ := isPooledMap_of_outcome_pool h
      exact ⟨d, hd.map_shape, PoolConfig.not_faulty_of_validate hd.valid,
        fun r hr ↦ Region.not_faulty_iff.2 (hd.regions_ok r hr)⟩
    · rintro ⟨d, hshape, hconfig, hregions⟩
      exact (exists_outcome_pool_iff hshape (PoolConfig.validate_eq_ok_of_not_faulty hconfig)
        fun r hr ↦ Region.not_faulty_iff.1 (hregions r hr)).2 (hfits d hshape)
  · intro output w h
    obtain ⟨d, hd⟩ := isPooledMap_of_outcome_pool h
    exact ⟨d, hd.map_shape, hd.output_shape⟩
  · intro own layer hcreate input others e h
    obtain ⟨hvalid, rfl⟩ := Layer.outcome_create_eq_ok_iff.1 hcreate
    exact not_blamesConfig_of_outcome_pool hvalid h

end

/-- Of three regions the second names no entry of the batch and has no finite coordinates: it is
refused for its entry. The first one alone is pooled. -/
theorem pool_accepts_iff_second_region :
    let map : Tensor (Binary .single) :=
      ⟨⟨[2, 1, 1, 2]⟩, #[.ofInt 1, .ofInt 2, .ofInt 3, .ofInt 4], rfl, by decide⟩
    let first : Region := ⟨1, .zero, .zero, .ofInt 1, .zero⟩
    let second : Region := ⟨2, .nan, .zero, .infinity true, .zero⟩
    let third : Region := ⟨0, .nan, .zero, .zero, .zero⟩
    let config : PoolConfig := ⟨1, 1, .ofInt 1⟩
    let refusal : PoolError := ⟨"roi_pool2d_forward", .region 1 (.batchOutOfRange 2 2)⟩
    (pool map [first, second, third] config).outcome = .error (.rejected refusal) ∧
      ∃ output w, (pool map [first] config).outcome = .ok (output, w) ∧
        output.shape = ⟨[1, 1, 1, 1]⟩ := by
  intro map first second third config refusal
  have hd (d : MapDims) (h : map.shape = d.shape) : d = ⟨2, 1, 1, 2⟩ :=
    MapDims.shape_injective h.symm
  have hconfig : ∀ defect, ¬ config.Faulty defect :=
    PoolConfig.not_faulty_of_validate (by decide +kernel)
  have hfirst : ∀ defect, ¬ first.Faulty 2 defect :=
    Region.not_faulty_iff.2 (by decide +kernel)
  have hthree : ∀ d : MapDims, map.shape = d.shape →
      (d.pooled config [first, second, third].length).shape.occupied ≤ storageLimit := by
    intro d h
    rw [hd d h]
    decide
  have hone : ∀ d : MapDims, map.shape = d.shape →
      (d.pooled config [first].length).shape.occupied ≤ storageLimit := by
    intro d h
    rw [hd d h]
    decide
  obtain ⟨hrefuses, -⟩ := pool_accepts_iff hthree
  obtain ⟨-, haccepts, hshape, -⟩ := pool_accepts_iff hone
  have hrefused : Refused map.shape [first, second, third] config refusal :=
    .region ⟨2, 1, 1, 2⟩ rfl hconfig 1 second rfl (List.forall_mem_singleton.2 hfirst) _
      (.batchOutOfRange le_rfl)
  obtain ⟨⟨output, w⟩, hpool⟩ :=
    haccepts.2 ⟨⟨2, 1, 1, 2⟩, rfl, hconfig, List.forall_mem_singleton.2 hfirst⟩
  obtain ⟨d, hmap, houtput⟩ := hshape output w hpool
  rw [hd d hmap] at houtput
  exact ⟨(hrefuses _).2 ⟨refusal, rfl, hrefused⟩, output, w, hpool, houtput⟩

end RegionPooling
