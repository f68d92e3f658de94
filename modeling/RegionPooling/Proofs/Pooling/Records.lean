import RegionPooling.Proofs.Pooling.Cells

/-!
# What a table records

A table that a pass has filled belongs to the regions, the map and the configuration of the pass,
and each of its winners lies inside the bin that it won. Main statements: this holds of the winners
that buffers hold after they were filled, and of those that pooling a map returns; neither can leave
the storage of the map, and both answer if the result can be counted. Specification §3, invariants.
-/

namespace RegionPooling

/-- A table records a pass with elements of a given type over regions of a map. -/
structure Winners.Records (α : Type) [Scalar α] (w : Winners) (regions : List Region)
    (map : MapDims) (config : PoolConfig) : Prop where
  dims : w.dims = map.pooled config regions.length
  countable : w.dims.Countable
  size_cells : w.cells.size = w.dims.shape.count
  provenance : w.provenance = some ⟨regions, map, config⟩
  regions_ok : ∀ r ∈ regions, r.batch < map.batch ∧ r.isFinite = true
  covered : ∀ q, w.dims.Contains q → ∀ offset, w.cells[w.dims.cell q]? = some (some offset) →
    ∃ region, regions[q.region]? = some region ∧ offset < map.plane ∧
      offset / map.width ∈ (region.binExtent α config map q).rows.toList ∧
      offset % map.width ∈ (region.binExtent α config map q).columns.toList

variable {α : Type} [Scalar α]

namespace Winners.Records

variable {w : Winners} {regions : List Region} {map : MapDims} {config : PoolConfig}
  {q : PooledPosition}

/-- The table has the channels of the map. -/
theorem channels_eq (hr : w.Records α regions map config) : w.dims.channels = map.channels := by
  rw [hr.dims]
  rfl

/-- The table has one entry for every region. -/
theorem regions_eq (hr : w.Records α regions map config) : w.dims.regions = regions.length := by
  rw [hr.dims]
  rfl

/-- A region of the list has bins. -/
theorem lt_regions (hr : w.Records α regions map config) {index : ℕ} {region : Region}
    (hregion : regions[index]? = some region) : index < w.dims.regions := by
  rw [hr.regions_eq]
  exact (List.getElem?_eq_some_iff.1 hregion).1

/-- The table remembers the configuration of the pass. -/
theorem config_eq (hr : w.Records α regions map config) : w.config = some config := by
  rw [Winners.config, hr.provenance]
  rfl

/-- The rows and columns of the table are those of the configuration. -/
theorem config_dims (hr : w.Records α regions map config) :
    (⟨w.dims.height, w.dims.width, config.scale⟩ : PoolConfig) = config := by
  rw [hr.dims]
  rfl

/-- The bins of a channel are counted. -/
theorem bins_eq_ok (hr : w.Records α regions map config) :
    w.bins = .ok (w.dims.height * w.dims.width) := times_eq_ok_iff.2 ⟨hr.countable.plane, rfl⟩

/-- The channel of a bin is one of the map. -/
theorem channel_lt (hr : w.Records α regions map config) (hq : w.dims.Contains q) :
    q.channel < map.channels := by
  rw [← hr.channels_eq]
  exact hq.2.1

/-- The region of a bin is in the list. -/
theorem region_lt (hr : w.Records α regions map config) (hq : w.dims.Contains q) :
    q.region < regions.length := by
  rw [← hr.regions_eq]
  exact hq.1

end Winners.Records

/-- The winners of a map record the pass over it, if they can be counted. -/
theorem MapDims.records_winners {map : MapDims} {regions : List Region} (data : Array α)
    {config : PoolConfig} (hcount : (map.pooled config regions.length).Countable)
    (h : ∀ r ∈ regions, r.batch < map.batch ∧ r.isFinite = true) :
    (map.winners data config regions).Records α regions map config := by
  refine ⟨rfl, hcount, map.size_cells_winners data config regions, rfl, h, ?_⟩
  intro q hq offset hoffset
  have hregion : q.region < regions.length := hq.1
  have hget := List.getElem?_eq_getElem hregion
  change (map.winners data config regions).cells[(map.pooled config regions.length).cell q]? = _
    at hoffset
  rw [MapDims.winners_getElem? hq hget] at hoffset
  have hmem : offset ∈ (regions[q.region]).binCells α config map q :=
    mem_offsets_of_winner_pooledBin (Option.some.inj hoffset)
  exact ⟨_, hget, lt_plane_of_mem_binCells hmem, mem_binExtent_of_mem_binCells hmem⟩

/-- An operation answers if it ends in a result or a refusal. -/
def Answers {β : Type} (outcome : Except Fault β) : Prop :=
  ∃ result : Except PoolError β, outcome = Fault.ofRefusal result

/-- An operation that may refuse answers. -/
theorem answers_ofRefusal {β : Type} (result : Except PoolError β) :
    Answers (Fault.ofRefusal result) := ⟨result, rfl⟩

/-- An operation that may refuse answers when it is run. -/
theorem Run.answers_ofResult {β : Type} (result : Except PoolError β) :
    Answers (Run.ofResult result).outcome := answers_ofRefusal result

private theorem answers_ok {β : Type} (b : β) : Answers (.ok b) := ⟨.ok b, rfl⟩

/-- A sequence answers if both parts do. -/
theorem Run.answers_bind {β γ : Type} {first : Run β} {next : β → Run γ}
    (hfirst : Answers first.outcome)
    (hnext : ∀ b, first.outcome = .ok b → Answers (next b).outcome) :
    Answers (first >>= next).outcome := by
  rw [outcome_bind]
  obtain ⟨result, hresult⟩ := hfirst
  cases result with
  | error e =>
    rw [hresult]
    exact answers_ofRefusal (.error e)
  | ok b =>
    rw [hresult]
    exact hnext b hresult

namespace Buffers

/-- Filling leaves the shape and the number of regions agreed with the winners. -/
theorem shape_of_outcome_fill {b filled : Buffers α} {map : Tensor α} {regions : List Region}
    (h : (b.fill map regions).outcome = .ok filled) :
    filled.shape = b.shape ∧ filled.winners.dims = b.shape.dims regions.length ∧
      filled.winners.dims = filled.dims ∧ filled.output.size = filled.winners.cells.size := by
  obtain ⟨-, d, -, rfl⟩ := outcome_fill_eq_ok_iff_filled.1 h
  refine ⟨rfl, rfl, rfl, ?_⟩
  simp [Buffers.filled]

/-- Buffers that were filled record the pass. -/
theorem records_of_outcome_fill {b filled : Buffers α} {map : Tensor α} {regions : List Region}
    (h : (b.fill map regions).outcome = .ok filled) :
    ∃ d : MapDims, map.shape = d.shape ∧
      filled.winners.Records α regions d b.shape.config := by
  obtain ⟨hcount, d, haccept, rfl⟩ := outcome_fill_eq_ok_iff_filled.1 h
  obtain ⟨hshape, hchannels, hregions⟩ := accept_eq_ok_iff.1 haccept
  have hpooled : b.shape.dims regions.length = d.pooled b.shape.config regions.length := by
    rw [PooledShape.dims, MapDims.pooled, hchannels]
  rw [winners_filled regions hchannels]
  exact ⟨d, hshape, d.records_winners map.data (hpooled ▸ hcount) hregions⟩

/-- Filling answers if the result can be counted. In particular it never leaves the storage of the
map. -/
theorem answers_fill {b : Buffers α} {map : Tensor α} {regions : List Region}
    (hcount : (b.shape.dims regions.length).Countable) : Answers (b.fill map regions).outcome :=
  ⟨_, outcome_fill hcount⟩

end Buffers

/-- Pooling a map fills fresh buffers of its channels and takes them apart. -/
theorem exists_fill_of_outcome_pool {map output : Tensor α} {regions : List Region}
    {config : PoolConfig} {w : Winners} (h : (pool map regions config).outcome = .ok (output, w)) :
    ∃ (d : MapDims) (filled : Buffers α), map.shape = d.shape ∧ config.validate = .ok () ∧
      (((PooledShape.mk d.channels config).fresh α regions.length).fill map regions).outcome =
        .ok filled ∧ filled.outputTensor = .ok output ∧ filled.winners = w := by
  obtain ⟨s, hresolve, fresh, hfresh, filled, hfill, hparts⟩ := outcome_pool_eq_ok_iff.1 h
  obtain ⟨d, hshape, hvalid, rfl⟩ := PooledShape.outcome_resolveFor_eq_ok_iff.1 hresolve
  obtain ⟨-, rfl⟩ := PooledShape.allocate_eq_ok_iff.1 hfresh
  exact ⟨d, filled, hshape, hvalid, hfill, Buffers.parts_eq_ok_iff.1 hparts⟩

/-- Resolving a shape answers. -/
theorem PooledShape.answers_resolve (config : PoolConfig) (channels : ℕ) :
    Answers (resolve config channels).outcome :=
  Run.answers_bind (Run.answers_ofResult _) fun _ _ ↦ answers_ok _

/-- Resolving a shape for a map answers. -/
theorem PooledShape.answers_resolveFor (config : PoolConfig) (map : Shape) :
    Answers (resolveFor config map).outcome := by
  unfold resolveFor
  split
  · exact answers_resolve _ _
  · exact Run.answers_ofResult _

/-- Pooling answers if the result can be counted. -/
theorem answers_pool {map : Tensor α} {regions : List Region} {config : PoolConfig}
    (hcount : ∀ d : MapDims, map.shape = d.shape → (d.pooled config regions.length).Countable) :
    Answers (pool map regions config).outcome := by
  apply Run.answers_bind (PooledShape.answers_resolveFor config map.shape)
  intro s hresolve
  obtain ⟨d, hshape, -, rfl⟩ := PooledShape.outcome_resolveFor_eq_ok_iff.1 hresolve
  have hbins : ((PooledShape.mk d.channels config).dims regions.length).Countable :=
    hcount d hshape
  have hallocate := PooledShape.allocate_eq_ok (α := α) hbins
  apply Run.answers_bind ⟨.ok _, hallocate⟩
  rintro fresh hfresh
  obtain ⟨-, rfl⟩ := PooledShape.allocate_eq_ok_iff.1 hfresh
  exact Run.answers_bind (Buffers.answers_fill hbins) fun _ _ ↦ Run.answers_ofResult _

end RegionPooling
