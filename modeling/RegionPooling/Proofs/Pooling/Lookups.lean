import RegionPooling.Proofs.Pooling.Cells

/-!
# Lookups of pooled buffers

Storage is made for as many cells as are counted, while a lookup compares every index with its own
dimension. Both are followed here through every use of buffers, which are allocated for a pooled
shape and then filled any number of times. Main statement: buffers hold one value and one cell for
every bin, and every lookup inside the dimensions reads the cell of its own bin. Where the bins
cannot be counted there are no buffers: allocating and filling then end in an overflow, which is no
refusal. Storage is taken to be there for whatever is asked for. Specification §10.7 and §10.8.
-/

namespace RegionPooling

/-- Every lookup inside the dimensions reads the cell of its bin. -/
def Winners.ReadsInside (w : Winners) : Prop :=
  ∀ q, w.dims.Contains q → ∃ cell, w.cells[w.dims.cell q]? = some cell ∧
    w.get q.region q.channel q.row q.column = .ok cell

/-- Lookups stay inside if there is one cell for every bin. -/
theorem Winners.readsInside_of_size_cells {w : Winners} (h : w.cells.size = w.dims.shape.count) :
    w.ReadsInside := by
  intro q hq
  have hstored : w.dims.cell q < w.cells.size := h ▸ PooledDims.cell_lt_count hq
  rw [get_eq_fetch hq]
  exact ⟨_, Array.getElem?_eq_getElem hstored, fetch_of_lt hstored⟩

variable {α : Type} [Scalar α]

/-- Buffers of a pooled shape after an allocation and any number of passes, with the number of
regions they are left with. -/
inductive PooledShape.Serves (s : PooledShape) : ℕ → Buffers α → Prop
  | allocated {regions : ℕ} {b : Buffers α} : s.allocate regions = .ok b → s.Serves regions b
  | filled {before : ℕ} {b after : Buffers α} {map : Tensor α} {regions : List Region} :
      s.Serves before b → (b.fill map regions).outcome = .ok after → s.Serves regions.length after

/-- What is fixed about the sizes of buffers of a pooled shape. -/
structure Buffers.IsSizedFor (b : Buffers α) (s : PooledShape) (regions : ℕ) : Prop where
  shape : b.shape = s
  dims : b.winners.dims = s.dims regions
  output : b.output.size = (s.dims regions).shape.count
  cells : b.winners.cells.size = (s.dims regions).shape.count

/-- Buffers of a pooled shape are sized for the regions they are left with. -/
theorem PooledShape.Serves.isSizedFor {s : PooledShape} {regions : ℕ} {b : Buffers α}
    (h : s.Serves regions b) : b.IsSizedFor s regions := by
  induction h with
  | allocated hfresh =>
    obtain ⟨-, rfl⟩ := PooledShape.allocate_eq_ok_iff.1 hfresh
    exact ⟨rfl, rfl, Array.size_replicate, Array.size_replicate⟩
  | filled _ hfill ih =>
    obtain ⟨-, d, -, rfl⟩ := Buffers.outcome_fill_eq_ok_iff_filled.1 hfill
    obtain ⟨rfl, -⟩ := ih
    refine ⟨rfl, rfl, ?_, ?_⟩ <;> simp [Buffers.filled, PooledDims.length_positions]

/-- Suppose a configuration is accepted. Buffers that are allocated for it and filled any number of
times hold one value and one cell for each bin of their regions, their winners have the dimensions
asked for, and every lookup inside the dimensions reads the cell of its bin. Allocating them has a
result exactly if the number of regions, the bins of a channel, those of a region and those of all
regions are size words, and filling them with inputs that are accepted likewise; otherwise both end
in an overflow. -/
theorem lookups_of_serves {config : PoolConfig} {channels : ℕ} {s : PooledShape}
    (hresolve : (PooledShape.resolve config channels).outcome = .ok s) (regions : ℕ) :
    let each := channels * (config.height * config.width)
    let counted := regions < wordSize ∧ config.height * config.width < wordSize ∧
      each < wordSize ∧ regions * each < wordSize
    (∀ b : Buffers α, s.Serves regions b →
      b.winners.dims = ⟨regions, channels, config.height, config.width⟩ ∧
        b.output.size = regions * channels * config.height * config.width ∧
        b.winners.cells.size = regions * channels * config.height * config.width ∧
        b.winners.ReadsInside) ∧
      (counted → ∃ b : Buffers α, s.allocate regions = .ok b) ∧
      (¬ counted → (s.allocate regions : Except Fault (Buffers α)) = .error .overflow) ∧
      ∀ before (b : Buffers α) map list d, s.Serves before b → b.accept map list = .ok d →
        list.length = regions →
          (counted → ∃ after, (b.fill map list).outcome = .ok after) ∧
          (¬ counted → (b.fill map list).outcome = .error .overflow) := by
  intro each counted
  obtain ⟨hvalid, rfl⟩ := PooledShape.outcome_resolve_eq_ok_iff.1 hresolve
  obtain ⟨hheight, hwidth, -⟩ := PoolConfig.validate_eq_ok_iff.1 hvalid
  have hcounted : ((PooledShape.mk channels config).dims regions).Countable ↔ counted :=
    PooledDims.countable_iff_of_pos hheight hwidth
  rw [← hcounted]
  refine ⟨?_, fun hcount ↦ ⟨_, PooledShape.allocate_eq_ok hcount⟩,
    PooledShape.allocate_of_not_countable, ?_⟩
  · intro b hb
    obtain ⟨-, hdims, houtput, hcells⟩ := hb.isSizedFor
    have hbins : ((PooledShape.mk channels config).dims regions).shape.count =
        regions * channels * config.height * config.width := by
      simp only [PooledDims.count_shape, PooledShape.dims, Nat.mul_assoc]
    refine ⟨hdims, houtput.trans hbins, hcells.trans hbins, ?_⟩
    exact Winners.readsInside_of_size_cells (hdims ▸ hcells)
  · rintro before b map list d hb haccept rfl
    have hshape : b.shape = ⟨channels, config⟩ := hb.isSizedFor.shape
    rw [← hshape]
    exact ⟨fun hcount ↦ ⟨_, Buffers.outcome_fill_of_accept haccept hcount⟩,
      Buffers.outcome_fill_of_not_countable haccept⟩

/-- Buffers for one bin per region are left with the bins of two regions. -/
theorem lookups_of_serves_two_regions :
    let map : Tensor (Binary .single) := ⟨⟨[1, 1, 1, 1]⟩, #[.ofInt 5], rfl, by decide⟩
    let region : Region := ⟨0, .zero, .zero, .zero, .zero⟩
    ∃ (s : PooledShape) (fresh b : Buffers (Binary .single)),
      (PooledShape.resolve ⟨1, 1, .ofInt 1⟩ 1).outcome = .ok s ∧ s.allocate 0 = .ok fresh ∧
      (fresh.fill map [region, region]).outcome = .ok b ∧ s.Serves 2 b ∧
      b.winners.dims = ⟨2, 1, 1, 1⟩ ∧ b.output.size = 2 ∧ b.winners.cells.size = 2 ∧
      b.winners.ReadsInside := by
  intro map region
  let s : PooledShape := ⟨1, 1, 1, .ofInt 1⟩
  have hresolve : (PooledShape.resolve ⟨1, 1, .ofInt 1⟩ 1).outcome = .ok s := by decide +kernel
  obtain ⟨-, hallocate, -⟩ := lookups_of_serves (α := Binary .single) hresolve 0
  obtain ⟨hlookups, -, -, hfill⟩ := lookups_of_serves (α := Binary .single) hresolve 2
  obtain ⟨fresh, hfresh⟩ := hallocate (by decide)
  have haccept : fresh.accept map [region, region] = .ok ⟨1, 1, 1, 1⟩ := by
    obtain ⟨-, rfl⟩ := PooledShape.allocate_eq_ok_iff.1 hfresh
    decide +kernel
  obtain ⟨b, hb⟩ := (hfill 0 fresh map [region, region] _ (.allocated hfresh) haccept rfl).1
    (by decide)
  have hserves : s.Serves 2 b := .filled (.allocated hfresh) hb
  exact ⟨s, fresh, b, hresolve, hfresh, hb, hserves, hlookups b hserves⟩

/-- Four regions of two to the power 62 bins each: a configuration is accepted and so are the
inputs, and allocating for the regions or filling with them ends in an overflow that is no
refusal. -/
theorem overflow_of_accepted_config :
    let map : Tensor (Binary .single) := ⟨⟨[1, 1, 1, 1]⟩, #[.ofInt 5], rfl, by decide⟩
    let region : Region := ⟨0, .ofInt 9, .ofInt 9, .ofInt 9, .ofInt 9⟩
    let regions := [region, region, region, region]
    ∃ (s : PooledShape) (fresh : Buffers (Binary .single)) (d : MapDims),
      (PooledShape.resolve ⟨2147483648, 2147483648, .ofInt 1⟩ 1).outcome = .ok s ∧
      s.allocate 0 = .ok fresh ∧ fresh.accept map regions = .ok d ∧
      (s.allocate 4 : Except Fault (Buffers (Binary .single))) = .error .overflow ∧
      (fresh.fill map regions).outcome = .error .overflow ∧
      ∀ e : PoolError, (s.allocate 4 : Except Fault (Buffers (Binary .single))) ≠
          .error (.rejected e) ∧
        (fresh.fill map regions).outcome ≠ .error (.rejected e) := by
  intro map region regions
  let s : PooledShape := ⟨1, 2147483648, 2147483648, .ofInt 1⟩
  let fresh := s.fresh (Binary .single) 0
  have hresolve : (PooledShape.resolve ⟨2147483648, 2147483648, .ofInt 1⟩ 1).outcome = .ok s := by
    decide +kernel
  have hfresh : s.allocate 0 = .ok fresh := PooledShape.allocate_eq_ok (by decide)
  have haccept : fresh.accept map regions = .ok ⟨1, 1, 1, 1⟩ := by decide +kernel
  have hallocate : (s.allocate 4 : Except Fault (Buffers (Binary .single))) = .error .overflow := by
    decide +kernel
  have hfill : (fresh.fill map regions).outcome = .error .overflow := by decide +kernel
  refine ⟨s, fresh, _, hresolve, hfresh, haccept, hallocate, hfill, ?_⟩
  intro e
  rw [hallocate, hfill]
  exact ⟨nofun, nofun⟩

end RegionPooling
