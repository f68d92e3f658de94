import RegionPooling.Proofs.Session.Invariant

/-!
# Validity of sessions

Main statement: no run whose results fit into storage leaves storage or breaks off, and after it
every table that is held has one cell for each of its bins, and a table that was filled records the
pass that filled it last.
-/

namespace RegionPooling

variable {ι : Type} (E : ι → Type) [∀ i, Scalar (E i)]

/-- A table has one cell for each of its bins, and it records the pass noted with it. Without a pass
it is not populated. -/
def Winners.Valid (w : Winners) (pass : Option (Pass ι)) : Prop :=
  w.cells.size = w.dims.shape.count ∧
    match pass with
    | none => w.isPopulated = false
    | some p => w.isPopulated = true ∧
      ∃ d : MapDims, p.map = d.shape ∧ w.Records (E p.kind) p.regions d p.config

/-- Tables are formed valid. -/
theorem formed_valid : Session.Formed E (Winners.Valid E) where
  blank d := ⟨by simp [Winners.blank], rfl⟩
  filled i b filled map regions hfill := by
    obtain ⟨d, hshape, hrecords⟩ := Buffers.records_of_outcome_fill hfill
    refine ⟨hrecords.size_cells, ?_, d, hshape, hrecords⟩
    unfold Winners.isPopulated
    rw [hrecords.provenance]
    rfl

variable {E} [DecidableEq ι]

namespace Session

/-- In every session that can be reached, a table that is held is valid. -/
theorem Reachable.exists_valid {s : Session E} {w : Winners} (hs : s.Reachable) (hw : s.Holds w) :
    ∃ pass, w.Valid E pass := (hs.all (formed_valid E)).exists_of_holds hw

private theorem fits_cons_iff {s : Session E} {c : Command E} {commands : List (Command E)} :
    s.fits (c :: commands) = true ↔
      (∀ d ∈ s.demand c, d.shape.occupied ≤ storageLimit) ∧
        ∀ next, s.step c = some next → next.fits commands = true := by
  rw [fits, Bool.and_eq_true, Option.all_eq_true, Option.all_eq_true]
  simp only [decide_eq_true_eq, Option.mem_def]

/-- A run whose results fit into storage leads from a valid session to a valid session. -/
theorem All.run {s : Session E} {commands : List (Command E)} (hs : s.All (Winners.Valid E))
    (hfits : s.fits commands = true) :
    ∃ t, s.run commands = some t ∧ t.All (Winners.Valid E) := by
  induction commands generalizing s with
  | nil => exact ⟨s, rfl, hs⟩
  | cons c commands ih =>
    obtain ⟨hdemand, hrest⟩ := fits_cons_iff.1 hfits
    obtain ⟨next, hstep⟩ := exists_step fun d hd ↦ PooledDims.countable_of_fits (hdemand d hd)
    have hnext := hs.step (formed_valid E) hstep
    obtain ⟨t, hrun, ht⟩ := ih hnext (hrest next hstep)
    exact ⟨t, run_cons_eq_some_iff.2 ⟨next, hstep, hrun⟩, ht⟩

/-- Every run whose results fit into storage ends in a session where shapes and buffers have
accepted configurations, buffers agree with their tables, and every table is valid. -/
theorem run_valid {commands : List (Command E)} (hfits : (start : Session E).fits commands = true) :
    ∃ s : Session E, start.run commands = some s ∧ s.All (Winners.Valid E) :=
  all_start.run hfits

/-- Buffers filled twice, with a refusal after that, and taken apart. -/
theorem run_valid_refill :
    let map : Tensor (Binary .single) :=
      ⟨⟨[1, 1, 2, 2]⟩, #[.ofInt 1, .ofInt 4, .nan, .ofInt 4], rfl, by decide⟩
    let region : Region := ⟨0, .zero, .zero, .ofInt 1, .ofInt 1⟩
    let commands : List (Command Binary) :=
      [.resolve ⟨1, 2, .ofInt 1⟩ 1, .allocate .single 0 3, .fill .single 0 map [region],
        .copyWinners .single 0, .fill .single 0 map [region, region],
        .fill .single 0 map [⟨1, .zero, .zero, .zero, .zero⟩], .takeParts .single 0,
        .empty ⟨0, 1, 2, 3⟩]
    (start : Session Binary).fits commands = true ∧
      ∃ s : Session Binary, start.run commands = some s ∧ s.All (Winners.Valid Binary) ∧
        s.tables.map (·.value.cells) =
          [#[some 0, some 1], #[some 0, some 1, some 0, some 1], #[]] := by
  intro map region commands
  have hfits : (start : Session Binary).fits commands = true := by decide +kernel
  have htables : ((start : Session Binary).run commands).map (·.tables.map (·.value.cells)) =
      some [#[some 0, some 1], #[some 0, some 1, some 0, some 1], #[]] := by
    decide +kernel
  obtain ⟨s, hrun, hs⟩ := run_valid hfits
  rw [hrun] at htables
  exact ⟨hfits, s, hrun, hs, Option.some.inj htables⟩

end Session

end RegionPooling
