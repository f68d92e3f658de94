import RegionPooling.Proofs.Gradient.Agreement
import RegionPooling.Proofs.Gradient.Counting
import RegionPooling.Proofs.Session.Validity

/-!
# Pairing of tables with inputs

A table belongs to the regions and the map of the pass that filled it last. Main statement: in every
session that can be reached, gradients go through a table for exactly the inputs that it belongs to,
and all other inputs are refused by scattering and gathering for the same cause. A refused pass
changes nothing of this; a pass that fills buffers takes their table away from its old inputs.
Specification §3 and §10.8.
-/

namespace RegionPooling

variable {ι : Type}

/-- Whether a pass was made over given regions and a map of a given shape. -/
def Paired (pass : Option (Pass ι)) (regions : List Region) (map : Shape) : Prop :=
  ∃ p, pass = some p ∧ p.regions = regions ∧ p.map = map

namespace Winners

variable {α : Type} {w : Winners} {regions : List Region} {map : MapDims}

/-- A table remembers the regions and the map of the pass noted with it. -/
def Remembers (w : Winners) : Option (Pass ι) → Prop
  | none => w.provenance = none
  | some p => ∃ d : MapDims, p.map = d.shape ∧ d.shape.occupied ≤ storageLimit ∧
      w.dims.regions = p.regions.length ∧ w.provenance = some ⟨p.regions, d, p.config⟩

/-- Fresh and filled tables remember their passes. -/
theorem formed_remembers (E : ι → Type) [∀ i, Scalar (E i)] : Session.Formed E Remembers where
  blank _ := rfl
  filled i b filled map regions hfill := by
    obtain ⟨-, d, haccept, rfl⟩ := Buffers.outcome_fill_eq_ok_iff_filled.1 hfill
    have hshape := (Buffers.accept_eq_ok_iff.1 haccept).1
    exact ⟨d, hshape, Tensor.occupied_le hshape, rfl, rfl⟩

/-- A table that remembers its pass is stale for exactly the inputs of other passes. -/
theorem Remembers.staleCause?_eq_none_iff {pass : Option (Pass ι)} (h : w.Remembers pass) :
    w.staleCause? regions map = none ↔ Paired pass regions map.shape := by
  unfold staleCause?
  cases pass with
  | none =>
    have hnone : w.provenance = none := h
    rw [hnone]
    constructor
    · exact nofun
    · rintro ⟨p, hp, -⟩
      cases hp
  | some p =>
    obtain ⟨d, hmap, -, hcount, hsource⟩ := h
    rw [hsource, hcount]
    dsimp only
    constructor
    · intro hnone
      by_cases hlength : p.regions.length = regions.length
      · by_cases hdims : d = map
        · by_cases hregions : p.regions = regions
          · exact ⟨p, rfl, hregions, hmap.trans (congrArg MapDims.shape hdims)⟩
          · simp [hlength, hdims, hregions] at hnone
        · simp [hlength, hdims] at hnone
      · simp [hlength] at hnone
    · rintro ⟨q, hq, rfl, hshape⟩
      cases hq
      have hdims : d = map := MapDims.shape_injective (hmap.symm.trans hshape)
      simp [hdims]

/-- For the inputs of other passes a cause is found. -/
theorem Remembers.exists_staleCause {pass : Option (Pass ι)} (h : w.Remembers pass)
    (hpaired : ¬ Paired pass regions map.shape) : ∃ cause, w.staleCause? regions map = some cause :=
  Option.ne_none_iff_exists'.1 (mt h.staleCause?_eq_none_iff.1 hpaired)

/-- A table is accepted if no cause is found. -/
theorem checkPairing_eq_ok_iff_staleCause? {operation : String} :
    w.checkPairing regions map operation = .ok () ↔ w.staleCause? regions map = none := by
  unfold checkPairing
  cases w.staleCause? regions map <;> simp

/-- Inputs of a gradient are accepted if they have the right dimensions and are those of the pass.
-/
theorem Remembers.accepted_iff {pass : Option (Pass ι)} (h : w.Remembers pass)
    {gradient : Tensor α} {map : Shape} {operation : String} :
    (∃ d, acceptGradient w gradient regions map operation = .ok d) ↔
      (∃ d : MapDims, map = d.shape) ∧ gradient.shape = w.dims.shape ∧
        Paired pass regions map := by
  simp only [acceptGradient_eq_ok_iff, checkPairing_eq_ok_iff_staleCause?,
    h.staleCause?_eq_none_iff]
  constructor
  · rintro ⟨d, rfl, hg, hpaired⟩
    exact ⟨⟨d, rfl⟩, hg, hpaired⟩
  · rintro ⟨⟨d, rfl⟩, hg, hpaired⟩
    exact ⟨d, rfl, hg, hpaired⟩

private theorem routeCounts_of_stale {cause : StaleCause}
    (h : w.staleCause? regions map = some cause) :
    w.routeCounts regions map = .error (.rejected ⟨"route_counts", .stale cause⟩) := by
  unfold routeCounts checkPairing
  rw [h]
  rfl

variable [Scalar α] {gradient : Tensor α}

/-- Scattering and gathering refuse their inputs for the same cause. -/
def Refuses (w : Winners) (gradient : Tensor α) (regions : List Region) (map : Shape)
    (cause : Cause) : Prop :=
  (scatter w gradient regions map).outcome = .error (.rejected ⟨scattering, cause⟩) ∧
    (gather w gradient regions map).outcome = .error (.rejected ⟨gathering, cause⟩)

private theorem refuses_of_acceptGradient {map : Shape} {cause : Cause}
    (h : ∀ operation, acceptGradient w gradient regions map operation =
      .error ⟨operation, cause⟩) : w.Refuses gradient regions map cause := by
  constructor
  · unfold scatter
    rw [h, Run.outcome_bind]
    rfl
  · unfold gather
    rw [h, Run.outcome_bind]
    rfl

private theorem refuses_of_rank {map : Shape} (h : map.mapDims? = none) :
    w.Refuses gradient regions map (.shape (.inputRank map.rank) (some map)) := by
  apply refuses_of_acceptGradient
  intro operation
  unfold acceptGradient
  rw [h]
  rfl

private theorem refuses_of_shape (h : gradient.shape ≠ w.dims.shape) :
    w.Refuses gradient regions map.shape
      (.mismatch (.dims w.dims.shape) (.dims gradient.shape)) := by
  apply refuses_of_acceptGradient
  intro operation
  unfold acceptGradient
  rw [Shape.mapDims?_eq_some_iff.2 rfl]
  exact if_pos h

private theorem refuses_of_stale {cause : StaleCause} (hg : gradient.shape = w.dims.shape)
    (h : w.staleCause? regions map = some cause) :
    w.Refuses gradient regions map.shape (.stale cause) := by
  apply refuses_of_acceptGradient
  intro operation
  have hstale : w.checkPairing regions map operation = .error ⟨operation, .stale cause⟩ := by
    unfold checkPairing
    rw [h]
  unfold acceptGradient
  rw [Shape.mapDims?_eq_some_iff.2 rfl]
  dsimp only
  rw [if_neg (not_not_intro hg), hstale]
  rfl

end Winners

/-- Gradients and counts go through a table for the inputs of a pass, and for no others. Other
inputs are refused: maps of other ranks first, then gradients of other shapes, then stale tables. -/
structure Winners.BelongsTo (α : Type) [Scalar α] (w : Winners) (pass : Option (Pass ι)) :
    Prop where
  counts_iff : ∀ regions (map : MapDims),
    (∃ counts, w.routeCounts regions map = .ok counts) ↔ Paired pass regions map.shape
  scatter_iff : ∀ (gradient : Tensor α) regions map,
    (∃ t, (scatter w gradient regions map).outcome = .ok t) ↔
      (∃ d : MapDims, map = d.shape) ∧ gradient.shape = w.dims.shape ∧ Paired pass regions map
  gather_iff : ∀ (gradient : Tensor α) regions map,
    (∃ t, (gather w gradient regions map).outcome = .ok t) ↔
      (∃ d : MapDims, map = d.shape) ∧ gradient.shape = w.dims.shape ∧ Paired pass regions map
  rank : ∀ (gradient : Tensor α) regions map, (¬ ∃ d : MapDims, map = d.shape) →
    w.Refuses gradient regions map (.shape (.inputRank map.rank) (some map))
  shape : ∀ (gradient : Tensor α) regions (map : MapDims), gradient.shape ≠ w.dims.shape →
    w.Refuses gradient regions map.shape (.mismatch (.dims w.dims.shape) (.dims gradient.shape))
  stale : ∀ regions (map : MapDims), ¬ Paired pass regions map.shape → ∃ cause,
    w.routeCounts regions map = .error (.rejected ⟨"route_counts", .stale cause⟩) ∧
      ∀ gradient : Tensor α, gradient.shape = w.dims.shape →
        w.Refuses gradient regions map.shape (.stale cause)

section

variable {E : ι → Type} [∀ i, Scalar (E i)] {α : Type} [Scalar α] {w : Winners}
  {pass : Option (Pass ι)} {regions : List Region} {map : MapDims}

/-- A table records the pass over the inputs that it is paired with. -/
theorem Winners.Remembers.exists_records (h : w.Remembers pass) (hvalid : w.Valid E pass)
    (hpaired : Paired pass regions map.shape) : map.shape.occupied ≤ storageLimit ∧
      ∃ (i : ι) (config : PoolConfig), w.Records (E i) regions map config := by
  obtain ⟨p, rfl, rfl, hp⟩ := hpaired
  obtain ⟨d, hd, hfits, -⟩ := h
  obtain ⟨-, -, e, he, hrecords⟩ := hvalid
  obtain rfl : d = map := MapDims.shape_injective (hd.symm.trans hp)
  obtain rfl : e = d := MapDims.shape_injective (he.symm.trans hd)
  exact ⟨hfits, p.kind, p.config, hrecords⟩

/-- A valid table that remembers its pass belongs to the pass. -/
theorem Winners.Remembers.belongsTo (h : w.Remembers pass) (hvalid : w.Valid E pass) :
    w.BelongsTo α pass where
  counts_iff regions map := by
    constructor
    · rintro ⟨counts, hcounts⟩
      by_contra hpaired
      obtain ⟨cause, hcause⟩ := h.exists_staleCause hpaired
      rw [routeCounts_of_stale hcause] at hcounts
      cases hcounts
    · intro hpaired
      obtain ⟨hmap, i, config, hr⟩ := h.exists_records hvalid hpaired
      exact ⟨_, hr.routeCounts_eq_ok hmap⟩
  scatter_iff gradient regions map := by
    constructor
    · rintro ⟨t, ht⟩
      obtain ⟨d, haccept, -⟩ := outcome_scatter_eq_ok_iff.1 ht
      exact h.accepted_iff.1 ⟨d, haccept⟩
    · rintro ⟨⟨d, rfl⟩, hg, hpaired⟩
      obtain ⟨hmap, i, config, hr⟩ := h.exists_records hvalid hpaired
      obtain ⟨t, ht, -⟩ := hr.outcome_scatter hg hmap
      exact ⟨t, ht⟩
  gather_iff gradient regions map := by
    constructor
    · rintro ⟨t, ht⟩
      obtain ⟨d, haccept, -⟩ := outcome_gather_eq_ok_iff.1 ht
      exact h.accepted_iff.1 ⟨d, haccept⟩
    · rintro ⟨⟨d, rfl⟩, hg, hpaired⟩
      obtain ⟨hmap, i, config, hr⟩ := h.exists_records hvalid hpaired
      exact hr.exists_outcome_gather hmap hg
  rank gradient regions map hrank := by
    apply refuses_of_rank
    rw [Option.eq_none_iff_forall_ne_some]
    intro d hd
    exact hrank ⟨d, Shape.mapDims?_eq_some_iff.1 hd⟩
  shape gradient regions map hg := refuses_of_shape hg
  stale regions map hpaired := by
    obtain ⟨cause, hcause⟩ := h.exists_staleCause hpaired
    exact ⟨cause, routeCounts_of_stale hcause, fun _ hg ↦ refuses_of_stale hg hcause⟩

end

namespace Session

variable {E : ι → Type}

variable [DecidableEq ι] {s : Session E}

private theorem buffers_setBuffers (i : ι) (list : List (Noted ι (Buffers (E i)))) :
    (s.setBuffers i list).buffers i = list := Function.update_self ..

variable [∀ i, Scalar (E i)]

/-- What can be reached by one more command can be reached. -/
theorem Reachable.step {c : Command E} {t : Session E} (hs : s.Reachable)
    (h : s.step c = some t) : t.Reachable := by
  obtain ⟨commands, hrun⟩ := hs
  refine ⟨commands ++ [c], ?_⟩
  unfold run at hrun ⊢
  rw [List.foldlM_append, hrun]
  show [c].foldlM Session.step s = some t
  rw [List.foldlM_cons, h]
  rfl

private theorem step_fill {i : ι} {place : ℕ} {b : Noted ι (Buffers (E i))}
    (hb : (s.buffers i)[place]? = some b) (map : Tensor (E i)) (regions : List Region) :
    s.step (.fill i place map regions) =
      s.follow (b.value.fill map regions).outcome fun filled ↦
        s.setBuffers i ((s.buffers i).set place
          ⟨filled, some ⟨i, regions, map.shape, b.value.shape.config⟩⟩) := by
  show s.locate (s.buffers i)[place]? _ = _
  rw [hb]
  rfl

/-- Every table that is held belongs to the pass noted with it. -/
theorem Reachable.belongsTo (hs : s.Reachable) {α : Type} [Scalar α] {w : Winners}
    {pass : Option (Pass ι)} (hw : s.Keeps w pass) : w.BelongsTo α pass := by
  have hremembers := (hs.all (Winners.formed_remembers E)).of_keeps hw
  have hvalid := (hs.all (formed_valid E)).of_keeps hw
  exact hremembers.belongsTo hvalid

/-- Tables belong to exactly the inputs of the passes that filled them last. A refused pass leaves
the session as it is, and thereby every pairing; after any other pass over buffers their table
belongs to the new inputs, and old inputs that differ are refused. -/
theorem belongsTo_of_reachable (hs : s.Reachable) (α : Type) [Scalar α] :
    (∀ w pass, s.Keeps w pass → w.BelongsTo α pass) ∧
      ∀ i place map regions (b : Noted ι (Buffers (E i))), (s.buffers i)[place]? = some b →
        (∀ e, (b.value.fill map regions).outcome = .error (.rejected e) →
          s.step (.fill i place map regions) = some s) ∧
        ∀ filled, (b.value.fill map regions).outcome = .ok filled →
          ∃ t pass, s.step (.fill i place map regions) = some t ∧
            (t.buffers i)[place]? = some ⟨filled, some pass⟩ ∧
            pass.regions = regions ∧ pass.map = map.shape ∧
            filled.winners.BelongsTo α (some pass) ∧
            ∀ old (shape : MapDims), ¬ (old = regions ∧ shape.shape = map.shape) →
              ∃ cause, filled.winners.routeCounts old shape =
                .error (.rejected ⟨"route_counts", .stale cause⟩) := by
  refine ⟨fun w pass hw ↦ hs.belongsTo hw, ?_⟩
  intro i place map regions b hb
  have hstep := step_fill hb map regions
  constructor
  · intro e he
    rw [hstep, he]
    rfl
  · intro filled hfill
    rw [hfill] at hstep
    let pass : Pass ι := ⟨i, regions, map.shape, b.value.shape.config⟩
    have hget : ((s.setBuffers i ((s.buffers i).set place ⟨filled, some pass⟩)).buffers i)[place]? =
        some ⟨filled, some pass⟩ := by
      rw [buffers_setBuffers, List.getElem?_set_self (List.getElem?_eq_some_iff.1 hb).1]
    have hkeeps := (hs.step hstep).belongsTo (α := α)
      (.inr ⟨i, _, List.mem_of_getElem? hget, rfl, rfl⟩)
    refine ⟨_, pass, hstep, hget, rfl, rfl, hkeeps, ?_⟩
    intro old shape hother
    have hpaired : ¬ Paired (some pass) old shape.shape := by
      rintro ⟨p, hp, hregions, hmap⟩
      cases hp
      exact hother ⟨hregions.symm, hmap.symm⟩
    obtain ⟨cause, hcause, -⟩ := hkeeps.stale old shape hpaired
    exact ⟨cause, hcause⟩

/-- A table and the inputs of its pass, and a region that differs in the sign of a zero alone. -/
theorem belongsTo_of_reachable_zero :
    let map : Tensor (Binary .single) :=
      ⟨⟨[1, 1, 1, 2]⟩, #[.ofInt 2, .ofInt 5], rfl, by decide⟩
    let region : Region := ⟨0, .zero, .zero, .ofInt 1, .zero⟩
    let other : Region := ⟨0, .signedZero true, .zero, .ofInt 1, .zero⟩
    ∃ (s : Session Binary) (w : Winners) (pass : Pass Format), s.Reachable ∧
      s.Keeps w (some pass) ∧ pass.regions = [region] ∧ pass.map = map.shape ∧
      w.BelongsTo (Binary .double) (some pass) ∧
      w.routeCounts [region] ⟨1, 1, 1, 2⟩ = .ok #[0, 1] ∧
      ∃ cause, w.routeCounts [other] ⟨1, 1, 1, 2⟩ =
        .error (.rejected ⟨"route_counts", .stale cause⟩) := by
  intro map region other
  have hok : ((pool map [region] ⟨1, 1, .ofInt 1⟩).outcome.map fun pooled ↦
      pooled.2.routeCounts [region] ⟨1, 1, 1, 2⟩) = .ok (.ok #[0, 1]) := by
    decide +kernel
  obtain ⟨output, w, hpool, hcounts⟩ := exists_outcome_pool_of_map hok
  obtain ⟨s, hs, hw⟩ := exists_keeps_of_pool (E := Binary) hpool
  have hbelongs := (belongsTo_of_reachable hs (Binary .double)).1 w _ hw
  refine ⟨s, w, _, hs, hw, rfl, rfl, hbelongs, hcounts, ?_⟩
  have hother : ¬ Paired (some (⟨.single, [region], map.shape, ⟨1, 1, .ofInt 1⟩⟩ : Pass Format))
      [other] (MapDims.shape ⟨1, 1, 1, 2⟩) := by
    rintro ⟨p, hp, hregions, -⟩
    cases hp
    revert hregions
    decide
  obtain ⟨cause, hcause, -⟩ := hbelongs.stale _ _ hother
  exact ⟨cause, hcause⟩

end Session

end RegionPooling
