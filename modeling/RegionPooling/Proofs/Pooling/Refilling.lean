import RegionPooling.Proofs.Pooling.Overwriting

/-!
# Buffers filled again and again

Buffers are passed from one pass to the next, each pass being made in place. Main statement: after
any number of passes the buffers hold what pooling gives for the inputs of the last pass that was
not refused, and nothing of the passes before it; a refused pass leaves them exactly as they were.
Specification §8 asks that a repeated pass gives the same.
-/

namespace RegionPooling

variable {α : Type}

/-- Inputs of one pass over buffers. -/
structure Filling (α : Type) where
  map : Tensor α
  regions : List Region

namespace PooledShape

/-- Buffers of a shape take maps of four dimensions that have their number of channels, with regions
that fit the batch. -/
def Takes (s : PooledShape) (c : Filling α) : Prop :=
  ∃ d : MapDims, c.map.shape = d.shape ∧ d.channels = s.channels ∧
    validateRegions c.regions d.batch Buffers.filling = .ok ()

/-- The result of a pass over buffers of a shape fits into storage. -/
def Fits (s : PooledShape) (c : Filling α) : Prop :=
  (s.dims c.regions.length).shape.occupied ≤ storageLimit

/-- Buffers accept exactly the inputs that their shape takes. -/
theorem takes_iff {b : Buffers α} {c : Filling α} :
    b.shape.Takes c ↔ ∃ d, b.accept c.map c.regions = .ok d := by
  simp only [Takes, Buffers.accept_eq_ok_iff, validateRegions_eq_ok_iff]

end PooledShape

namespace Buffers

variable [Scalar α] {b : Buffers α} {c : Filling α}

/-- Makes one pass after another in place, whether it is refused or not. -/
def overwriteAll (b : Buffers α) (calls : List (Filling α)) : Except Fault (Buffers α) :=
  calls.foldlM (fun b c ↦ (b.overwrite c.map c.regions).map Prod.snd) b

private theorem overwrite_of_takes (hfits : b.shape.Fits c) (h : b.shape.Takes c) :
    ∃ d, b.accept c.map c.regions = .ok d ∧
      b.overwrite c.map c.regions = .ok (.ok (), b.filled c.map d c.regions) ∧
      (b.fill c.map c.regions).outcome = .ok (b.filled c.map d c.regions) := by
  obtain ⟨d, hd⟩ := PooledShape.takes_iff.1 h
  refine ⟨d, hd, ?_, ?_⟩
  · rw [overwrite_eq_ok (PooledDims.countable_of_fits hfits), hd]
  · exact outcome_fill_of_accept hd (PooledDims.countable_of_fits hfits)

private theorem overwrite_of_not_takes (hfits : b.shape.Fits c) (h : ¬ b.shape.Takes c) :
    ∃ e, b.overwrite c.map c.regions = .ok (.error e, b) ∧
      (b.fill c.map c.regions).outcome = .error (.rejected e) := by
  have hcount := PooledDims.countable_of_fits hfits
  cases haccept : b.accept c.map c.regions with
  | ok d => exact absurd (PooledShape.takes_iff.2 ⟨d, haccept⟩) h
  | error e =>
    refine ⟨e, ?_, ?_⟩
    · rw [overwrite_eq_ok hcount, haccept]
    · rw [outcome_fill hcount, haccept]
      rfl

/-- The passes go on with the buffers that the first one leaves. -/
theorem overwriteAll_cons {answer : Except PoolError Unit} {next : Buffers α}
    {calls : List (Filling α)} (h : b.overwrite c.map c.regions = .ok (answer, next)) :
    b.overwriteAll (c :: calls) = next.overwriteAll calls := by
  unfold overwriteAll
  rw [List.foldlM_cons, h]
  rfl

private theorem overwriteAll_append {before after : List (Filling α)} {next : Buffers α}
    (h : b.overwriteAll before = .ok next) :
    b.overwriteAll (before ++ after) = next.overwriteAll after := by
  unfold overwriteAll at h ⊢
  rw [List.foldlM_append, h]
  rfl

private theorem exists_overwriteAll {calls : List (Filling α)}
    (hfits : ∀ c ∈ calls, b.shape.Fits c) :
    ∃ next : Buffers α, b.overwriteAll calls = .ok next ∧ next.shape = b.shape := by
  induction calls generalizing b with
  | nil => exact ⟨b, rfl, rfl⟩
  | cons c calls ih =>
    obtain ⟨hc, hrest⟩ := List.forall_mem_cons.1 hfits
    by_cases htakes : b.shape.Takes c
    · obtain ⟨d, -, hstep, -⟩ := overwrite_of_takes hc htakes
      rw [overwriteAll_cons hstep]
      exact ih (b := b.filled c.map d c.regions) hrest
    · obtain ⟨e, hstep, -⟩ := overwrite_of_not_takes hc htakes
      rw [overwriteAll_cons hstep]
      exact ih hrest

private theorem overwriteAll_of_not_takes {calls : List (Filling α)}
    (hfits : ∀ c ∈ calls, b.shape.Fits c)
    (h : ∀ c ∈ calls, ¬ b.shape.Takes c) : b.overwriteAll calls = .ok b := by
  induction calls with
  | nil => rfl
  | cons c calls ih =>
    obtain ⟨hc, hrest⟩ := List.forall_mem_cons.1 hfits
    obtain ⟨hnot, hnots⟩ := List.forall_mem_cons.1 h
    obtain ⟨e, hstep, -⟩ := overwrite_of_not_takes hc hnot
    rw [overwriteAll_cons hstep]
    exact ih hrest hnots

end Buffers

variable [Scalar α] {s : PooledShape}

/-- After any number of passes in place, buffers hold what pooling gives for the inputs of the last
pass that was taken, or what they were allocated with if there was none. Exactly the passes that the
shape takes succeed, and a refused pass leaves the buffers as they were. -/
theorem overwriteAll_holds_last (hvalid : s.config.validate = .ok ()) {regions : ℕ}
    {fresh : Buffers α} (hfresh : s.allocate regions = .ok fresh) {calls : List (Filling α)}
    (hfits : ∀ c ∈ calls, s.Fits c) :
    ∃ b : Buffers α, fresh.overwriteAll calls = .ok b ∧
      ((∀ c ∈ calls, ¬ s.Takes c) → b = fresh) ∧
      (∀ before c after, calls = before ++ c :: after → s.Takes c →
        (∀ later ∈ after, ¬ s.Takes later) →
          ∃ output, (pool c.map c.regions s.config).outcome = .ok (output, b.winners) ∧
            output.data = b.output ∧ output.shape = b.dims.shape ∧
            b.regions = c.regions.length) ∧
      ∀ c, s.Fits c →
        (s.Takes c → ∃ next, b.overwrite c.map c.regions = .ok (.ok (), next) ∧
          (b.fill c.map c.regions).outcome = .ok next) ∧
        (¬ s.Takes c → ∃ e, b.overwrite c.map c.regions = .ok (.error e, b) ∧
          (b.fill c.map c.regions).outcome = .error (.rejected e)) := by
  obtain ⟨-, rfl⟩ := PooledShape.allocate_eq_ok_iff.1 hfresh
  obtain ⟨b, hrun, hb⟩ := Buffers.exists_overwriteAll (b := s.fresh α regions) hfits
  obtain rfl : b.shape = s := hb
  refine ⟨b, hrun, ?_, ?_, ?_⟩
  · intro hnone
    rw [Buffers.overwriteAll_of_not_takes (b := b.shape.fresh α regions) hfits hnone] at hrun
    exact (Except.ok.inj hrun).symm
  · rintro before c after rfl htakes hafter
    obtain ⟨hbefore, hrest⟩ := List.forall_mem_append.1 hfits
    obtain ⟨hc, hlater⟩ := List.forall_mem_cons.1 hrest
    obtain ⟨middle, hmiddle, hshape⟩ :=
      Buffers.exists_overwriteAll (b := b.shape.fresh α regions) hbefore
    change middle.shape = b.shape at hshape
    rw [Buffers.overwriteAll_append hmiddle] at hrun
    rw [← hshape] at hvalid hc hlater htakes hafter ⊢
    obtain ⟨d, haccept, hstep, -⟩ := Buffers.overwrite_of_takes hc htakes
    rw [Buffers.overwriteAll_cons hstep] at hrun
    rw [Buffers.overwriteAll_of_not_takes (b := middle.filled c.map d c.regions) hlater
      hafter] at hrun
    obtain rfl := Except.ok.inj hrun
    obtain ⟨output, hpool, hdims, hdata⟩ := Buffers.exists_outcome_pool hvalid haccept hc
    exact ⟨output, hpool, hdata, hdims, rfl⟩
  · intro c hc
    constructor
    · intro htakes
      obtain ⟨d, -, hstep, hfill⟩ := Buffers.overwrite_of_takes hc htakes
      exact ⟨_, hstep, hfill⟩
    · exact Buffers.overwrite_of_not_takes hc

/-- Two regions, then one, then one of a batch entry that the map does not have. -/
theorem overwriteAll_holds_last_refused :
    let map : Tensor (Binary .single) := ⟨⟨[1, 1, 1, 2]⟩, #[.ofInt 2, .ofInt 5], rfl, by decide⟩
    let first : Region := ⟨0, .zero, .zero, .zero, .zero⟩
    let both : Region := ⟨0, .zero, .zero, .ofInt 1, .zero⟩
    let s : PooledShape := ⟨1, ⟨1, 1, .ofInt 1⟩⟩
    let calls : List (Filling (Binary .single)) :=
      [⟨map, [first, first]⟩, ⟨map, [both]⟩, ⟨map, [⟨1, .zero, .zero, .zero, .zero⟩]⟩]
    ∃ fresh b : Buffers (Binary .single), s.allocate 3 = .ok fresh ∧
      fresh.overwriteAll calls = .ok b ∧ b.output = #[.ofInt 5] ∧ b.winners.cells = #[some 1] ∧
      ∃ output, (pool map [both] s.config).outcome = .ok (output, b.winners) ∧
        output.data = b.output := by
  intro map first both s calls
  have hfresh : s.allocate 3 = .ok (s.fresh (Binary .single) 3) :=
    PooledShape.allocate_eq_ok (by decide)
  have hrun : ((s.fresh (Binary .single) 3).overwriteAll calls).map
      (fun b ↦ (b.output, b.winners.cells)) = .ok (#[.ofInt 5], #[some 1]) := by
    decide +kernel
  have hfits : ∀ c ∈ calls, s.Fits c := by
    unfold PooledShape.Fits
    decide
  have htakes : s.Takes ⟨map, [both]⟩ := ⟨⟨1, 1, 1, 2⟩, rfl, rfl, by decide +kernel⟩
  have hrefused : ¬ s.Takes ⟨map, [⟨1, .zero, .zero, .zero, .zero⟩]⟩ := by
    rintro ⟨d, hd, -, hvalid⟩
    obtain rfl : ⟨1, 1, 1, 2⟩ = d := MapDims.shape_injective hd
    revert hvalid
    decide
  obtain ⟨b, hb, -, hlast, -⟩ := overwriteAll_holds_last (by decide +kernel) hfresh hfits
  rw [hb] at hrun
  obtain ⟨houtput, hcells⟩ := Prod.mk.inj (Except.ok.inj hrun)
  obtain ⟨output, hpool, hdata, -, -⟩ := hlast [_] _ [_] rfl htakes
    (List.forall_mem_singleton.2 hrefused)
  exact ⟨_, b, hfresh, hb, houtput, hcells, output, hpool, hdata⟩

end RegionPooling
