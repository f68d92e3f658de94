import RegionPooling.Proofs.Pooling.Records
import RegionPooling.Proofs.Session.Commands

/-!
# Invariants of sessions

What every step of a session keeps: shapes and buffers have accepted configurations, the parts of
buffers agree with each other, and every table has whatever property fresh tables and filled tables
have. Main statement: this holds after every step from a session where it holds, for every such
property.
-/

namespace RegionPooling

/-- Configuration, dimensions and storage of buffers agree. -/
structure Buffers.Consistent {α : Type} (b : Buffers α) : Prop where
  valid : b.shape.config.validate = .ok ()
  dims : b.winners.dims = b.dims
  size_output : b.output.size = b.winners.cells.size

/-- Fresh buffers of an accepted configuration are consistent. -/
theorem PooledShape.consistent_fresh {α : Type} [Scalar α] {s : PooledShape} (regions : ℕ)
    (h : s.config.validate = .ok ()) : (s.fresh α regions).Consistent :=
  ⟨h, rfl, by simp [fresh, Winners.blank]⟩

/-- Filled buffers are consistent if they had an accepted configuration. -/
theorem Buffers.consistent_of_outcome_fill {α : Type} [Scalar α] {b filled : Buffers α}
    {map : Tensor α} {regions : List Region} (hb : b.shape.config.validate = .ok ())
    (h : (b.fill map regions).outcome = .ok filled) : filled.Consistent := by
  obtain ⟨hshape, -, hdims, hsize⟩ := shape_of_outcome_fill h
  refine ⟨?_, hdims, hsize⟩
  rw [hshape]
  exact hb

namespace Session

variable {ι : Type} {E : ι → Type}

/-- Shapes and buffers are in order, and all tables have a property. -/
structure All (s : Session E) (P : Winners → Option (Pass ι) → Prop) : Prop where
  shapes : ∀ h ∈ s.shapes, h.config.validate = .ok ()
  buffers : ∀ i, ∀ b ∈ s.buffers i, b.value.Consistent ∧ P b.value.winners b.pass
  tables : ∀ t ∈ s.tables, P t.value t.pass

variable {s : Session E} {P : Winners → Option (Pass ι) → Prop}

/-- Where nothing is held, everything is in order. -/
theorem all_start : (start : Session E).All P :=
  ⟨fun _ h ↦ (List.not_mem_nil h).elim, fun _ _ h ↦ (List.not_mem_nil h).elim,
    fun _ h ↦ (List.not_mem_nil h).elim⟩

/-- A shape with an accepted configuration may be added. -/
theorem All.addShape {shape : PooledShape} (hs : s.All P)
    (h : shape.config.validate = .ok ()) : (s.addShape shape).All P := by
  refine ⟨?_, hs.buffers, hs.tables⟩
  intro held hheld
  rcases List.mem_append.1 hheld with hold | hnew
  · exact hs.shapes held hold
  · rw [List.mem_singleton.1 hnew]
    exact h

/-- A table with the property may be added. -/
theorem All.addTable {table : Noted ι Winners} (hs : s.All P) (h : P table.value table.pass) :
    (s.addTable table).All P := by
  refine ⟨hs.shapes, hs.buffers, ?_⟩
  intro held hheld
  rcases List.mem_append.1 hheld with hold | hnew
  · exact hs.tables held hold
  · rw [List.mem_singleton.1 hnew]
    exact h

/-- A table that is held is held with a pass or with none. -/
theorem Holds.exists_keeps {w : Winners} (h : s.Holds w) : ∃ pass, s.Keeps w pass := by
  rcases h with ⟨t, ht, rfl⟩ | ⟨i, b, hb, rfl⟩
  · exact ⟨t.pass, .inl ⟨t, ht, rfl, rfl⟩⟩
  · exact ⟨b.pass, .inr ⟨i, b, hb, rfl, rfl⟩⟩

/-- A table that is held has the property together with the pass noted for it. -/
theorem All.of_keeps {w : Winners} {pass : Option (Pass ι)} (hs : s.All P) (h : s.Keeps w pass) :
    P w pass := by
  rcases h with ⟨t, ht, rfl, rfl⟩ | ⟨i, b, hb, rfl, rfl⟩
  · exact hs.tables t ht
  · exact (hs.buffers i b hb).2

/-- A table that is held has the property, together with some note. -/
theorem All.exists_of_holds {w : Winners} (hs : s.All P) (hw : s.Holds w) : ∃ pass, P w pass :=
  hw.exists_keeps.imp fun _ hkeeps ↦ hs.of_keeps hkeeps

private theorem follow_cases {β : Type} {Q : Session E → Prop} {outcome : Except Fault β}
    {next : β → Session E} {t : Session E} (h : s.follow outcome next = some t) (hs : Q s)
    (hnext : ∀ b, outcome = .ok b → Q (next b)) : Q t := by
  unfold follow at h
  split at h
  · next b => exact Option.some.inj h ▸ hnext b rfl
  · exact Option.some.inj h ▸ hs
  · cases h
  · cases h

private theorem exists_follow {β : Type} {outcome : Except Fault β} {next : β → Session E}
    (h : Answers outcome) : ∃ t, s.follow outcome next = some t := by
  obtain ⟨result, rfl⟩ := h
  cases result with
  | ok b => exact ⟨next b, rfl⟩
  | error e => exact ⟨s, rfl⟩

private theorem locate_cases {β : Type} {Q : Session E → Prop} {held : Option β}
    {next : β → Option (Session E)} {t : Session E} (h : s.locate held next = some t) (hs : Q s)
    (hnext : ∀ b, held = some b → next b = some t → Q t) : Q t := by
  cases held with
  | none => exact Option.some.inj h ▸ hs
  | some b => exact hnext b rfl h

private theorem exists_locate {β : Type} {held : Option β} {next : β → Option (Session E)}
    (h : ∀ b, held = some b → ∃ t, next b = some t) : ∃ t, s.locate held next = some t := by
  cases held with
  | none => exact ⟨s, rfl⟩
  | some b => exact h b rfl

variable [DecidableEq ι]

/-- Buffers in order may replace others. -/
theorem All.setBuffers {i : ι} {list : List (Noted ι (Buffers (E i)))} (hs : s.All P)
    (h : ∀ b ∈ list, b.value.Consistent ∧ P b.value.winners b.pass) :
    (s.setBuffers i list).All P := by
  refine ⟨hs.shapes, ?_, hs.tables⟩
  intro j b hb
  change b ∈ Function.update s.buffers i list j at hb
  by_cases hj : j = i
  · subst hj
    rw [Function.update_self] at hb
    exact h b hb
  · rw [Function.update_of_ne hj] at hb
    exact hs.buffers j b hb

/-- Buffers in order may be added. -/
theorem All.addBuffers {i : ι} {b : Noted ι (Buffers (E i))} (hs : s.All P)
    (hb : b.value.Consistent) (hP : P b.value.winners b.pass) :
    (s.setBuffers i (s.buffers i ++ [b])).All P := by
  apply hs.setBuffers
  intro held hheld
  rcases List.mem_append.1 hheld with hold | hnew
  · exact hs.buffers i held hold
  · rw [List.mem_singleton.1 hnew]
    exact ⟨hb, hP⟩

variable [∀ i, Scalar (E i)]

/-- Property of the tables that a session can form. -/
structure Formed (E : ι → Type) [∀ i, Scalar (E i)] (P : Winners → Option (Pass ι) → Prop) :
    Prop where
  blank : ∀ d, P (.blank d) none
  filled : ∀ (i : ι) (b filled : Buffers (E i)) (map : Tensor (E i)) (regions : List Region),
    (b.fill map regions).outcome = .ok filled →
      P filled.winners (some ⟨i, regions, map.shape, b.shape.config⟩)

/-- A step keeps everything in order. -/
theorem All.step {c : Command E} {next : Session E} (hs : s.All P) (hP : Formed E P)
    (h : s.step c = some next) : next.All P := by
  cases c with
  | resolve config channels =>
    apply follow_cases h hs
    intro shape hshape
    obtain ⟨hvalid, rfl⟩ := PooledShape.outcome_resolve_eq_ok_iff.1 hshape
    exact hs.addShape hvalid
  | resolveFor config map =>
    apply follow_cases h hs
    intro shape hshape
    obtain ⟨_, -, hvalid, rfl⟩ := PooledShape.outcome_resolveFor_eq_ok_iff.1 hshape
    exact hs.addShape hvalid
  | allocate i place regions =>
    apply locate_cases h hs
    intro shape hshape hnext
    apply follow_cases hnext hs
    intro fresh hfresh
    obtain ⟨-, rfl⟩ := PooledShape.allocate_eq_ok_iff.1 hfresh
    have hvalid := hs.shapes shape (List.mem_of_getElem? hshape)
    exact hs.addBuffers (PooledShape.consistent_fresh regions hvalid) (hP.blank _)
  | fill i place map regions =>
    apply locate_cases h hs
    intro b hb hnext
    apply follow_cases hnext hs
    intro filled hfill
    have hvalid := (hs.buffers i b (List.mem_of_getElem? hb)).1.valid
    apply hs.setBuffers
    intro held hheld
    rcases List.mem_or_eq_of_mem_set hheld with hold | rfl
    · exact hs.buffers i held hold
    · exact ⟨Buffers.consistent_of_outcome_fill hvalid hfill,
        hP.filled i b.value filled map regions hfill⟩
  | pool i map regions config =>
    apply follow_cases h hs
    rintro ⟨output, w⟩ hpool
    obtain ⟨d, filled, -, -, hfill, -, rfl⟩ := exists_fill_of_outcome_pool hpool
    exact hs.addTable (hP.filled i _ filled map regions hfill)
  | takeParts i place =>
    apply locate_cases h hs
    intro b hb hnext
    have hrest : (s.setBuffers i ((s.buffers i).eraseIdx place)).All P :=
      hs.setBuffers fun held hheld ↦ hs.buffers i held (List.mem_of_mem_eraseIdx hheld)
    apply follow_cases hnext hrest
    rintro ⟨output, w⟩ hparts
    obtain ⟨-, rfl⟩ := Buffers.parts_eq_ok_iff.1 (Fault.ofRefusal_eq_ok_iff.1 hparts)
    exact hrest.addTable (hs.buffers i b (List.mem_of_getElem? hb)).2
  | copyBuffers i place =>
    apply locate_cases h hs
    intro b hb hnext
    cases hnext
    obtain ⟨hconsistent, hwinners⟩ := hs.buffers i b (List.mem_of_getElem? hb)
    exact hs.addBuffers hconsistent hwinners
  | copyWinners i place =>
    apply locate_cases h hs
    intro b hb hnext
    cases hnext
    exact hs.addTable (hs.buffers i b (List.mem_of_getElem? hb)).2
  | copyTable place =>
    apply locate_cases h hs
    intro t ht hnext
    cases hnext
    exact hs.addTable (hs.tables t (List.mem_of_getElem? ht))
  | empty dims =>
    apply follow_cases h hs
    intro w hw
    obtain ⟨-, -, -, -, rfl⟩ := Winners.empty_eq_ok_iff.1 hw
    exact hs.addTable (hP.blank dims)

/-- A step answers if its result can be counted. -/
theorem exists_step {c : Command E} (hcount : ∀ d ∈ s.demand c, d.Countable) :
    ∃ next, s.step c = some next := by
  cases c with
  | resolve config channels => exact exists_follow (PooledShape.answers_resolve config channels)
  | resolveFor config map => exact exists_follow (PooledShape.answers_resolveFor config map)
  | allocate i place regions =>
    apply exists_locate
    intro shape hshape
    exact exists_follow
      ⟨.ok _, PooledShape.allocate_eq_ok (hcount _ (congrArg (Option.map _) hshape))⟩
  | fill i place map regions =>
    apply exists_locate
    intro b hb
    exact exists_follow (Buffers.answers_fill (hcount _ (congrArg (Option.map _) hb)))
  | pool i map regions config =>
    apply exists_follow
    apply answers_pool
    intro d hshape
    exact hcount _ (congrArg (Option.map _) (Shape.mapDims?_eq_some_iff.2 hshape))
  | takeParts i place =>
    apply exists_locate
    intro b _
    exact exists_follow (answers_ofRefusal _)
  | copyBuffers i place => exact exists_locate fun b _ ↦ ⟨_, rfl⟩
  | copyWinners i place => exact exists_locate fun b _ ↦ ⟨_, rfl⟩
  | copyTable place => exact exists_locate fun t _ ↦ ⟨_, rfl⟩
  | empty dims => exact exists_follow ⟨.ok _, Winners.empty_eq_ok (hcount dims rfl)⟩

/-- A run from one session goes on from the session after its first command. -/
theorem run_cons_eq_some_iff {c : Command E} {commands : List (Command E)} {t : Session E} :
    s.run (c :: commands) = some t ↔ ∃ next, s.step c = some next ∧ next.run commands = some t := by
  unfold run
  rw [List.foldlM_cons]
  exact Option.bind_eq_some_iff

/-- Everything is in order in every session that can be reached. -/
theorem Reachable.all (hs : s.Reachable) (hP : Formed E P) : s.All P := by
  obtain ⟨commands, hrun⟩ := hs
  suffices keep : ∀ first : Session E, first.All P → first.run commands = some s → s.All P from
    keep start all_start hrun
  clear hrun
  induction commands with
  | nil =>
    intro first hfirst hrun
    exact Option.some.inj hrun ▸ hfirst
  | cons c commands ih =>
    intro first hfirst hrun
    obtain ⟨next, hstep, hrest⟩ := run_cons_eq_some_iff.1 hrun
    exact ih next (hfirst.step hP hstep) hrest

/-- The table that pooling returns can be held, with its pass. -/
theorem exists_keeps_of_pool {i : ι} {map output : Tensor (E i)} {regions : List Region}
    {config : PoolConfig} {w : Winners}
    (h : (RegionPooling.pool map regions config).outcome = .ok (output, w)) :
    ∃ s : Session E, s.Reachable ∧ s.Keeps w (some ⟨i, regions, map.shape, config⟩) := by
  let table : Noted ι Winners := ⟨w, some ⟨i, regions, map.shape, config⟩⟩
  refine ⟨start.addTable table, ⟨[.pool i map regions config], ?_⟩,
    .inl ⟨table, List.mem_singleton.2 rfl, rfl, rfl⟩⟩
  refine run_cons_eq_some_iff.2 ⟨start.addTable table, ?_, rfl⟩
  show start.follow (RegionPooling.pool map regions config).outcome _ = _
  rw [h]
  rfl

/-- The table that pooling returns can be held. -/
theorem exists_reachable_of_pool {i : ι} {map output : Tensor (E i)} {regions : List Region}
    {config : PoolConfig} {w : Winners}
    (h : (RegionPooling.pool map regions config).outcome = .ok (output, w)) :
    ∃ s : Session E, s.Reachable ∧ s.Holds w := by
  obtain ⟨s, hs, hw⟩ := exists_keeps_of_pool h
  refine ⟨s, hs, hw.imp ?_ ?_⟩
  · rintro ⟨t, ht, heq, -⟩
    exact ⟨t, ht, heq⟩
  · rintro ⟨i, b, hb, heq, -⟩
    exact ⟨i, b, hb, heq⟩

end Session

end RegionPooling
