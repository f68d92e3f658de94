import RegionPooling.Error

/-!
# Events and runs

The library reports what it did as a list of events, each with a level and a text; specification
§10.5. A `Run` is a computation that reports events, in order, and ends with a result or a fault;
the events before a fault are kept.
-/

namespace RegionPooling

/-- Degrees of importance. -/
inductive Level where
  | info
  | debug
  | trace
  deriving DecidableEq, Repr

/-- What the library reports. -/
inductive Event where
  /-- A layer accepted its scale; §10.3. -/
  | scaleAccepted (scale : Binary .single)
  /-- A pooled shape was resolved. -/
  | shapeResolved (channels height width : Nat)
  /-- Some bins of a region hold no cell of the map. -/
  | emptyBins (region : Region) (count : Nat)
  /-- A map was pooled. -/
  | pooled (regions : Nat) (map : MapDims) (height width empty : Nat)
  /-- Gradients were routed back to a map. -/
  | routed (regions : Nat) (map : MapDims)
  deriving DecidableEq

namespace Event

/-- Importance of an event: summaries at `debug`, empty bins at `trace`; §10.5. -/
def level : Event → Level
  | scaleAccepted _ => .info
  | shapeResolved .. | pooled .. | routed .. => .debug
  | emptyBins .. => .trace

/-- Text of an event. -/
def text : Event → String
  | scaleAccepted scale => "Spatial scale: " ++ scale.text .plain
  | shapeResolved channels height width =>
    "resolved pooled shape: " ++ toString channels ++ " channels, " ++ toString height ++ "x"
      ++ toString width
  | emptyBins region count =>
    "ROI " ++ region.text ++ " produced " ++ toString count ++ " empty bins"
  | pooled regions map height width empty =>
    "roi_pool2d_forward: " ++ toString regions ++ " rois over " ++ map.shape.text ++ ", pooled "
      ++ toString height ++ "x" ++ toString width ++ ", " ++ toString empty ++ " empty bins"
  | routed regions map =>
    "roi_pool2d_backward: routed " ++ toString regions ++ " rois into " ++ map.shape.text

end Event

/-- Computation that reports events and ends with a result or a fault. -/
structure Run (α : Type) where
  events : List Event
  outcome : Except Fault α

namespace Run

variable {α β : Type}

/-- A result without events. -/
def ofExcept (outcome : Except Fault α) : Run α := ⟨[], outcome⟩

/-- A result, or the refusal of an operation, without events. -/
def ofResult (result : Except PoolError α) : Run α := ⟨[], Fault.ofRefusal result⟩

/-- Reports one event. -/
def report (event : Event) : Run Unit := ⟨[event], .ok ()⟩

/-- Reports events in order. -/
def reportAll (events : List Event) : Run Unit := ⟨events, .ok ()⟩

/-- Runs one computation after another; a fault ends the run. -/
def bind (first : Run α) (next : α → Run β) : Run β :=
  match first.outcome with
  | .ok a => ⟨first.events ++ (next a).events, (next a).outcome⟩
  | .error fault => ⟨first.events, .error fault⟩

instance : Monad Run where
  pure a := ⟨[], .ok a⟩
  bind := bind

/-- A result alone is its own outcome. -/
@[simp] theorem outcome_pure (a : α) : (pure a : Run α).outcome = .ok a := rfl

/-- A given outcome is the outcome. -/
@[simp] theorem outcome_ofExcept (outcome : Except Fault α) :
    (ofExcept outcome).outcome = outcome :=
  rfl

/-- Reporting an event always succeeds. -/
@[simp] theorem outcome_report (event : Event) : (report event).outcome = .ok () := rfl

/-- Reporting events always succeeds. -/
@[simp] theorem outcome_reportAll (events : List Event) : (reportAll events).outcome = .ok () := rfl

/-- The result of a sequence is the sequence of the results. -/
theorem outcome_bind (first : Run α) (next : α → Run β) :
    (first >>= next).outcome = first.outcome.bind fun a => (next a).outcome := by
  obtain ⟨events, outcome⟩ := first
  cases outcome <;> rfl

/-- A sequence yields a result exactly when both parts do. -/
@[simp] theorem outcome_bind_eq_ok_iff {first : Run α} {next : α → Run β} {b : β} :
    (first >>= next).outcome = .ok b ↔
      ∃ a, first.outcome = .ok a ∧ (next a).outcome = .ok b := by
  rw [outcome_bind]
  cases first.outcome with
  | error fault => simp [Except.bind]
  | ok a => simp [Except.bind]

/-- After a check that succeeds comes the result of what follows. -/
theorem outcome_check_bind_eq_ok_iff {check : Run Unit} {next : Run β} {b : β} :
    (check >>= fun _ => next).outcome = .ok b ↔ check.outcome = .ok () ∧ next.outcome = .ok b := by
  rw [outcome_bind_eq_ok_iff]
  constructor
  · rintro ⟨_, checked, rest⟩
    exact ⟨checked, rest⟩
  · rintro ⟨checked, rest⟩
    exact ⟨(), checked, rest⟩

/-- An operation that may refuse yields exactly its result. -/
@[simp] theorem outcome_ofResult_eq_ok_iff {result : Except PoolError α} {a : α} :
    (ofResult result).outcome = .ok a ↔ result = .ok a := Fault.ofRefusal_eq_ok_iff

/-- An operation that may refuse ends in exactly its refusal. -/
@[simp] theorem outcome_ofResult_eq_rejected_iff {result : Except PoolError α} {e : PoolError} :
    (ofResult result).outcome = .error (.rejected e) ↔ result = .error e := by
  cases result <;> simp [ofResult, Fault.ofRefusal]

/-- A sequence ends in a fault exactly when one of its parts does. -/
theorem outcome_bind_eq_error_iff {first : Run α} {next : α → Run β} {fault : Fault} :
    (first >>= next).outcome = .error fault ↔
      first.outcome = .error fault ∨
        ∃ a, first.outcome = .ok a ∧ (next a).outcome = .error fault := by
  rw [outcome_bind]
  cases first.outcome with
  | error fault => simp [Except.bind]
  | ok a => simp [Except.bind]

/-- After a result the events of the next computation follow. -/
theorem events_bind_ok {first : Run α} {a : α} (h : first.outcome = .ok a) (next : α → Run β) :
    (first >>= next).events = first.events ++ (next a).events := by
  obtain ⟨events, outcome⟩ := first
  cases h
  rfl

end Run

end RegionPooling
