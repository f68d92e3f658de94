import Mathlib.Data.List.Forall2

/-!
# Lists of steps that may fail

A list of steps is taken in order and ends at the first one that fails. Main statements: it succeeds
exactly with the results of its steps, and it fails exactly with the failure of a step that has only
successful ones before it.
-/

namespace RegionPooling

variable {ε β γ : Type} {step : β → Except ε γ} {l : List β}

/-- After a step that succeeds comes the next one. -/
@[simp] theorem ok_bind (b : β) (next : β → Except ε γ) : (Except.ok b >>= next) = next b := rfl

/-- After a step that fails comes none. -/
@[simp] theorem error_bind (e : ε) (next : β → Except ε γ) :
    (Except.error e >>= next) = Except.error e := rfl

/-- A sequence succeeds exactly if both parts do. -/
theorem bind_eq_ok_iff {first : Except ε β} {next : β → Except ε γ} {c : γ} :
    (first >>= next) = .ok c ↔ ∃ b, first = .ok b ∧ next b = .ok c := by
  cases first <;> simp

/-- A sequence fails exactly if one of its parts does. -/
theorem bind_eq_error_iff {first : Except ε β} {next : β → Except ε γ} {e : ε} :
    (first >>= next) = .error e ↔ first = .error e ∨ ∃ b, first = .ok b ∧ next b = .error e := by
  cases first <;> simp

/-- A list of steps succeeds with the results of the steps, in order. -/
theorem mapM_eq_ok_iff {results : List γ} :
    l.mapM step = .ok results ↔ List.Forall₂ (fun b c ↦ step b = .ok c) l results := by
  induction l generalizing results with
  | nil => simp [pure, Except.pure, eq_comm]
  | cons b l ih =>
    simp only [List.mapM_cons, bind_eq_ok_iff, ih, List.forall₂_cons_left_iff, pure, Except.pure,
      Except.ok.injEq]
    constructor
    · rintro ⟨c, hc, cs, hcs, rfl⟩
      exact ⟨c, cs, hc, hcs, rfl⟩
    · rintro ⟨c, cs, hc, hcs, rfl⟩
      exact ⟨c, hc, cs, hcs, rfl⟩

/-- A list of steps that all succeed has results. -/
theorem exists_mapM_eq_ok (h : ∀ b ∈ l, ∃ c, step b = .ok c) :
    ∃ results, l.mapM step = .ok results := by
  induction l with
  | nil => exact ⟨[], rfl⟩
  | cons b l ih =>
    obtain ⟨c, hc⟩ := h b List.mem_cons_self
    obtain ⟨cs, hcs⟩ := ih fun a ha ↦ h a (List.mem_cons_of_mem _ ha)
    exact ⟨c :: cs, mapM_eq_ok_iff.2 (.cons hc (mapM_eq_ok_iff.1 hcs))⟩

private theorem mapM_cons_eq_error_iff {b : β} {e : ε} :
    (b :: l).mapM step = .error e ↔
      step b = .error e ∨ (∃ c, step b = .ok c) ∧ l.mapM step = .error e := by
  simp [List.mapM_cons, bind_eq_error_iff, pure, Except.pure]

/-- A list of steps fails with the first failure: all steps before it succeed. -/
theorem mapM_eq_error_iff {e : ε} :
    l.mapM step = .error e ↔ ∃ i b, l[i]? = some b ∧ step b = .error e ∧
      ∀ a ∈ l.take i, ∃ c, step a = .ok c := by
  induction l with
  | nil => simp [pure, Except.pure]
  | cons b l ih =>
    rw [mapM_cons_eq_error_iff, ih]
    constructor
    · rintro (hb | ⟨hb, i, a, ha, hfail, hbefore⟩)
      · exact ⟨0, b, rfl, hb, by simp⟩
      · refine ⟨i + 1, a, ha, hfail, ?_⟩
        rw [List.take_succ_cons]
        exact List.forall_mem_cons.2 ⟨hb, hbefore⟩
    · rintro ⟨i, a, ha, hfail, hbefore⟩
      cases i with
      | zero =>
        obtain rfl := Option.some.inj ha
        exact .inl hfail
      | succ i =>
        rw [List.take_succ_cons] at hbefore
        obtain ⟨hb, hbefore⟩ := List.forall_mem_cons.1 hbefore
        exact .inr ⟨hb, i, a, ha, hfail, hbefore⟩

section Numbered

variable {n : ℕ} {step : ℕ → Except ε γ}

/-- Numbered steps succeed with a result for every number. -/
theorem mapM_range_eq_ok_iff {results : List γ} :
    (List.range n).mapM step = .ok results ↔
      results.length = n ∧ ∀ i (h : i < results.length), step i = .ok results[i] := by
  simp only [mapM_eq_ok_iff, List.forall₂_iff_get, List.get_eq_getElem, List.getElem_range,
    List.length_range]
  constructor
  · rintro ⟨hlength, heach⟩
    exact ⟨hlength.symm, fun i hi ↦ heach i (hlength ▸ hi) hi⟩
  · rintro ⟨hlength, heach⟩
    exact ⟨hlength.symm, fun i _ hi ↦ heach i hi⟩

/-- Numbered steps fail with the one of the least number that does. -/
theorem mapM_range_eq_error_iff {e : ε} :
    (List.range n).mapM step = .error e ↔
      ∃ i < n, step i = .error e ∧ ∀ j < i, ∃ c, step j = .ok c := by
  rw [mapM_eq_error_iff]
  constructor
  · rintro ⟨i, b, hb, hfail, hbefore⟩
    obtain ⟨hi, rfl⟩ := List.getElem?_eq_some_iff.1 hb
    rw [List.length_range] at hi
    rw [List.getElem_range] at hfail
    refine ⟨i, hi, hfail, fun j hj ↦ hbefore j ?_⟩
    rw [List.take_range, List.mem_range]
    omega
  · rintro ⟨i, hi, hfail, hbefore⟩
    refine ⟨i, i, List.getElem?_range hi, hfail, fun j hj ↦ hbefore j ?_⟩
    rw [List.take_range, List.mem_range] at hj
    omega

end Numbered

end RegionPooling
