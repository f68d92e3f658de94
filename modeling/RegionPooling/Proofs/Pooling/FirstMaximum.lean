import Mathlib.Data.List.Basic
import RegionPooling.Pooling.Maximum
import RegionPooling.Proofs.Numeric.Order

/-!
# The first maximum of a bin

What pooling a bin must give, said without the scan that computes it: a bin without cells gives
zero, a bin that holds no number gives not-a-number, and every other bin gives its first largest
number. Main statement: `pooledBin`, the scan of a bin whose cells can all be read, gives exactly
this. Specification §4.2, steps 5 and 6.
-/

namespace RegionPooling

/-- Result of a bin from the outcome of its scan. -/
def BinResult.ofBest {α : Type} : Option (Sample α) → BinResult α
  | some best => .won best.offset best.value
  | none => .undefined

section

variable {α : Type} [Scalar α]

/-- Result of a bin of a plane that can be read everywhere. -/
def pooledBin (plane : ℕ → α) (width : ℕ) (extent : BinExtent) : BinResult α :=
  if extent.isEmpty then .vacant
  else .ofBest ((extent.offsets width).foldl (fun best k ↦ better best ⟨k, plane k⟩) none)

/-- The result of a bin depends on the cells that it covers alone. -/
theorem pooledBin_congr {plane other : ℕ → α} {width : ℕ} {extent : BinExtent}
    (h : ∀ k ∈ extent.offsets width, plane k = other k) :
    pooledBin plane width extent = pooledBin other width extent := by
  unfold pooledBin
  split
  · rfl
  · congr 1
    apply List.foldl_ext
    intro best k hk
    rw [h k hk]

/-- Pooling a bin inside its plane never fails. -/
theorem poolBin_eq_ok {data : Array α} {width : ℕ} {extent : BinExtent} {plane : ℕ → α}
    (h : ∀ k ∈ extent.offsets width, data[k]? = some (plane k)) :
    poolBin data width extent = .ok (pooledBin plane width extent) := by
  unfold poolBin pooledBin
  split
  · rfl
  · rw [firstMax_eq_ok h]
    cases (extent.offsets width).foldl (fun best k ↦ better best ⟨k, plane k⟩) none <;> rfl

private theorem better_eq_some {best : Option (Sample α)} {next result : Sample α}
    (h : better best next = some result) : best = some result ∨ next = result := by
  unfold better at h
  cases best with
  | none =>
    dsimp only at h
    split at h
    · cases h
    · exact .inr (Option.some.inj h)
  | some current =>
    dsimp only at h
    split at h
    · exact .inr (Option.some.inj h)
    · exact .inl h

private theorem mem_of_foldl_better {plane : ℕ → α} {cells : List ℕ} {best : Option (Sample α)}
    {result : Sample α}
    (h : cells.foldl (fun best k ↦ better best ⟨k, plane k⟩) best = some result) :
    best = some result ∨ result.offset ∈ cells := by
  induction cells generalizing best with
  | nil => exact .inl h
  | cons k cells ih =>
    rw [List.foldl_cons] at h
    rcases ih h with hstart | hmem
    · rcases better_eq_some hstart with hbest | rfl
      · exact .inl hbest
      · exact .inr List.mem_cons_self
    · exact .inr (List.mem_cons_of_mem _ hmem)

/-- The winner of a bin is one of its cells. -/
theorem mem_offsets_of_winner_pooledBin {plane : ℕ → α} {width k : ℕ} {extent : BinExtent}
    (h : (pooledBin plane width extent).winner = some k) : k ∈ extent.offsets width := by
  unfold pooledBin at h
  split at h
  · cases h
  · cases hscan : (extent.offsets width).foldl (fun best k ↦ better best ⟨k, plane k⟩) none with
    | none =>
      rw [hscan] at h
      cases h
    | some best =>
      rw [hscan] at h
      obtain rfl : best.offset = k := Option.some.inj h
      rcases mem_of_foldl_better hscan with hnone | hmem
      · cases hnone
      · exact hmem

end

/-- An extent is empty exactly if it has no positions. -/
theorem BinExtent.offsets_eq_nil_iff {e : BinExtent} {width : ℕ} :
    e.offsets width = [] ↔ e.isEmpty = true := by
  simp only [offsets, isEmpty, List.flatMap_eq_nil_iff, List.map_eq_nil_iff, Bool.or_eq_true,
    Span.toList_eq_nil_iff]
  constructor
  · intro h
    by_cases hr : e.rows.toList = []
    · exact .inl (Span.toList_eq_nil_iff.1 hr)
    · obtain ⟨row, hrow⟩ := List.exists_mem_of_ne_nil _ hr
      exact .inr (h row hrow)
  · rintro (h | h)
    · rw [Span.toList_eq_nil_iff.2 h]
      simp
    · exact fun _ _ ↦ h

/-- The covered positions are listed in ascending order, on a map that the columns lie in. -/
theorem BinExtent.pairwise_offsets {e : BinExtent} {width : ℕ} (h : e.columns.stop ≤ width) :
    (e.offsets width).Pairwise (· < ·) := by
  rw [offsets, List.pairwise_flatMap]
  constructor
  · intro row _
    rw [List.pairwise_map]
    apply List.Pairwise.imp _ List.pairwise_lt_range'
    intro i j hij
    omega
  · apply List.Pairwise.imp _ List.pairwise_lt_range'
    intro i j hij x hx y hy
    obtain ⟨c, hc, rfl⟩ := List.mem_map.1 hx
    obtain ⟨c', -, rfl⟩ := List.mem_map.1 hy
    have hcw : c < width := lt_of_lt_of_le (Span.mem_toList.1 hc).2 h
    calc i * width + c
      _ < i * width + width := by omega
      _ = (i + 1) * width := by rw [Nat.add_mul, Nat.one_mul]
      _ ≤ j * width := Nat.mul_le_mul_right _ hij
      _ ≤ j * width + c' := Nat.le_add_right _ _

variable {f : Format}

/-- A cell holds the first largest number among ascending cells of a plane. -/
structure IsFirstMaximum (plane : ℕ → Binary f) (cells : List ℕ) (i : ℕ) : Prop where
  mem : i ∈ cells
  number : (plane i).isNaN = false
  largest : ∀ k ∈ cells, (plane k).isNaN = false →
    (plane k).lt (plane i) = true ∨ (plane k).numEq (plane i) = true
  first : ∀ k ∈ cells, (plane k).isNaN = false → k < i → (plane k).lt (plane i) = true

/-- A first maximum is a cell of greatest rank, and all cells before it have a lower one. -/
theorem isFirstMaximum_iff_rank {plane : ℕ → Binary f} {cells : List ℕ} {i : ℕ} :
    IsFirstMaximum plane cells i ↔ i ∈ cells ∧ (plane i).isNaN = false ∧
      ∀ k ∈ cells, (plane k).isNaN = false →
        (plane k).rank ≤ (plane i).rank ∧ (k < i → (plane k).rank < (plane i).rank) := by
  constructor
  · rintro ⟨hmem, hin, hlargest, hfirst⟩
    refine ⟨hmem, hin, fun k hk hkn ↦ ?_⟩
    have hle := hlargest k hk hkn
    have hlt := hfirst k hk hkn
    rw [Binary.lt_iff_rank_lt hkn hin] at hle hlt
    rw [Binary.numEq_iff_rank_eq hkn hin] at hle
    exact ⟨le_iff_lt_or_eq.2 hle, hlt⟩
  · rintro ⟨hmem, hin, hall⟩
    refine ⟨hmem, hin, fun k hk hkn ↦ ?_, fun k hk hkn ↦ ?_⟩
    · rw [Binary.lt_iff_rank_lt hkn hin, Binary.numEq_iff_rank_eq hkn hin]
      exact le_iff_lt_or_eq.1 (hall k hk hkn).1
    · rw [Binary.lt_iff_rank_lt hkn hin]
      exact (hall k hk hkn).2

/-- There is at most one first maximum. -/
theorem IsFirstMaximum.unique {plane : ℕ → Binary f} {cells : List ℕ} {i j : ℕ}
    (hi : IsFirstMaximum plane cells i) (hj : IsFirstMaximum plane cells j) : i = j := by
  have hle {k l : ℕ} (hk : IsFirstMaximum plane cells k) (hl : IsFirstMaximum plane cells l) :
      ¬ k < l := by
    intro hkl
    have hlt := (Binary.lt_iff_rank_lt hk.number hl.number).1 (hl.first k hk.mem hk.number hkl)
    rcases hk.largest l hl.mem hl.number with h | h
    · exact lt_asymm hlt ((Binary.lt_iff_rank_lt hl.number hk.number).1 h)
    · exact hlt.ne' ((Binary.numEq_iff_rank_eq hl.number hk.number).1 h)
  have := hle hi hj
  have := hle hj hi
  omega

private theorem isFirstMaximum_append {plane : ℕ → Binary f} {cells : List ℕ} {next : ℕ}
    (hnum : (plane next).isNaN = false)
    (hall : ∀ k ∈ cells, (plane k).isNaN = false → (plane k).lt (plane next) = true) :
    IsFirstMaximum plane (cells ++ [next]) next := by
  refine ⟨by simp, hnum, ?_, ?_⟩
  · intro k hk hkn
    rcases List.mem_append.1 hk with hk | hk
    · exact .inl (hall k hk hkn)
    · rw [List.mem_singleton.1 hk]
      exact .inr ((Binary.numEq_iff_rank_eq hnum hnum).2 rfl)
  · intro k hk hkn hlt
    rcases List.mem_append.1 hk with hk | hk
    · exact hall k hk hkn
    · rw [List.mem_singleton.1 hk] at hlt
      exact (lt_irrefl _ hlt).elim

/-- A later element that does not exceed the first maximum leaves it in place. -/
theorem IsFirstMaximum.append {plane : ℕ → Binary f} {cells : List ℕ} {i next : ℕ}
    (h : IsFirstMaximum plane cells i) (hlt : ¬ (plane i).lt (plane next) = true)
    (hnext : i < next) : IsFirstMaximum plane (cells ++ [next]) i := by
  refine ⟨List.mem_append_left _ h.mem, h.number, ?_, ?_⟩
  · intro k hk hkn
    rcases List.mem_append.1 hk with hk | hk
    · exact h.largest k hk hkn
    · rw [List.mem_singleton.1 hk] at hkn ⊢
      rw [Binary.lt_iff_rank_lt h.number hkn, not_lt] at hlt
      rw [Binary.lt_iff_rank_lt hkn h.number, Binary.numEq_iff_rank_eq hkn h.number]
      exact lt_or_eq_of_le hlt
  · intro k hk hkn hki
    rcases List.mem_append.1 hk with hk | hk
    · exact h.first k hk hkn hki
    · rw [List.mem_singleton.1 hk] at hki
      exact (lt_asymm hki hnext).elim

private theorem IsFirstMaximum.lt_of_lt {plane : ℕ → Binary f} {cells : List ℕ} {i k : ℕ}
    {x : Binary f} (h : IsFirstMaximum plane cells i) (hx : (plane i).lt x = true) (hk : k ∈ cells)
    (hkn : (plane k).isNaN = false) : x.isNaN = false ∧ (plane k).lt x = true := by
  have hxn := (Binary.isNaN_eq_false_of_lt hx).2
  refine ⟨hxn, ?_⟩
  rw [Binary.lt_iff_rank_lt h.number hxn] at hx
  rw [Binary.lt_iff_rank_lt hkn hxn]
  rcases h.largest k hk hkn with hlt | heq
  · exact lt_trans ((Binary.lt_iff_rank_lt hkn h.number).1 hlt) hx
  · rw [(Binary.numEq_iff_rank_eq hkn h.number).1 heq]
    exact hx

/-- Value and winner that a bin with the given cells must have. -/
inductive IsPooled (plane : ℕ → Binary f) (cells : List ℕ) : Binary f → Option ℕ → Prop where
  /-- Without cells the value is positive zero. -/
  | vacant (empty : cells = []) : IsPooled plane cells .zero none
  /-- Without a number among the cells the value is not a number. -/
  | undefined (inhabited : cells ≠ []) (noNumber : ∀ k ∈ cells, (plane k).isNaN = true) :
    IsPooled plane cells .nan none
  /-- Otherwise the only first maximum wins. -/
  | won (i : ℕ) (best : IsFirstMaximum plane cells i)
    (unique : ∀ j, IsFirstMaximum plane cells j → j = i) : IsPooled plane cells (plane i) (some i)

/-- A first maximum is what is pooled. -/
theorem IsPooled.eq_of_isFirstMaximum {plane : ℕ → Binary f} {cells : List ℕ} {i : ℕ}
    {value : Binary f} {winner : Option ℕ} (h : IsPooled plane cells value winner)
    (hi : IsFirstMaximum plane cells i) : value = plane i ∧ winner = some i := by
  cases h with
  | vacant hnil =>
    rw [hnil] at hi
    exact absurd hi.mem List.not_mem_nil
  | undefined _ hnan =>
    have hin := hnan i hi.mem
    rw [hi.number] at hin
    cases hin
  | won j hj _ =>
    rw [hj.unique hi]
    exact ⟨rfl, rfl⟩

/-- Cells with a number among them have a first maximum. -/
theorem IsPooled.exists_isFirstMaximum {plane : ℕ → Binary f} {cells : List ℕ} {i : ℕ}
    {value : Binary f} {winner : Option ℕ} (h : IsPooled plane cells value winner)
    (hi : i ∈ cells) (hin : (plane i).isNaN = false) : ∃ j, IsFirstMaximum plane cells j := by
  cases h with
  | vacant hnil =>
    rw [hnil] at hi
    exact absurd hi List.not_mem_nil
  | undefined _ hnan =>
    rw [hnan i hi] at hin
    cases hin
  | won j hj _ => exact ⟨j, hj⟩

/-- Value and winner of a bin are determined by its elements. -/
theorem IsPooled.unique {plane : ℕ → Binary f} {cells : List ℕ} {value value' : Binary f}
    {winner winner' : Option ℕ} (h : IsPooled plane cells value winner)
    (h' : IsPooled plane cells value' winner') : value' = value ∧ winner' = winner := by
  cases h with
  | won j hj _ => exact h'.eq_of_isFirstMaximum hj
  | vacant hnil =>
    cases h' with
    | vacant => exact ⟨rfl, rfl⟩
    | undefined hcells _ => exact absurd hnil hcells
    | won j hj _ =>
      rw [hnil] at hj
      exact absurd hj.mem List.not_mem_nil
  | undefined hcells hnan =>
    cases h' with
    | vacant hnil => exact absurd hnil hcells
    | undefined => exact ⟨rfl, rfl⟩
    | won j hj _ =>
      have hnumber := hj.number
      simp [hnan j hj.mem] at hnumber

/-- What the running best of a scan says about the cells scanned so far. -/
def IsBest (plane : ℕ → Binary f) (cells : List ℕ) : Option (Sample (Binary f)) → Prop
  | none => ∀ k ∈ cells, (plane k).isNaN = true
  | some best => best.value = plane best.offset ∧ IsFirstMaximum plane cells best.offset

/-- One more cell keeps the running best right. -/
theorem IsBest.better {plane : ℕ → Binary f} {cells : List ℕ} {next : ℕ}
    {best : Option (Sample (Binary f))} (h : IsBest plane cells best)
    (hnext : ∀ k ∈ cells, k < next) :
    IsBest plane (cells ++ [next]) (RegionPooling.better best ⟨next, plane next⟩) := by
  cases best with
  | none =>
    show IsBest plane _ (if (plane next).isNaN = true then none else _)
    split
    · next hn =>
      intro k hk
      rcases List.mem_append.1 hk with hk | hk
      · exact h k hk
      · rw [List.mem_singleton.1 hk]
        exact hn
    · next hn =>
      refine ⟨rfl, isFirstMaximum_append (Bool.eq_false_iff.2 hn) ?_⟩
      intro k hk hkn
      rw [h k hk] at hkn
      cases hkn
  | some best =>
    obtain ⟨hvalue, hbest⟩ := h
    show IsBest plane _ (if best.value.lt (plane next) = true then _ else _)
    rw [hvalue]
    split
    · next hlt =>
      have hn := (hbest.lt_of_lt hlt hbest.mem hbest.number).1
      exact ⟨rfl, isFirstMaximum_append hn fun k hk hkn ↦ (hbest.lt_of_lt hlt hk hkn).2⟩
    · next hlt => exact ⟨hvalue, hbest.append hlt (hnext _ hbest.mem)⟩

/-- A scan in ascending order ends with the best of all cells. -/
theorem isBest_foldl {plane : ℕ → Binary f} {cells : List ℕ} (hs : cells.Pairwise (· < ·)) :
    IsBest plane cells (cells.foldl (fun best k ↦ better best ⟨k, plane k⟩) none) := by
  suffices run : ∀ scanned best, IsBest plane scanned best →
      (scanned ++ cells).Pairwise (· < ·) →
      IsBest plane (scanned ++ cells) (cells.foldl (fun best k ↦ better best ⟨k, plane k⟩) best) by
    exact run [] none (fun _ hk ↦ (List.not_mem_nil hk).elim) hs
  clear hs
  induction cells with
  | nil =>
    intro scanned best hb _
    rw [List.append_nil]
    exact hb
  | cons k cells ih =>
    intro scanned best hb hs
    have hk : ∀ j ∈ scanned, j < k := fun j hj ↦
      (List.pairwise_append.1 hs).2.2 j hj k List.mem_cons_self
    have hcons : scanned ++ k :: cells = scanned ++ [k] ++ cells := by simp
    rw [hcons] at hs ⊢
    exact ih (scanned ++ [k]) _ (hb.better hk) hs

/-- The scan of a bin gives its value and its winner. -/
theorem isPooled_pooledBin (plane : ℕ → Binary f) {width : ℕ} {e : BinExtent}
    (h : e.columns.stop ≤ width) :
    IsPooled plane (e.offsets width) (pooledBin plane width e).value
      (pooledBin plane width e).winner := by
  unfold pooledBin
  split
  · next hempty => exact .vacant (BinExtent.offsets_eq_nil_iff.2 hempty)
  · next hempty =>
    have hbest : IsBest plane (e.offsets width) _ :=
      isBest_foldl (BinExtent.pairwise_offsets h)
    cases hscan : (e.offsets width).foldl (fun best k ↦ better best ⟨k, plane k⟩) none with
    | none =>
      rw [hscan] at hbest
      exact .undefined (fun hnil ↦ hempty (BinExtent.offsets_eq_nil_iff.1 hnil)) hbest
    | some best =>
      rw [hscan] at hbest
      obtain ⟨hvalue, hfirst⟩ := hbest
      show IsPooled plane _ best.value (some best.offset)
      rw [hvalue]
      exact .won best.offset hfirst fun j hj ↦ hj.unique hfirst

end RegionPooling
