import RegionPooling.Pooling.Bins
import RegionPooling.Proofs.Pooling.Sizes

/-!
# Strict arithmetic and strict access

The passes of the library are also written as loops over flat storage in which nothing is taken for
granted: every sum and product of sizes must be a size word, every position must lie in the stretch
of storage that it is taken from, and every clamp must have its bounds in order. Here are the steps
of these loops, when each of them succeeds, and how loops in loops become one loop.
-/

namespace RegionPooling

/-- Ways in which a strict pass breaks off. -/
inductive Breach where
  /-- A sum or a product of sizes is no size word. -/
  | overflow
  /-- A position or a stretch reaches outside the storage that it is taken from. -/
  | outside
  /-- A clamp has its bounds in the wrong order. -/
  | reversed
  /-- A table has no configuration although it was accepted. -/
  | unpopulated
  /-- The inputs or the result are refused. -/
  | refused (error : PoolError)
  deriving DecidableEq

namespace Breach

variable {α β σ : Type}

/-- An outcome as a strict one. -/
def ofFault : Except Fault α → Except Breach α
  | .ok a => .ok a
  | .error (.rejected e) => .error (.refused e)
  | .error .outOfBounds => .error .outside
  | .error .overflow => .error .overflow

/-- A result or a refusal as a strict outcome. -/
def ofRefusal (result : Except PoolError α) : Except Breach α := ofFault (Fault.ofRefusal result)

end Breach

section

variable {ε σ β γ : Type}

/-- Loops with the same steps are the same. -/
theorem foldlM_congr {l : List β} {f g : σ → β → Except ε σ} (h : ∀ b ∈ l, ∀ s, f s b = g s b)
    (s : σ) : l.foldlM f s = l.foldlM g s := by
  induction l generalizing s with
  | nil => rfl
  | cons b l ih =>
    rw [List.foldlM_cons, List.foldlM_cons, h b List.mem_cons_self]
    congr 1
    funext s
    exact ih (fun c hc ↦ h c (List.mem_cons_of_mem _ hc)) s

/-- A loop over blocks in a row is a loop of loops. -/
theorem foldlM_flatMap {l : List β} {g : β → List γ} {step : σ → γ → Except ε σ} (s : σ) :
    (l.flatMap g).foldlM step s = l.foldlM (fun s b ↦ (g b).foldlM step s) s := by
  induction l generalizing s with
  | nil => rfl
  | cons b l ih =>
    rw [List.flatMap_cons, List.foldlM_append, List.foldlM_cons]
    congr 1
    funext s
    exact ih s

end

namespace Strict

/-- A size that must be a size word. -/
def word (n : ℕ) : Except Breach ℕ := if n < wordSize then .ok n else .error .overflow

/-- Sum of sizes. -/
def plus (m n : ℕ) : Except Breach ℕ := word (m + n)

/-- Product of sizes. -/
def times (m n : ℕ) : Except Breach ℕ := Breach.ofFault (RegionPooling.times m n)

/-- Product of a list of sizes, formed from left to right. -/
def product (sizes : List ℕ) : Except Breach ℕ := Breach.ofFault (RegionPooling.product sizes)

/-- First position of one of the blocks that each entry has one of for every channel. -/
def blockStart (channels size entry channel : ℕ) : Except Breach ℕ := do
  let before ← times entry channels
  let block ← plus before channel
  times block size

/-- A size word read as a signed word. -/
def signed (n : ℕ) : ℤ := if n ≤ storageLimit then n else (n : ℤ) - wordSize

/-- Grid coordinate clamped between zero and a limit. -/
def clamp (limit : ℕ) (v : ℤ) : Except Breach ℕ :=
  if 0 ≤ signed limit then .ok (max 0 (min v (signed limit))).toNat else .error .reversed

/-- A sum that fits into storage is formed. -/
theorem plus_eq_ok {m n : ℕ} (h : m + n ≤ storageLimit) : plus m n = .ok (m + n) :=
  if_pos (lt_of_le_of_lt h (by decide))

/-- A product that fits into storage is formed. -/
theorem times_eq_ok {m n : ℕ} (h : m * n ≤ storageLimit) : times m n = .ok (m * n) :=
  congrArg Breach.ofFault (RegionPooling.times_eq_ok h)

/-- The blocks of entries that fit into storage together have their first positions. -/
theorem blockStart_eq_ok {n channels size entry channel : ℕ}
    (hblocks : n * channels ≤ storageLimit) (hall : n * (channels * size) ≤ storageLimit)
    (hentry : entry < n) (hchannel : channel < channels) :
    blockStart channels size entry channel = .ok ((entry * channels + channel) * size) := by
  have hblock := blockPlace_lt hentry hchannel
  have hstart : (entry * channels + channel) * size + size ≤ n * (channels * size) :=
    blockRange_le hentry hchannel
  unfold blockStart
  simp (disch := omega) [times_eq_ok, plus_eq_ok]

end Strict

/-- Consecutive positions of flat storage. -/
structure Stretch where
  start : ℕ
  length : ℕ
  deriving DecidableEq

namespace Stretch

variable {α : Type}

/-- Stretch inside a stretch. -/
def part (s : Stretch) (start length : ℕ) : Except Breach Stretch := do
  let stop ← Strict.plus start length
  if stop ≤ s.length then .ok ⟨s.start + start, length⟩ else .error .outside

/-- Element at a position of a stretch. -/
def read (s : Stretch) (xs : Array α) (i : ℕ) : Except Breach α :=
  if i < s.length then Breach.ofFault (fetch xs (s.start + i)) else .error .outside

/-- Storage with the element at a position of a stretch replaced. -/
def modify (s : Stretch) (xs : Array α) (i : ℕ) (change : α → α) : Except Breach (Array α) :=
  if i < s.length then Breach.ofFault (adjust xs (s.start + i) change) else .error .outside

/-- A position of a stretch is read like the place it stands for. -/
theorem read_of_lt {s : Stretch} {i : ℕ} (h : i < s.length) (xs : Array α) :
    s.read xs i = Breach.ofFault (fetch xs (s.start + i)) := if_pos h

end Stretch

/-- Planes of a map that fits into storage have their first positions. -/
theorem MapDims.blockStart_eq_ok {d : MapDims} (hfits : d.shape.occupied ≤ storageLimit)
    {batch channel : ℕ} (hb : batch < d.batch) (hc : channel < d.channels) :
    Strict.blockStart d.channels d.plane batch channel = .ok (d.planeStart batch channel) := by
  obtain ⟨hplanes, -, -, hall⟩ := Shape.products_le hfits
  exact Strict.blockStart_eq_ok hplanes hall hb hc

namespace PooledDims

variable {d : PooledDims} {index channel : ℕ}

/-- Place of the first bin of a channel of a region. -/
def blockStart (d : PooledDims) (index channel : ℕ) : ℕ :=
  (index * d.channels + channel) * (d.height * d.width)

/-- The bins of a channel of a result that fits into storage are counted. -/
theorem times_eq_ok (hfits : d.shape.occupied ≤ storageLimit) :
    Strict.times d.height d.width = .ok (d.height * d.width) :=
  Strict.times_eq_ok (Shape.products_le hfits).2.1

/-- Channels of a result that fits into storage have their first places. -/
theorem blockStart_eq_ok (hfits : d.shape.occupied ≤ storageLimit) (hi : index < d.regions)
    (hc : channel < d.channels) :
    Strict.blockStart d.channels (d.height * d.width) index channel =
      .ok (d.blockStart index channel) := by
  obtain ⟨hpairs, -, -, hall⟩ := Shape.products_le hfits
  exact Strict.blockStart_eq_ok hpairs hall hi hc

end PooledDims

end RegionPooling
