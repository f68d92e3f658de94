import RegionPooling.Error

/-!
# Checked sizes and checked access

Products of sizes, and reads and writes of flat storage. Every product says by its result whether it
is a size word, and every access whether it stayed inside, so that the passes over maps and winners
can be shown never to leave their storage. Specification §10.4 rules such faults out for defects of
the caller's inputs.
-/

namespace RegionPooling

/-- Outcomes are compared by what they hold. -/
instance outcomeDecidableEq {ε α : Type} [DecidableEq ε] [DecidableEq α] :
    DecidableEq (Except ε α)
  | .ok a, .ok b => decidable_of_iff (a = b) (by simp)
  | .error e, .error d => decidable_of_iff (e = d) (by simp)
  | .ok _, .error _ => isFalse nofun
  | .error _, .ok _ => isFalse nofun

/-- Product of sizes; one that is no size word is a fault. -/
def times (m n : Nat) : Except Fault Nat :=
  if m * n < wordSize then .ok (m * n) else .error .overflow

/-- Product of a list of sizes, formed from left to right. -/
def product (sizes : List Nat) : Except Fault Nat := sizes.foldlM times 1

/-- A product is formed exactly if it is a size word. -/
@[simp] theorem times_eq_ok_iff {m n k : Nat} :
    times m n = .ok k ↔ m * n < wordSize ∧ m * n = k := by
  unfold times
  split
  · next h => simp [h]
  · next h => simp [h]

/-- A product that is no size word is a fault. -/
@[simp] theorem times_eq_error_iff {m n : Nat} {fault : Fault} :
    times m n = .error fault ↔ wordSize ≤ m * n ∧ fault = .overflow := by
  unfold times
  split
  · next h => simp [Nat.not_le.2 h]
  · next h => simp [Nat.not_lt.1 h, eq_comm]

variable {α : Type}

/-- Element at a position; outside the storage it is a fault. -/
def fetch (xs : Array α) (i : Nat) : Except Fault α :=
  match xs[i]? with
  | some x => .ok x
  | none => .error .outOfBounds

/-- Run of elements; reaching outside the storage is a fault. -/
def slice (xs : Array α) (start length : Nat) : Except Fault (Array α) :=
  if start + length ≤ xs.size then .ok (xs.extract start (start + length))
  else .error .outOfBounds

/-- A read succeeds with exactly the element at its position. -/
@[simp] theorem fetch_eq_ok_iff {xs : Array α} {i : Nat} {x : α} :
    fetch xs i = .ok x ↔ xs[i]? = some x := by
  simp only [fetch]
  split <;> simp_all

/-- A position inside the storage is read. -/
theorem fetch_of_lt {xs : Array α} {i : Nat} (h : i < xs.size) :
    fetch xs i = .ok xs[i] := by
  rw [fetch_eq_ok_iff, Array.getElem?_eq_getElem h]

/-- A run inside the storage is read. -/
theorem slice_of_le {xs : Array α} {start length : Nat} (h : start + length ≤ xs.size) :
    slice xs start length = .ok (xs.extract start (start + length)) := if_pos h

/-- If every step succeeds, a list of steps yields the list of their results. -/
theorem mapM_eq_ok {β γ : Type} {l : List β} {step : β → Except Fault γ} {result : β → γ}
    (each : ∀ b ∈ l, step b = .ok (result b)) : l.mapM step = .ok (l.map result) := by
  induction l with
  | nil => rfl
  | cons b l ih =>
    rw [List.mapM_cons, each b (List.mem_cons_self ..),
      ih fun c mem => each c (List.mem_cons_of_mem _ mem)]
    rfl

/-- Storage with one element replaced; outside the storage it is a fault. -/
def adjust (xs : Array α) (i : Nat) (change : α → α) : Except Fault (Array α) :=
  if h : i < xs.size then .ok (xs.set i (change xs[i]))
  else .error .outOfBounds

/-- A position inside the storage is changed and no other. -/
theorem adjust_of_lt {xs : Array α} {i : Nat} (change : α → α) (h : i < xs.size) :
    adjust xs i change = .ok (xs.set i (change xs[i])) := dif_pos h

end RegionPooling
