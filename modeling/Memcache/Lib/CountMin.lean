import Mathlib.Data.Finset.Fold
import Mathlib.Data.Fintype.Defs
import Mathlib.Order.MinMax

/-!
# Count-min tables

A table of counters has several rows, and row `i` counts `h` in its column `col i h`. Hashes that
share a column share its counter, so a counter may say too much, and the **least** counter of `h` says
too much by the least. Under *conservative update* an increment raises only the counters of `h` that
stand at that least value; the others already allow for one more.

Counters stop at `cap`, and `age` halves all of them. `agedCount` is what a counter of `h` alone would
say after the same history. The estimate **never falls below it** (`agedCount_le_estimate`), whatever
the columns are and however they collide.
-/

namespace CountMin

/-- What a table is told. -/
inductive Op (H : Type*) where
  | increment (h : H)
  | age
deriving DecidableEq, Repr

variable {ι κ H : Type*} [Fintype ι] {cap n : ℕ} {col : ι → H → κ} {t : ι → κ → ℕ} {h h' : H}

/-- The least counter of `h`. -/
def estimate (cap : ℕ) (col : ι → H → κ) (t : ι → κ → ℕ) (h : H) : ℕ :=
  Finset.univ.fold min cap fun i ↦ t i (col i h)

/-- Halve every counter. -/
def age (t : ι → κ → ℕ) : ι → κ → ℕ :=
  fun i k ↦ t i k / 2

/-- The count of `h` on its own: it stops at `cap` and is halved with the table. -/
def agedCount [DecidableEq H] (cap : ℕ) (h : H) (n : ℕ) : Op H → ℕ
  | .increment h' => if h' = h then min (n + 1) cap else n
  | .age => n / 2

theorem le_estimate : n ≤ estimate cap col t h ↔ n ≤ cap ∧ ∀ i, n ≤ t i (col i h) := by
  rw [estimate, Finset.le_fold_min]
  simp

theorem estimate_le_cap : estimate cap col t h ≤ cap := (le_estimate.1 le_rfl).1

theorem estimate_le (i : ι) : estimate cap col t h ≤ t i (col i h) := (le_estimate.1 le_rfl).2 i

/-- A larger table has larger estimates. -/
theorem estimate_mono {t' : ι → κ → ℕ} (ht : ∀ i k, t i k ≤ t' i k) :
    estimate cap col t h ≤ estimate cap col t' h :=
  le_estimate.2 ⟨estimate_le_cap, fun i ↦ (estimate_le i).trans (ht i _)⟩

theorem half_le_estimate_age (hn : n ≤ estimate cap col t h) :
    n / 2 ≤ estimate cap col (age t) h :=
  le_estimate.2 ⟨(Nat.div_le_self n 2).trans (hn.trans estimate_le_cap),
    fun i ↦ Nat.div_le_div_right (hn.trans (estimate_le i))⟩

variable [DecidableEq κ]

/-- Conservative update. -/
def increment (cap : ℕ) (col : ι → H → κ) (t : ι → κ → ℕ) (h : H) : ι → κ → ℕ :=
  if cap ≤ estimate cap col t h then t
  else fun i k ↦
    if k = col i h ∧ t i k = estimate cap col t h then t i k + 1 else t i k

/-- The table after one more operation. -/
def step (cap : ℕ) (col : ι → H → κ) (t : ι → κ → ℕ) : Op H → ι → κ → ℕ
  | .increment h => increment cap col t h
  | .age => age t

/-- **Conservative update never lowers a counter.** -/
theorem le_increment (i : ι) (k : κ) : t i k ≤ increment cap col t h i k := by
  rw [increment]
  split
  · exact le_rfl
  · change t i k ≤ if k = col i h ∧ t i k = estimate cap col t h then t i k + 1 else t i k
    split
    · exact Nat.le_succ _
    · exact le_rfl

/-- **It allows for one more `h`**: a counter of `h` at the least value is raised, and every other one
of its counters was above that value already. -/
theorem succ_estimate_le_increment (hcap : estimate cap col t h < cap) (i : ι) :
    estimate cap col t h + 1 ≤ increment cap col t h i (col i h) := by
  rw [increment, if_neg (Nat.not_le.2 hcap)]
  have hle : estimate cap col t h ≤ t i (col i h) := estimate_le i
  by_cases heq : t i (col i h) = estimate cap col t h
  · rw [if_pos ⟨rfl, heq⟩, heq]
  · rw [if_neg fun hk ↦ heq hk.2]
    omega

theorem min_succ_le_estimate_increment (hn : n ≤ estimate cap col t h) :
    min (n + 1) cap ≤ estimate cap col (increment cap col t h) h := by
  rcases Nat.lt_or_ge (estimate cap col t h) cap with hcap | hcap
  · refine le_estimate.2 ⟨min_le_right _ _, fun i ↦ ?_⟩
    have hi := succ_estimate_le_increment hcap i
    exact (min_le_left _ _).trans ((Nat.succ_le_succ hn).trans hi)
  · -- the least counter is full, and the count of `h` alone cannot be fuller
    rw [increment, if_pos hcap]
    exact (min_le_right _ _).trans hcap

variable [DecidableEq H]

theorem agedCount_le_estimate_step (hn : n ≤ estimate cap col t h) (op : Op H) :
    agedCount cap h n op ≤ estimate cap col (step cap col t op) h := by
  cases op with
  | increment h' =>
    rw [agedCount, step]
    split_ifs with heq
    · exact heq ▸ min_succ_le_estimate_increment (heq ▸ hn)
    · exact hn.trans (estimate_mono le_increment)
  | age => exact half_le_estimate_age hn

/-- **An estimate is never below the aged count**, after any history. -/
theorem agedCount_le_estimate (hn : n ≤ estimate cap col t h) (ops : List (Op H)) :
    ops.foldl (agedCount cap h) n ≤ estimate cap col (ops.foldl (step cap col) t) h := by
  induction ops generalizing n t with
  | nil => exact hn
  | cons op ops ih => exact ih (agedCount_le_estimate_step hn op)

end CountMin
