import Mathlib.Data.List.Basic

/-!
# Runs of a transition function

A run from a state is a list of actions, applied one after another. `Along` says that a condition on
the state and the action holds **at every step** of a run; the invariant rule turns what one step
keeps, under that condition, into what a whole run keeps. Where a state has a list of threads, a step
of one of them replaces an element.
-/

namespace Runs

variable {σ α : Type*} (step : σ → α → σ)

/-- The condition `Q` holds at every step of the run of `l` from `s`. -/
def Along (Q : σ → α → Prop) : σ → List α → Prop
  | _, [] => True
  | s, a :: l => Q s a ∧ Along Q (step s a) l

instance decidableAlong {Q : σ → α → Prop} [∀ s a, Decidable (Q s a)] :
    (s : σ) → (l : List α) → Decidable (Along step Q s l)
  | _, [] => .isTrue trivial
  | s, a :: l => @instDecidableAnd _ _ inferInstance (decidableAlong (step s a) l)

variable {step} {Q R : σ → α → Prop} {s : σ} {l l' : List α}

namespace Along

theorem of_forall (h : ∀ s a, Q s a) (s : σ) (l : List α) : Along step Q s l := by
  induction l generalizing s with
  | nil => trivial
  | cons a l ih => exact ⟨h s a, ih (step s a)⟩

/-- A condition on the actions alone. -/
theorem of_forall_mem (h : ∀ a ∈ l, ∀ s, Q s a) (s : σ) : Along step Q s l := by
  induction l generalizing s with
  | nil => trivial
  | cons a l ih =>
    exact ⟨h a List.mem_cons_self s, ih (fun b hb ↦ h b (List.mem_cons_of_mem a hb)) (step s a)⟩

/-- What every step keeps under the condition, the run keeps. -/
theorem invariant {I : σ → Prop} (hI : ∀ s a, Q s a → I s → I (step s a))
    (hl : Along step Q s l) (hs : I s) : I (l.foldl step s) := by
  induction l generalizing s with
  | nil => exact hs
  | cons a l ih => exact ih hl.2 (hI s a hl.1 hs)

/-- What every step shows under the condition and the invariant, it shows all along the run. -/
theorem of_invariant {I : σ → Prop} (hI : ∀ s a, Q s a → I s → I (step s a))
    (hR : ∀ s a, Q s a → I s → R s a) (hl : Along step Q s l) (hs : I s) : Along step R s l := by
  induction l generalizing s with
  | nil => trivial
  | cons a l ih => exact ⟨hR s a hl.1 hs, ih hl.2 (hI s a hl.1 hs)⟩

end Along

/-- An invariant of every step holds after every run. -/
theorem invariant {I : σ → Prop} (hI : ∀ s a, I s → I (step s a)) (hs : I s) (l : List α) :
    I (l.foldl step s) := by
  induction l generalizing s with
  | nil => exact hs
  | cons a l ih => exact ih (hI s a hs)

/-- One thread moves on, and is counted in its new state. -/
theorem countP_set {p : α → Bool} {j : ℕ} {a : α} (h : l[j]? = some a) (b : α) :
    (l.set j b).countP p + (if p a then 1 else 0) = l.countP p + if p b then 1 else 0 := by
  obtain ⟨hj, rfl⟩ := List.getElem?_eq_some_iff.1 h
  have hle := List.boole_getElem_le_countP (p := p) hj
  rw [List.countP_set hj]
  omega

end Runs
