import Mathlib.Algebra.BigOperators.Group.List.Basic

/-!
# Computations that read

A computation on a state that may fail, and **leaves a state in either case**: what a failed one has used
up is used up.

A state gives portions, elements of a monoid: the product of two is the one portion and then the other.
`Reads p m a` says that `p`, on any state that gives `m`, returns `a` and has then used `m` up; on a state
that starts with `m` and does not have the means to give it, `p` fails. It is the prefix law of a format:
nothing is said of what follows the portion, so a reader of a pair is a reader of the one part and then
of the other, and a reader of a list goes by the list.

`Keeps R Q p` says what holds between the states before and after: `R` when `p` returns, `Q` when it
fails.
-/

/-- A computation on states `σ` with errors `ε`. -/
def Reading (σ ε α : Type) := σ → Except ε α × σ

namespace Reading

variable {σ ε ε' α β : Type}

instance : Monad (Reading σ ε) where
  pure a := fun s ↦ (.ok a, s)
  bind p f := fun s ↦
    match p s with
    | (.ok a, s') => f a s'
    | (.error e, s') => (.error e, s')

def fail (e : ε) : Reading σ ε α := fun s ↦ (.error e, s)

def ofExcept (r : Except ε α) : Reading σ ε α := fun s ↦ (r, s)

/-- The errors reported with the state that they leave. -/
def mapError (g : σ → ε → ε') (p : Reading σ ε α) : Reading σ ε' α := fun s ↦
  match p s with
  | (.ok a, s') => (.ok a, s')
  | (.error e, s') => (.error (g s' e), s')

/-- One after another. -/
def times (p : Reading σ ε α) : ℕ → Reading σ ε (List α)
  | 0 => pure []
  | n + 1 => do
    let a ← p
    let as ← times p n
    pure (a :: as)

variable {p : Reading σ ε α} {f : α → Reading σ ε β} {s s' : σ} {a : α} {e : ε}

theorem bind_of_ok (h : p s = (.ok a, s')) : (p >>= f) s = f a s' := by
  show (match p s with | (.ok a, s') => f a s' | (.error e, s') => (.error e, s')) = _
  rw [h]

theorem bind_of_error (h : p s = (.error e, s')) : (p >>= f) s = (.error e, s') := by
  show (match p s with | (.ok a, s') => f a s' | (.error e, s') => (.error e, s')) = _
  rw [h]

theorem bind_eq_ok {b : β} {s'' : σ} :
    (p >>= f) s = (.ok b, s'') ↔ ∃ a s', p s = (.ok a, s') ∧ f a s' = (.ok b, s'') := by
  rcases h : p s with ⟨e | a, s'⟩
  · rw [bind_of_error h]
    simp
  · rw [bind_of_ok h]
    simp

variable {g : σ → ε → ε'}

theorem mapError_of_ok (h : p s = (.ok a, s')) : p.mapError g s = (.ok a, s') := by
  rw [mapError, h]

theorem mapError_of_error (h : p s = (.error e, s')) : p.mapError g s = (.error (g s' e), s') := by
  rw [mapError, h]

theorem mapError_eq_ok : p.mapError g s = (.ok a, s') ↔ p s = (.ok a, s') := by
  rcases h : p s with ⟨e | a, s'⟩
  · rw [mapError_of_error h]
    simp
  · rw [mapError_of_ok h]
    simp

/-! ### Portions -/

/-- States that start with portions, and give them when they have the means. -/
structure Source (σ M : Type) [Monoid M] where
  starts : σ → M → Prop
  gives : σ → M → Prop
  /-- The second state is what the first is after the portion. -/
  after : σ → M → σ → Prop
  after_one : ∀ s, after s 1 s
  after_mul : ∀ {s s' s'' m m'}, after s m s' → after s' m' s'' → after s (m * m') s''
  starts_of_gives : ∀ {s m}, gives s m → starts s m
  starts_left : ∀ {s m m'}, starts s (m * m') → starts s m
  starts_right : ∀ {s s' m m'}, starts s (m * m') → after s m s' → starts s' m'
  gives_one : ∀ s, gives s 1
  gives_left : ∀ {s m m'}, gives s (m * m') → gives s m
  gives_right : ∀ {s s' m m'}, gives s (m * m') → after s m s' → gives s' m'
  gives_mul : ∀ {s s' m m'}, starts s (m * m') → gives s m → after s m s' → gives s' m' → gives s (m * m')

variable {M : Type} [Monoid M] {F : Source σ M} {m m' : M}

/-- On a state that gives `m` the computation returns `a` and uses `m` up; on one that starts with `m` and
does not give it, the computation fails. -/
structure Reads (F : Source σ M) (p : Reading σ ε α) (m : M) (a : α) : Prop where
  ok : ∀ s, F.gives s m → ∃ s', p s = (.ok a, s') ∧ F.after s m s'
  fails : ∀ s, F.starts s m → ¬ F.gives s m → ∃ e s', p s = (.error e, s')

namespace Reads

theorem pure (a : α) : Reads F (pure a : Reading σ ε α) 1 a where
  ok s _ := ⟨s, rfl, F.after_one s⟩
  fails s _ hs := absurd (F.gives_one s) hs

/-- What the computation returns on a state that starts with the portion, if it does. -/
theorem eq_of_ok {a' : α} (hp : Reads F p m a) (hstart : F.starts s m) (h : p s = (.ok a', s')) :
    F.gives s m ∧ a' = a ∧ F.after s m s' := by
  by_cases hs : F.gives s m
  · obtain ⟨s'', hok, hafter⟩ := hp.ok s hs
    cases hok.symm.trans h
    exact ⟨hs, rfl, hafter⟩
  · obtain ⟨e, s'', herr⟩ := hp.fails s hstart hs
    cases herr.symm.trans h

theorem bind {b : β} (hp : Reads F p m a) (hf : Reads F (f a) m' b) :
    Reads F (p >>= f) (m * m') b where
  ok s hs := by
    obtain ⟨s', hs', hafter⟩ := hp.ok s (F.gives_left hs)
    obtain ⟨s'', hs'', hafter'⟩ := hf.ok s' (F.gives_right hs hafter)
    exact ⟨s'', (bind_of_ok hs').trans hs'', F.after_mul hafter hafter'⟩
  fails s hstart hs := by
    by_cases hm : F.gives s m
    · -- the first part is there, so the second is what is missing
      obtain ⟨s', hs', hafter⟩ := hp.ok s hm
      have hm' : ¬ F.gives s' m' := fun h ↦ hs (F.gives_mul hstart hm hafter h)
      obtain ⟨e, s'', he⟩ := hf.fails s' (F.starts_right hstart hafter) hm'
      exact ⟨e, s'', (bind_of_ok hs').trans he⟩
    · obtain ⟨e, s', he⟩ := hp.fails s (F.starts_left hstart) hm
      exact ⟨e, s', bind_of_error he⟩

theorem congr (hp : Reads F p m a) (hm : m = m') : Reads F p m' a := hm ▸ hp

/-- The last step of a computation. -/
theorem map {b : β} {g : α → Reading σ ε β} (hp : Reads F p m a) (hg : g a = Pure.pure b) :
    Reads F (p >>= g) m b := by
  have h : Reads F (g a) 1 b := hg ▸ Reads.pure b
  exact mul_one m ▸ hp.bind h

theorem mapError (hp : Reads F p m a) : Reads F (p.mapError g) m a where
  ok s hs := by
    obtain ⟨s', hs', hafter⟩ := hp.ok s hs
    exact ⟨s', mapError_of_ok hs', hafter⟩
  fails s hstart hs := by
    obtain ⟨e, s', he⟩ := hp.fails s hstart hs
    exact ⟨g s' e, s', mapError_of_error he⟩

theorem times_succ {n : ℕ} {as : List α} (hp : Reads F p m a) (hl : Reads F (p.times n) m' as) :
    Reads F (p.times (n + 1)) (m * m') (a :: as) := by
  refine hp.bind ?_
  exact hl.map rfl

end Reads

/-! ### Errors that may remain -/

/-- On a state that gives `m` the computation uses `m` up, or fails with an error in `E`. -/
def Takes (F : Source σ M) (E : ε → Prop) (p : Reading σ ε α) (m : M) : Prop :=
  ∀ s, F.gives s m →
    (∃ a s', p s = (.ok a, s') ∧ F.after s m s') ∨ ∃ e s', p s = (.error e, s') ∧ E e

theorem Reads.takes {E : ε → Prop} (hp : Reads F p m a) : Takes F E p m :=
  fun s hs ↦ .inl ⟨a, hp.ok s hs⟩

namespace Takes

variable {E : ε → Prop}

theorem bind (hp : Takes F E p m) (hf : ∀ a, Takes F E (f a) m') : Takes F E (p >>= f) (m * m') := by
  intro s hs
  rcases hp s (F.gives_left hs) with ⟨a, s', hs', hafter⟩ | ⟨e, s', hs', he⟩
  · rw [bind_of_ok hs']
    rcases hf a s' (F.gives_right hs hafter) with ⟨b, s'', hs'', hafter'⟩ | h
    · exact .inl ⟨b, s'', hs'', F.after_mul hafter hafter'⟩
    · exact .inr h
  · exact .inr ⟨e, s', bind_of_error hs', he⟩

/-- What is read first is known in what follows. -/
theorem bind_of_reads (hp : Reads F p m a) (hf : Takes F E (f a) m') :
    Takes F E (p >>= f) (m * m') := by
  intro s hs
  obtain ⟨s', hs', hafter⟩ := hp.ok s (F.gives_left hs)
  rw [bind_of_ok hs']
  rcases hf s' (F.gives_right hs hafter) with ⟨b, s'', hs'', hafter'⟩ | h
  · exact .inl ⟨b, s'', hs'', F.after_mul hafter hafter'⟩
  · exact .inr h

theorem mapError {E' : ε' → Prop} (hp : Takes F E p m) (hg : ∀ s e, E e → E' (g s e)) :
    Takes F E' (p.mapError g) m := by
  intro s hs
  rcases hp s hs with ⟨a, s', hs', hafter⟩ | ⟨e, s', hs', he⟩
  · exact .inl ⟨a, s', mapError_of_ok hs', hafter⟩
  · exact .inr ⟨g s' e, s', mapError_of_error hs', hg s' e he⟩

theorem congr (hp : Takes F E p m) (hm : m = m') : Takes F E p m' := hm ▸ hp

theorem times {l : List M} (h : ∀ m ∈ l, Takes F E p m) : Takes F E (p.times l.length) l.prod := by
  induction l with
  | nil => exact (Reads.pure []).takes
  | cons m l ih =>
    have hm := h m List.mem_cons_self
    have hl := ih fun x hx ↦ h x (List.mem_cons_of_mem m hx)
    rw [List.prod_cons]
    refine hm.bind fun a ↦ (hl.bind fun as ↦ ?_).congr (mul_one _)
    exact (Reads.pure (a :: as)).takes

end Takes

/-! ### What every state after is like -/

/-- `R` is what steps that return may do, and `Q` what a run of them that ends in a failure may do. -/
structure Steps (R Q : σ → σ → Prop) : Prop where
  refl : ∀ s, R s s
  trans : ∀ {s s' s''}, R s s' → R s' s'' → R s s''
  fails : ∀ s, Q s s
  trans_fails : ∀ {s s' s''}, R s s' → Q s' s'' → Q s s''

/-- An outcome of a computation on `s`: a state after that `R` allows, or `Q` when it failed. -/
def Outcome (R Q : σ → σ → Prop) (s : σ) : Except ε α × σ → Prop
  | (.ok _, s') => R s s'
  | (.error _, s') => Q s s'

/-- The states before and after a computation that returns, and before and after one that fails. -/
def Keeps (R Q : σ → σ → Prop) (p : Reading σ ε α) : Prop := ∀ s, Outcome R Q s (p s)

namespace Keeps

variable {R Q : σ → σ → Prop}

theorem of_ok (hp : Keeps R Q p) (h : p s = (.ok a, s')) : R s s' := by
  have := hp s
  rwa [h] at this

theorem of_error (hp : Keeps R Q p) (h : p s = (.error e, s')) : Q s s' := by
  have := hp s
  rwa [h] at this

theorem pure (h : Steps R Q) (a : α) : Keeps R Q (Pure.pure a : Reading σ ε α) := h.refl

theorem fail (h : Steps R Q) (e : ε) : Keeps R Q (Reading.fail e : Reading σ ε α) := h.fails

theorem ofExcept (h : Steps R Q) (r : Except ε α) : Keeps R Q (Reading.ofExcept r : Reading σ ε α) := by
  cases r with
  | ok a => exact Keeps.pure h a
  | error e => exact Keeps.fail h e

theorem mono {R' Q' : σ → σ → Prop} (hp : Keeps R Q p) (hR : ∀ {s s'}, R s s' → R' s s')
    (hQ : ∀ {s s'}, Q s s' → Q' s s') : Keeps R' Q' p := by
  intro s
  have h := hp s
  rcases hs : p s with ⟨e | a, s'⟩
  · rw [hs] at h
    exact hQ h
  · rw [hs] at h
    exact hR h

/-- A first step that `R` allows, and an outcome from the state after it. -/
theorem after (h : Steps R Q) (hR : R s s') {r : Except ε α × σ} (hr : Outcome R Q s' r) :
    Outcome R Q s r := by
  rcases r with ⟨e | a, s''⟩
  · exact h.trans_fails hR hr
  · exact h.trans hR hr

theorem bind (h : Steps R Q) (hp : Keeps R Q p) (hf : ∀ a, Keeps R Q (f a)) : Keeps R Q (p >>= f) := by
  intro s
  rcases hs : p s with ⟨e | a, s'⟩
  · rw [bind_of_error hs]
    exact hp.of_error hs
  · rw [bind_of_ok hs]
    exact after h (hp.of_ok hs) (hf a s')

theorem mapError (hp : Keeps R Q p) : Keeps R Q (p.mapError g) := by
  intro s
  rcases hs : p s with ⟨e | a, s'⟩
  · rw [mapError_of_error hs]
    exact hp.of_error hs
  · rw [mapError_of_ok hs]
    exact hp.of_ok hs

theorem times (h : Steps R Q) (hp : Keeps R Q p) (n : ℕ) : Keeps R Q (p.times n) := by
  induction n with
  | zero => exact .pure h []
  | succ n ih => exact .bind h hp fun a ↦ .bind h ih fun as ↦ .pure h (a :: as)

end Keeps

end Reading
