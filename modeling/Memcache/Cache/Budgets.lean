import Memcache.Cache.OpSteps

/-!
# Budgets

A resize changes a live bound and then gives every shard its share of it, one shard at a time. So a
shard's budget is its share of the live bound only **between operations** (`Core.Sized`), while a
policy's own budgets follow its shard's budget at every instruction (`Core.Fitted`). No other
operation changes a bound or a budget (`Core.SameBounds`).
-/

namespace Memcache

variable {K V : Type*} {n : ℕ}

namespace Core

/-- Every policy is split for its shard's budget. -/
def Fitted (c : Core K V n) : Prop :=
  ∀ i, (c.shards i).policy.Fitted (c.shards i).budget

/-- Every shard has its share of the live bound. -/
def Sized (c : Core K V n) : Prop :=
  ∀ i, (c.shards i).budget = perShardBudget c.maxEntries n

/-- The bounds and the budgets have not changed. -/
structure SameBounds (c d : Core K V n) : Prop where
  maxEntries : d.maxEntries = c.maxEntries
  maxBytes : d.maxBytes = c.maxBytes
  budget : ∀ i, (d.shards i).budget = (c.shards i).budget

theorem SameBounds.refl (c : Core K V n) : c.SameBounds c := ⟨rfl, rfl, fun _ ↦ rfl⟩

theorem SameBounds.trans {c d e : Core K V n} (h : c.SameBounds d) (h' : d.SameBounds e) :
    c.SameBounds e :=
  ⟨h'.maxEntries.trans h.maxEntries, h'.maxBytes.trans h.maxBytes,
    fun i ↦ (h'.budget i).trans (h.budget i)⟩

theorem Sized.of_sameBounds {c d : Core K V n} (hc : c.Sized) (h : c.SameBounds d) : d.Sized := by
  intro i
  rw [h.budget, hc i, h.maxEntries]

/-- Only one shard changes, and it keeps its budget. -/
theorem SameBounds.of_set {c d : Core K V n} (i : Fin n) (s : CoreShard K V)
    (hd : d.shards = (c.set i s).shards) (h₁ : d.maxEntries = c.maxEntries)
    (h₂ : d.maxBytes = c.maxBytes) (hs : s.budget = (c.shards i).budget) : c.SameBounds d := by
  refine ⟨h₁, h₂, fun j ↦ ?_⟩
  rw [hd]
  exact set_cases j hs fun _ _ ↦ rfl

variable [BEq K] {cfg : Config K V} {T : Licence K V} {c d : Core K V n}

/-- **Without a resize, no instruction changes a bound or a budget.** -/
theorem SameBounds.step (h : CoreStep cfg T c d) (hT : ¬ T.resize) : c.SameBounds d := by
  cases h with
  | read _ i s hs => cases hs <;> exact of_set i _ rfl rfl rfl rfl
  | bounds _ maxEntries maxBytes h => exact absurd h hT
  | budget _ i per h => exact absurd h hT
  | _ _ i => exact of_set i _ rfl rfl rfl rfl

/-- Every instruction keeps the policies split for their shards' budgets. -/
theorem Fitted.step (h : CoreStep cfg T c d) (hc : c.Fitted) : d.Fitted := by
  have one {i : Fin n} {s : CoreShard K V} (hs : s.policy.Fitted s.budget) :
      (c.set i s).Fitted := forall_set (P := fun s ↦ s.policy.Fitted s.budget) hc hs
  have rewritten (i : Fin n) (e' : Entry K V) (fix access : Bool) :
      (Memcache.rewriteTable cfg.hash (c.shards i).toTable e' fix access).policy.Fitted
        (c.shards i).budget := by
    unfold Memcache.rewriteTable
    split
    · exact (hc i).onAccess ..
    · exact hc i
  cases h with
  | read _ i s hs => cases hs <;> exact one (hc i)
  | insert _ i e habsent hkey hid h₁ h₂ => exact one ((hc i).onInsert ..)
  | rewrite _ i e e' fix access hmem hr hfix => exact one (rewritten i e' fix access)
  | tombstone _ i e now expireAt hmem hT => exact one (rewritten i _ true true)
  | drop _ i e hmem => exact one ((hc i).onRemove _)
  | policy _ i p hp => exact one (hp.fitted _ (hc i))
  | stray _ i r p hp hnone => exact one (hp.fitted _ (hc i))
  | evict _ i r p e hp hsome => exact one ((hp.fitted _ (hc i)).onRemove _)
  | clear _ i => exact one (hc i).reset
  | bounds _ maxEntries maxBytes hT => exact hc
  | budget _ i per hT => exact one (Policy.fitted_setBudget ..)
  | _ => exact one (hc _)

end Core

namespace Cache

variable [BEq K] {cfg : Config K V} {env : Env K} {c : Cache K V n}

theorem sameBounds_of_steps {T : Licence K V} {b : Cache K V n} (h : Steps cfg T c b)
    (hT : ¬ T.resize) : c.core.SameBounds b.core :=
  h.invariant (I := fun d ↦ c.core.SameBounds d) (fun hs hd ↦ hd.trans (.step hs hT)) (.refl _)

/-! ### Resizing -/

omit [BEq K] in
theorem sized_new (cfg : Config K V) : (new cfg n).core.Sized := fun _ ↦ rfl

omit [BEq K] in
theorem fitted_new (cfg : Config K V) : (new cfg n).core.Fitted := fun _ ↦ Policy.fitted_new ..

/-- A shard's turn in a resize gives it its share, and leaves the bounds and the other budgets. -/
theorem budget_resizeShard (cfg : Config K V) (env : Env K) (c : Cache K V n) (i : Fin n) :
    (resizeShard cfg env c i).maxEntries = c.maxEntries ∧
      ∀ j, ((resizeShard cfg env c i).core.shards j).budget =
        if j = i then perShardBudget c.maxEntries n else (c.core.shards j).budget := by
  set b := c.modify i fun s ↦ { s with
    budget := perShardBudget c.maxEntries n
    policy := s.policy.setBudget (perShardBudget c.maxEntries n) } with hb
  have hsame : b.core.SameBounds (b.evictOverBudgetLocked cfg env i .resize (2 ^ 63 - 1)).1.core :=
    sameBounds_of_steps (T := .fixed) (b.steps_evictOverBudgetLocked i .resize _) fun h ↦ h
  have hcore : (resizeShard cfg env c i).core =
      (b.evictOverBudgetLocked cfg env i .resize (2 ^ 63 - 1)).1.core := core_releaseShard ..
  refine ⟨(congrArg Core.maxEntries hcore).trans hsame.maxEntries, fun j ↦ ?_⟩
  rw [hcore, hsame.budget, hb, core_modify]
  split_ifs with h
  · subst h
    rw [Core.set_shards_self]
    rfl
  · rw [Core.set_shards_of_ne _ _ h]

/-- Once every shard has had its turn, every shard has its share. -/
theorem sized_foldl_resizeShard {l : List (Fin n)}
    (h : ∀ j ∉ l, (c.core.shards j).budget = perShardBudget c.maxEntries n) :
    (l.foldl (resizeShard cfg env) c).core.Sized := by
  induction l generalizing c with
  | nil => exact fun j ↦ h j (List.not_mem_nil)
  | cons i l ih =>
    obtain ⟨hmax, hbudget⟩ := budget_resizeShard cfg env c i
    refine ih fun j hj ↦ ?_
    rw [hbudget, hmax]
    split_ifs with hji
    · rfl
    · exact h j (by simp [hji, hj])

variable [NeZero n]

theorem sized_resize (hc : c.core.Sized) (newSize : ℕ) : (c.resize cfg env newSize).core.Sized := by
  unfold resize
  split_ifs
  · exact hc
  · have hshares : ((c.withBound cfg newSize).eachShard (resizeShard cfg env)).core.Sized :=
      sized_foldl_resizeShard fun j hj ↦ absurd (List.mem_finRange j) hj
    exact hshares.of_sameBounds
      (sameBounds_of_steps (T := .fixed) (steps_shedOverBudget _ .resize none) fun h ↦ h)

end Cache

/-! ### Runs -/

section Run

variable [BEq K] [NeZero n] [Inhabited V] {cfg : Config K V}

/-- **Between operations every shard has its share of the live bound.** -/
theorem sized_step [EquivBEq K] {c : Cache K V n} (hr : c.core.Ready .all) (hc : c.core.Sized)
    (p : Env K × Op K V n) : (stepIn cfg c p).core.Sized := by
  by_cases h : ∃ newSize, p.2 = .resize newSize
  · obtain ⟨env, op⟩ := p
    obtain ⟨newSize, rfl⟩ := h
    exact Cache.sized_resize hc newSize
  · have hok : StepOk cfg .fixed c p := 
      stepOk_of_permits (fun _ ↦ trivial) c p fun newSize h' ↦ absurd ⟨newSize, h'⟩ h
    exact hc.of_sameBounds (Cache.sameBounds_of_steps ((settles_step_of_permits hok).moves hr) fun h ↦ h)

/-- What a run leaves of the budgets. -/
theorem sized_fitted_run [EquivBEq K] (cfg : Config K V) (ops : List (Env K × Op K V n)) :
    (run cfg (new cfg n) ops).core.Sized ∧ (run cfg (new cfg n) ops).core.Fitted := by
  have hall : Runs.Along (stepIn cfg) (StepOk cfg .all) (new cfg n) ops :=
    .of_forall stepOk_of_equiv _ _
  refine ⟨(hall.invariant (I := fun c ↦ Steps cfg .all (new cfg n) c ∧ c.core.Sized) ?_
    ⟨.refl, Cache.sized_new cfg⟩).2,
    (steps_run hall).invariant (I := Core.Fitted) Core.Fitted.step (Cache.fitted_new cfg)⟩
  rintro c p hok ⟨hsteps, hs⟩
  have hr := (ready_new cfg).steps hsteps
  exact ⟨hsteps.trans ((settles_step_of_permits hok).moves hr), sized_step hr hs p⟩

end Run

end Memcache
