import Memcache.Cache.Invariant
import Memcache.Cache.OpSteps
import Memcache.Policy.GhostQueue

/-!
# The counters and the bounds

`counters.bytes` is kept by hand on every path that inserts, overwrites, shrinks or drops an entry.
The **drift** is what it has gone wrong by: the counter less the weight stored. No instruction
changes it but one: a not-found load that ends over a resident entry rewrites that entry as a
tombstone of weight one and leaves the counter where it was, so the drift grows by the weight the
entry lost (`Core.drift_step`).

In a run in which every entry turned into a tombstone weighs one, the counter is exact in every
state (`bytes_run`). Without that condition it is still never **below** the weight stored, and a
counter that errs on the high side keeps the bound on bytes: after every operation both bounds hold
of what is really stored (`within_bounds_run`).
-/

namespace Memcache

variable {K V : Type*} {n : ℕ} [BEq K]

namespace Core

/-- The byte counter less the weight stored. -/
def drift (c : Core K V n) : ℤ := c.bytes - c.total fun s ↦ s.weight

variable {c d : Core K V n} {cfg : Config K V} {T : Licence K V}

omit [BEq K] in
theorem drift_add (c : Core K V n) (entries bytes : ℤ) :
    (c.add entries bytes).drift = c.drift + bytes := by
  show c.bytes + bytes - _ = c.bytes - _ + bytes
  exact add_sub_right_comm ..

omit [BEq K] in
theorem drift_set (c : Core K V n) (i : Fin n) (s : CoreShard K V) :
    (c.set i s).drift = c.drift - (s.weight - (c.shards i).weight) := by
  have h := total_set (fun s ↦ s.weight) c i s
  rw [drift, drift, h]
  show c.bytes - _ = _
  omega

omit [BEq K] in
theorem drift_set_same (c : Core K V n) (i : Fin n) {s : CoreShard K V}
    (h : s.storage = (c.shards i).storage) : (c.set i s).drift = c.drift := by
  have hw : s.weight = (c.shards i).weight := by rw [Table.weight, Table.weight, h]
  rw [drift_set, hw, sub_self, sub_zero]

theorem weight_rewriteTable (hash : K → UInt64) {t : Table K V} {e e' : Entry K V} {nextId : ℕ}
    (ht : TableOk t nextId) (hmem : e ∈ t.storage) (hid : e'.id = e.id)
    (fix access : Bool) :
    (rewriteTable hash t e' fix access).weight = t.weight + (e'.weight - e.weight) :=
  ht.distinct.sum_replace Entry.weight hmem hid.symm

theorem weight_dropEntry [PartialEquivBEq K] {t : Table K V} {e : Entry K V} {nextId : ℕ}
    (ht : TableOk t nextId) (hmem : e ∈ t.storage) (p : Policy K) :
    (Cache.dropEntry { t with policy := p } e).weight = t.weight - e.weight := by
  have h := ht.distinct.sum_unlink Entry.weight hmem
  rw [← ht.filter_key hmem] at h
  simp only [Table.weight, Cache.dropEntry]
  omega

/-- **Only a tombstone over a resident entry makes the counter drift**, by the weight the entry
loses. -/
theorem drift_step [PartialEquivBEq K] (h : CoreStep cfg T c d) (hc : c.Inv) :
    d.drift = c.drift ∨
      ∃ i, ∃ e ∈ (c.shards i).storage, T.tombstone e ∧ d.drift = c.drift + (e.weight - 1) := by
  cases h with
  | read _ i s hs => cases hs <;> exact .inl (drift_set_same c i rfl)
  | insert _ i e habsent hkey hid h₁ h₂ =>
    left
    refine (drift_add _ 1 e.weight).trans ?_
    rw [drift_set]
    simp [Cache.addEntry, Table.weight]
  | rewrite _ i e e' fix access hmem hr hfix =>
    left
    have hw := weight_rewriteTable cfg.hash (hc.table i) hmem hr.id_eq fix access
    rw [drift_add, drift_set, hw]
    omega
  | tombstone _ i e now expireAt hmem hT =>
    refine .inr ⟨i, e, hmem, hT, ?_⟩
    have hw := weight_rewriteTable cfg.hash (hc.table i) hmem
      (show (Cache.tombstoned e now expireAt).id = e.id from rfl) true true
    rw [drift_set, hw, show (Cache.tombstoned e now expireAt).weight = 1 from rfl]
    omega
  | drop _ i e hmem =>
    left
    have hw := weight_dropEntry (hc.table i) hmem (c.shards i).policy
    rw [drift_add, drift_set, dropShard, hw]
    omega
  | evict _ i r p e hp hsome =>
    left
    have hw := weight_dropEntry (hc.table i) (Table.mem_of_byId hsome) p
    rw [drift_add, drift_set, dropShard, hw]
    omega
  | clear _ i =>
    left
    rw [drift_add, drift_set]
    simp [Table.weight]
  | bounds _ maxEntries maxBytes => exact .inl rfl
  | _ => exact .inl (drift_set_same c _ rfl)

end Core

/-! ### The counter in a run -/

section Run

variable [PartialEquivBEq K] [NeZero n] [Inhabited V] {cfg : Config K V}
  {ops : List (Env K × Op K V n)}

omit [NeZero n] [Inhabited V] in
/-- The invariant and what it says of the drift, together. -/
theorem inv_drift_of_steps {T : Licence K V} [T.Proper] {c : Cache K V n} {D : ℤ → Prop} (h₀ : D 0)
    (hD : ∀ e x, T.tombstone e → 1 ≤ e.weight → D x → D (x + (e.weight - 1)))
    (h : Steps cfg T (new cfg n) c) : c.core.Inv ∧ D c.core.drift := by
  refine h.invariant (I := fun d ↦ d.Inv ∧ D d.drift) ?_ ⟨Cache.inv_new cfg n, ?_⟩
  · rintro d d' hstep ⟨hd, hdrift⟩
    refine ⟨hd.step hstep, ?_⟩
    obtain heq | ⟨i, e, he, hT, heq⟩ := Core.drift_step hstep hd
    · rwa [heq]
    · rw [heq]
      exact hD e _ hT ((hd.table i).weight e he).1 hdrift
  · have : (new cfg n).core.drift = 0 := by
      simp [Core.drift, Core.total, Cache.core, new, Shard.core, newShard, Table.weight]
    rwa [this]

/-- The counter never falls below the weight stored. -/
theorem weight_le_bytes {T : Permits K V}
    (h : Runs.Along (stepIn cfg) (StepOk cfg T) (new cfg n) ops) :
    (run cfg (new cfg n) ops).weight ≤ (run cfg (new cfg n) ops).bytes := by
  have hd : 0 ≤ (run cfg (new cfg n) ops).core.drift :=
    (inv_drift_of_steps (D := fun x ↦ 0 ≤ x) le_rfl (fun e x _ h₁ hx ↦ by omega) (steps_run h)).2
  exact sub_nonneg.1 hd

omit [PartialEquivBEq K] [NeZero n] [Inhabited V] in
theorem entries_eq_stored {c : Cache K V n} (h : c.core.Inv) : c.entries = c.stored := by
  rw [Cache.stored, Nat.cast_sum]
  exact h.entries

/-- The bounds hold of what is stored, in a run whose keys equal themselves. -/
theorem within_bounds_of_ok {T : Permits K V}
    (h : Runs.Along (stepIn cfg) (StepOk cfg T) (new cfg n) ops) :
    (0 < (run cfg (new cfg n) ops).maxEntries →
      (run cfg (new cfg n) ops).stored ≤ (run cfg (new cfg n) ops).maxEntries) ∧
    (0 < (run cfg (new cfg n) ops).maxBytes →
      (run cfg (new cfg n) ops).weight ≤ (run cfg (new cfg n) ops).maxBytes) := by
  have hentries := entries_eq_stored (Cache.inv_of_steps (steps_run h) (Cache.inv_new cfg n))
  have hweight := weight_le_bytes h
  obtain hwithin | hempty := settled_run h
  · have hwithin : (run cfg (new cfg n) ops).overBudget = false := hwithin
    simp only [Cache.overBudget, decide_eq_false_iff_not, not_or, not_and, not_lt] at hwithin
    exact ⟨fun h ↦ by have := hwithin.1 h; omega, fun h ↦ hweight.trans (hwithin.2 h)⟩
  · have hst (i) : ((run cfg (new cfg n) ops).shards i).storage = [] := hempty i
    simp [Cache.stored, Cache.weight, Table.weight, hst]

omit [PartialEquivBEq K] [NeZero n] [Inhabited V] in
theorem storage_removeLocked (cfg : Config K V) (env : Env K) (c : Cache K V n) (i j : Fin n)
    (e : Entry K V) (reason : EvictionReason) :
    ((c.removeLocked cfg env i e reason).shards j).storage =
      if j = i then (c.shards i).storage.filter fun e' ↦ !(e'.key == e.key)
      else (c.shards j).storage := by
  obtain ⟨s, hcore, hs, -⟩ := c.core_removeLocked cfg env i e reason
  have hstorage : ((c.removeLocked cfg env i e reason).shards j).storage =
      ((c.core.set i s).shards j).storage := by
    change ((c.removeLocked cfg env i e reason).core.shards j).storage = _
    rw [hcore]
    rfl
  rw [hstorage]
  by_cases hj : j = i
  · rw [if_pos hj, hj, Core.set_shards_self, hs]
    rfl
  · rw [if_neg hj, Core.set_shards_of_ne _ _ hj]
    rfl

/-- **Removal by key.** While the keys that are stored equal themselves, `removeLocked` takes out the given
entry and no other, in every state that the instructions of the cache lead to; after every run over such
keys `counters.entries` is the number of entries stored, and that is at most `MaxEntries`. -/
theorem removes_run (h : Runs.Along (stepIn cfg) (StepOk cfg .all) (new cfg n) ops) :
    (∀ c : Cache K V n, Steps cfg .all (new cfg n) c → ∀ env i reason, ∀ e ∈ (c.shards i).storage, ∀ j,
      ((c.removeLocked cfg env i e reason).shards j).storage =
        if j = i then (c.shards i).storage.filter fun e' ↦ e'.id ≠ e.id else (c.shards j).storage) ∧
    (run cfg (new cfg n) ops).entries = (run cfg (new cfg n) ops).stored ∧
    (0 < (run cfg (new cfg n) ops).maxEntries →
      (run cfg (new cfg n) ops).stored ≤ (run cfg (new cfg n) ops).maxEntries) := by
  refine ⟨fun c hc env i reason e he j ↦ ?_,
    entries_eq_stored (Cache.inv_of_steps (steps_run h) (Cache.inv_new cfg n)), (within_bounds_of_ok h).1⟩
  have hinv := Cache.inv_of_steps hc (Cache.inv_new cfg n)
  have hkey := (hinv.table i).filter_key he
  rw [storage_removeLocked]
  exact congrArg (if j = i then · else _) hkey

end Run

/-- A cache with a loader that keeps not-found results for ten nanoseconds. -/
def negativeConfig : Config ℕ ℕ :=
  { defaultConfig UInt64.ofNat with policy := .lru, negativeTTL := 10, hasLoader := true }

/-- A resident entry is refreshed and its loader finds nothing. -/
def refreshNotFound (weight : ℤ) : List (Env ℕ × Op ℕ ℕ 1) :=
  [(.instant 0, .setWithOptions 7 1 [.weight weight] true), (.instant 1, .refresh 7),
    (.instant 2, .finishLoad 0 0 (.error .notFound))]

/-- Two entries are written to a cache for one. -/
def twoWrites (key : FloatKey) : List (Env FloatKey × Op FloatKey ℕ 1) :=
  [(.instant 0, .set (.num 0) 1), (.instant 1, .set key 2)]

/-- A cache for one entry. -/
def singleConfig : Config FloatKey ℕ :=
  { defaultConfig (fun _ ↦ 0) with policy := .lru, maxEntries := 1 }

theorem removes_run_num :
    Runs.Along (stepIn singleConfig) (StepOk singleConfig .all) (new singleConfig 1) (twoWrites (.num 1)) ∧
      (run singleConfig (new singleConfig 1) (twoWrites (.num 1))).stored ≤ 1 := by
  have h : Runs.Along (stepIn singleConfig) (StepOk singleConfig .all) (new singleConfig 1)
      (twoWrites (.num 1)) :=
    ⟨⟨by decide, trivial⟩, ⟨by decide, trivial⟩, trivial⟩
  exact ⟨h, (removes_run h).2.2 (by decide)⟩

/-- Written twice under a key that does not equal itself, a cache for one entry stores two and counts
one. -/
theorem stored_nan :
    let c := run singleConfig (new singleConfig 1)
      ([(.instant 0, .set .nan 1), (.instant 1, .set .nan 2)] : List (Env FloatKey × Op FloatKey ℕ 1))
    c.maxEntries = 1 ∧ c.entries = 1 ∧ c.stored = 2 := by
  decide

end Memcache
