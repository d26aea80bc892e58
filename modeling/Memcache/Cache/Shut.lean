import Memcache.Cache.Heeds
import Memcache.Cache.Shed

/-!
# A closed cache stays closed and empty

`Close` refuses calls from the moment it is called, but what was let in before goes on: loads come to
their end, promotions and snapshot records to their sections, queued writes to their application.
Each of them asks, under the shard's lock, whether the cache has been sealed. So **nothing is stored
again once `Close` is through**: closed, sealed and empty is a state that no operation leaves.
-/

namespace Memcache

namespace Cache

variable {K V : Type*} {n : ℕ} {cfg : Config K V} {env : Env K} {c c' : Cache K V n} {i : Fin n}

/-- Closed and sealed, with nothing stored. -/
structure Shut (c : Cache K V n) : Prop where
  closed : c.closed = true
  sealed : c.sealed = true
  empty : ∀ j, (c.shards j).storage = []

theorem storage_clearShard [BEq K] (cfg : Config K V) (c : Cache K V n) (i j : Fin n) :
    ((c.clearShard cfg i).shards j).storage = if j = i then [] else (c.shards j).storage := by
  unfold clearShard addCounters
  dsimp only
  split_ifs with hj
  · rw [hj, modify_shards_self]
    rfl
  · rw [modify_shards_of_ne _ _ hj, supersedeAllFlights, modify_shards_of_ne _ _ hj]
    rfl

namespace Shut

/-- A change outside the entries that turns no switch back. -/
theorem of_storage (h : c.Shut) (hc : c'.closed = c.closed) (hs : c'.sealed = c.sealed)
    (hst : ∀ j, (c'.shards j).storage = (c.shards j).storage) : c'.Shut :=
  ⟨hc.trans h.closed, hs.trans h.sealed, fun j ↦ (hst j).trans (h.empty j)⟩

theorem modify (h : c.Shut) {f : Shard K V → Shard K V}
    (hf : (f (c.shards i)).storage = (c.shards i).storage) : (c.modify i f).Shut :=
  h.of_storage rfl rfl fun j ↦ modify_cases j hf fun _ _ ↦ rfl

theorem byId_eq_none (h : c.Shut) (i : Fin n) (id : ℕ) : (c.shards i).byId id = none := by
  rw [Table.byId, h.empty i]
  rfl

theorem releaseShard (h : c.Shut) : (c.releaseShard i).Shut :=
  (h.modify (i := i) (f := fun s ↦ { s with pendingCallbacks := [] }) rfl).of_storage rfl rfl fun _ ↦ rfl

variable [BEq K]

theorem supersedeFlight (h : c.Shut) (key : K) : (c.supersedeFlight i key).Shut := h.modify rfl

theorem get_eq_none (h : c.Shut) (i : Fin n) (key : K) : (c.shards i).get key = none := by
  rw [Table.get, h.empty i, List.find?_nil]

/-! ### Sections that would store -/

theorem upsertLocked (h : c.Shut) (key : K) (value : V) (weight effectiveTTL : ℤ) (sliding : Bool)
    (rawTTL : ℤ) (tags : List String) :
    (c.upsertLocked cfg env i key value weight effectiveTTL sliding rawTTL tags).Shut := by
  unfold Cache.upsertLocked
  dsimp only
  rw [if_pos (h.supersedeFlight (i := i) key).sealed]
  exact h.supersedeFlight key

theorem upsertWithAbsoluteExpiryLocked (h : c.Shut) (key : K) (value : V) (weight expireAt : ℤ)
    (tags : List String) :
    (c.upsertWithAbsoluteExpiryLocked cfg env i key value weight expireAt tags).Shut := by
  unfold Cache.upsertWithAbsoluteExpiryLocked
  dsimp only
  rw [if_pos (h.supersedeFlight (i := i) key).sealed]
  exact h.supersedeFlight key

theorem removeKeyLocked (h : c.Shut) (key : K) (reason : EvictionReason) :
    (c.removeKeyLocked cfg env i key reason).Shut := by
  have hsup : (c.supersedeFlight i key).Shut := h.supersedeFlight key
  unfold Cache.removeKeyLocked
  dsimp only
  rw [hsup.get_eq_none]
  exact hsup

theorem applyPendingOpLocked (h : c.Shut) (op : PendingOp K V) :
    (c.applyPendingOpLocked cfg env i op).Shut := by
  unfold Cache.applyPendingOpLocked
  split
  · split_ifs
    · exact h.upsertWithAbsoluteExpiryLocked ..
    · exact h.upsertLocked ..
  · exact h.removeKeyLocked ..

theorem removeExpired (h : c.Shut) (ids : List ℕ) : (removeExpired cfg env i ids c).Shut := by
  induction ids with
  | nil => exact h
  | cons id ids ih =>
    unfold Cache.removeExpired
    rw [h.byId_eq_none]
    exact ih

/-- Evictions find nothing to evict. -/
theorem of_shedding (reason : EvictionReason) :
    Shedding (n := n) cfg env reason fun c c' ↦ c.Shut → c'.Shut where
  refl _ := id
  trans h h' := h' ∘ h
  policy c i p _ h := h.modify rfl
  evict c i r p _ h := by
    rw [evict_of_none cfg env c i (h.byId_eq_none i r.id)]
    exact h.modify rfl
  release _ _ h := h.releaseShard
  next _ _ h := h.of_storage rfl rfl fun _ ↦ rfl

/-- **No section of an operation reopens a cache or stores in it.** -/
theorem working [NeZero n] : Working (n := n) cfg env .any (fun c c' ↦ c.Shut → c'.Shut)
    fun c c' ↦ c.Shut → c'.Shut where
  refl _ := id
  trans h h' := h' ∘ h
  within := id
  chain h h' := h' ∘ h
  beside hb h := ⟨hb.closed h.closed, hb.sealed h.sealed, fun j ↦
    (congrArg (fun d ↦ (d.shards j).storage) hb.core).trans (h.empty j)⟩
  shed hc _ last h := (of_shedding _).shedOverBudget _ last (hc h)
  flights _ _ _ _ _ h := h.modify rfl
  remove c i _ _ he h := by cases h.empty i ▸ he
  removeKey _ _ key reason h := h.removeKeyLocked key reason
  upsert _ _ _ _ _ _ _ _ _ _ _ h := h.upsertLocked ..
  upsertAt _ _ _ _ _ _ _ _ _ h := h.upsertWithAbsoluteExpiryLocked ..
  replace c i key _ _ _ he _ h := by cases (h.get_eq_none i key).symm.trans he
  tombstone c i _ _ _ h := by
    unfold insertNegativeTombstoneLocked
    dsimp only
    rwa [if_pos h.sealed]
  touch c i _ he h := by cases h.empty i ▸ he
  extend c i _ _ he h := by cases h.empty i ▸ he
  stale c i _ he h := by cases h.empty i ▸ he
  enqueue _ _ _ _ _ h := h.modify rfl
  unqueue c i key h := by
    unfold applyPendingKeyLocked
    split
    · exact h
    · exact (h.modify rfl).applyPendingOpLocked _
  drain c i h := Runs.invariant (I := Shut) (fun d op hd ↦ hd.applyPendingOpLocked op) (h.modify rfl) _
  finish {c _ i _ f} _ hd h := hd trivial (h.modify (i := i) rfl)
  promote c i _ _ p _ _ _ h := by
    unfold promoteLocked
    split
    · exact h
    · rwa [if_pos h.closed]
  sweep c i _ h := (h.modify (i := i) rfl).removeExpired _
  clear c i h := by
    refine ⟨h.closed, h.sealed, fun j ↦ ?_⟩
    rw [storage_clearShard]
    exact ite_eq_left_iff.2 fun _ ↦ h.empty j
  bound c newSize _ h := by
    unfold withBound
    split_ifs <;> exact h.of_storage rfl rfl fun _ ↦ rfl
  resizeShard c i _ h := ((of_shedding _).evictRounds _ i _ _ (h.modify (i := i) rfl)).releaseShard
  snapshot c i _ _ _ h := by
    unfold applySnapshotLocked
    dsimp only
    rw [if_pos (h.supersedeFlight (i := i) _).sealed]
    exact h.supersedeFlight _

end Shut

variable [BEq K] [NeZero n]

theorem Shut.step [Inhabited V] (h : c.Shut) (op : Op K V n) : (step cfg env c op).Shut := by
  refine Shut.working.step c (fun _ _ ↦ trivial)
    (Op.permitted_of_permits (fun _ ↦ trivial) c fun _ _ ↦ trivial) (fun _ _ ↦ trivial)
    (fun hapart h ↦ ?_) h
  cases op with
  | get key =>
    show (c.get cfg env key).2.Shut
    rwa [get, if_pos h.closed]
  | watchKey key => exact h.modify (f := fun s ↦ { s with flights := _ }) rfl
  | unwatchKey key w => exact h.modify (f := fun s ↦ { s with flights := _ }) rfl
  | _ => exact hapart.elim

/-! ### Closing -/

variable [PartialEquivBEq K]

/-- Both switches are where they were. -/
def Switches (c c' : Cache K V n) : Prop := c'.closed = c.closed ∧ c'.sealed = c.sealed

omit [PartialEquivBEq K] [NeZero n] in
theorem Switches.frame (h : Switches c c') {d : Cache K V n} (hf : Frame c' d) : Switches c d :=
  ⟨hf.closed.trans h.1, hf.sealed.trans h.2⟩

theorem switches_drainShard (c : Cache K V n) (i : Fin n) :
    Switches c (c.drainShard cfg env i) := by
  have hop (d : Cache K V n) (op : PendingOp K V) (hd : Switches c d) :
      Switches c (d.applyPendingOpLocked cfg env i op) := by
    obtain ⟨P, hput⟩ := applyPendingOpLocked_supersedes cfg env d i op
    exact hd.frame hput.toFrame
  have hgroup (d : Cache K V n) (op : PendingOp K V) (hd : Switches c d) :
      Switches c (if op.kind = .set then d.enforceGroupBudgets cfg env op.tags else d) := by
    split_ifs
    · exact hd.frame (fades_enforceGroupBudgets d _).toFrame
    · exact hd
  unfold drainShard
  dsimp only
  split_ifs
  · exact ⟨rfl, rfl⟩
  · refine Runs.invariant (I := Switches c) hgroup (.frame ?_ (sheds_flushAndUnlock _).toFrame) _
    have hq : Switches c (c.modify i fun s ↦ { s with pending := .empty }) := ⟨rfl, rfl⟩
    exact Runs.invariant (I := Switches c) hop hq _

/-- Applying queued writes turns neither switch. -/
theorem switches_applyAllPending (cfg : Config K V) (env : Env K) (c : Cache K V n) :
    Switches c (c.applyAllPending cfg env) := by
  unfold applyAllPending
  split_ifs
  · refine Runs.invariant (I := Switches c) (fun d i hd ↦ ?_) ⟨rfl, rfl⟩ _
    have hi : Switches d (d.drainShard cfg env i) := switches_drainShard d i
    exact ⟨hi.1.trans hd.1, hi.2.trans hd.2⟩
  · exact ⟨rfl, rfl⟩

/-- A reset empties a closed and sealed cache for good. -/
theorem shut_reset (hc : c.closed = true) (hs : c.sealed = true) : (c.reset cfg env).Shut := by
  have hloop (l : List (Fin n)) : ∀ d : Cache K V n, d.closed = true → d.sealed = true →
      (∀ j, j ∈ l ∨ (d.shards j).storage = []) →
      (l.foldl (fun d i ↦ (d.clearShard cfg i).flushAndUnlock cfg env i) d).Shut := by
    induction l with
    | nil => exact fun d hc hs he ↦ ⟨hc, hs, fun j ↦ (he j).resolve_left (List.not_mem_nil)⟩
    | cons i l ih =>
      intro d hc hs he
      have hflush : Sheds (d.clearShard cfg i) ((d.clearShard cfg i).flushAndUnlock cfg env i) :=
        sheds_flushAndUnlock _
      refine ih _ (hflush.closed.trans hc) (hflush.sealed.trans hs) fun j ↦ ?_
      refine (Classical.em (j ∈ l)).imp_right fun hj ↦ ?_
      refine (shedding_empty cfg env .capacity j).flushAndUnlock _ i ?_
      show ((d.clearShard cfg i).shards j).storage = []
      rw [storage_clearShard]
      split_ifs with hji
      · rfl
      · exact (he j).resolve_left fun hm ↦ (List.mem_cons.1 hm).elim hji hj
  obtain ⟨hc', hs'⟩ := switches_applyAllPending cfg env c
  exact hloop _ _ (hc'.trans hc) (hs'.trans hs) fun j ↦ .inl (List.mem_finRange j)

theorem shut_close (hopen : c.closed = false) : (c.close cfg env).Shut := by
  unfold close
  rw [if_neg (by simp [hopen])]
  obtain ⟨hc, -⟩ := switches_applyAllPending cfg env c.markClosed
  have hone (d b : Cache K V n) (i : Fin n) (hb : Switches d b) :
      Switches d (b.modify i fun s ↦ { s with janitorRunning := false }) := hb
  have hstop (d : Cache K V n) : Switches d d.stopAllJanitors :=
    Runs.invariant (I := Switches d) (hone d) ⟨rfl, rfl⟩ _
  obtain ⟨hc', hs'⟩ := hstop (c.markClosed.applyAllPending cfg env).markSealed
  exact shut_reset (hc'.trans hc) hs'

end Cache

end Memcache
