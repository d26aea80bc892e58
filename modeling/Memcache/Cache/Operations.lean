import Memcache.Cache.Steps
import Memcache.Cache.Watches

/-!
# One walk through the operations

Every operation is put together from a few sections: an upsert, a removal, a change of the loads, a
write taken off the queue. `Working` lists what a property of changes has to give for each of them,
and this module follows the source through the operations **once**, for any such property: the
accounting of the instructions, the watches and the end of a closed cache are instances.

Two relations are carried along, because an operation may pass through states it does not end in.
`M` relates the states inside an operation, `R` the state before it and the state after it; what
leads from the one to the other is the sweep that every operation ends with.
-/

namespace Memcache

variable {K V : Type*} {n : ℕ} [BEq K]

/-- Anything, for any keys. -/
def Licence.any : Licence K V := ⟨.all, fun _ _ ↦ True, True⟩

namespace Cache

/-- The core is the same, and neither switch was turned back. -/
structure Beside (c c' : Cache K V n) : Prop where
  core : c'.core = c.core
  closed : c.closed → c'.closed
  sealed : c.sealed → c'.sealed

/-- Where a finishing load would turn an entry that `T` does not allow into a tombstone. -/
def TombstoneOk (cfg : Config K V) (T : Permits K V) (c : Cache K V n) (i : Fin n) (id : ℕ) :
    LoadResult V → Prop
  | .error .notFound => ∀ f e, (c.shards i).flights.flight id = some f → f.superseded = false →
      c.closed = false → c.sealed = false → 0 < cfg.negativeTTL →
      (c.shards i).get f.key = some e → T.tombstone e
  | _ => True

/-- Relations that hold over whatever an operation does under a licence. -/
structure Working [NeZero n] (cfg : Config K V) (env : Env K) (T : Licence K V)
    (M R : Cache K V n → Cache K V n → Prop) : Prop where
  refl : ∀ c, R c c
  trans : ∀ {c c' c''}, R c c' → R c' c'' → R c c''
  within : ∀ {c c'}, R c c' → M c c'
  chain : ∀ {c c' c''}, M c c' → M c' c'' → M c c''
  beside : ∀ {c c'}, Beside c c' → R c c'
  /-- An operation ends in a sweep. -/
  shed : ∀ {c c' reason}, M c c' → supersedesFlight reason = false → ∀ last,
    R c (c'.shedOverBudget cfg env reason last)
  flights : ∀ c (i : Fin n) {f : Flights K → Flights K},
    FlightStep (T.takes i) (c.shards i).flights (f (c.shards i).flights) →
    Flights.Marks (c.shards i).flights (f (c.shards i).flights) →
    M c (c.modify i fun s ↦ { s with flights := f s.flights })
  remove : ∀ c (i : Fin n) {e} reason, e ∈ (c.shards i).storage → M c (c.removeLocked cfg env i e reason)
  removeKey : ∀ c (i : Fin n) key reason, M c (c.removeKeyLocked cfg env i key reason)
  upsert : ∀ c (i : Fin n) {key value weight}, T.takes i key → 1 ≤ weight ∧ weight ≤ maxEntryWeight →
    ∀ ttl sliding rawTTL tags,
      M c (c.upsertLocked cfg env i key value weight ttl sliding rawTTL tags)
  upsertAt : ∀ c (i : Fin n) {key value weight}, T.takes i key → 1 ≤ weight ∧ weight ≤ maxEntryWeight →
    ∀ expireAt tags,
      M c (c.upsertWithAbsoluteExpiryLocked cfg env i key value weight expireAt tags)
  replace : ∀ c (i : Fin n) {key e value weight}, (c.shards i).get key = some e →
    1 ≤ weight ∧ weight ≤ maxEntryWeight → M c (c.replaceValueLocked cfg env i e value weight)
  tombstone : ∀ [Inhabited V] c (i : Fin n) {key}, T.takes i key →
    (∀ e, (c.shards i).get key = some e → c.sealed = false → T.tombstone e) →
    M c (c.insertNegativeTombstoneLocked cfg env i key)
  touch : ∀ c (i : Fin n) {e}, e ∈ (c.shards i).storage → M c (c.touchEntry cfg env i e)
  extend : ∀ c (i : Fin n) {e} ttl, e ∈ (c.shards i).storage → M c (c.refreshExpiryLocked cfg env i e ttl)
  stale : ∀ c (i : Fin n) {e}, e ∈ (c.shards i).storage → M c (c.staleHit cfg i e)
  enqueue : ∀ c (i : Fin n) {op}, cfg.asyncWrites → op.Ok (T.takes i) → R c (c.enqueuePending i op)
  unqueue : ∀ c (i : Fin n) key, M c (c.applyPendingKeyLocked cfg env i key).1
  drain : ∀ c (i : Fin n), M c ((c.shards i).pending.values.foldl
    (fun c op ↦ c.applyPendingOpLocked cfg env i op) (c.modify i fun s ↦ { s with pending := .empty }))
  /-- A load that ends ran for a key its shard was given. -/
  finish : ∀ {c d} {i : Fin n} {id f}, (c.shards i).flights.flight id = some f →
    (T.takes i f.key → M (c.endFlight i f) d) → M c d
  promote : ∀ c (i : Fin n) {key value p} storeExpireAt, T.takes i key →
    (∀ w, p = .ok w → 1 ≤ w ∧ w ≤ maxEntryWeight) →
    M c (c.promoteLocked cfg env i key value storeExpireAt p)
  sweep : ∀ c (i : Fin n), T.sweep → M c (c.sweepExpiredLocked cfg env i)
  clear : ∀ c (i : Fin n), M c (c.clearShard cfg i)
  bound : ∀ c newSize, T.resize → M c (c.withBound cfg newSize)
  resizeShard : ∀ c (i : Fin n), T.resize → M c (resizeShard cfg env c i)
  snapshot : ∀ c (i : Fin n) {snap}, T.takes i snap.key → 1 ≤ snap.weight ∧ snap.weight ≤ maxEntryWeight →
    M c (c.applySnapshotLocked cfg env i snap)

/-! ### Checked values -/

section Checks

variable {cfg : Config K V} (c : Cache K V n) {key : K} {value : V} {weight : ℤ}

omit [BEq K]

theorem bind_eq_ok {ε : Type*} {α β : Type} {x : Except ε α} {f : α → Except ε β} {b : β}
    (h : x >>= f = .ok b) : ∃ a, x = .ok a ∧ f a = .ok b := by
  cases x with
  | error e => cases h
  | ok a => exact ⟨a, rfl, h⟩

/-- A checked value has a weight within the limits. -/
theorem checkSet_eq_ok {tags : List String} (h : c.checkSet cfg key value tags = .ok weight) :
    1 ≤ weight ∧ weight ≤ maxEntryWeight := by
  unfold checkSet at h
  split_ifs at h
  obtain ⟨-, -, h⟩ := bind_eq_ok h
  obtain ⟨w, hw, h⟩ := bind_eq_ok h
  obtain ⟨-, -, h⟩ := bind_eq_ok h
  cases h
  exact computeWeight_eq_ok hw

theorem checkOptions_eq_ok {sc : SetConfig} (h : c.checkOptions cfg key value sc = .ok weight) :
    1 ≤ weight ∧ weight ≤ maxEntryWeight := by
  unfold checkOptions at h
  split_ifs at h
  obtain ⟨-, -, h⟩ := bind_eq_ok h
  obtain ⟨-, -, h⟩ := bind_eq_ok h
  unfold optionWeight at h
  split_ifs at h
  · cases h
    exact ⟨one_le_clampWeight _, clampWeight_le _⟩
  · exact computeWeight_eq_ok h

/-- A prepared promotion has a weight within the limits. -/
theorem preparePromotion_eq_ok {storeExpireAt weight : ℤ}
    (h : c.preparePromotion cfg key value storeExpireAt = .ok weight) :
    1 ≤ weight ∧ weight ≤ maxEntryWeight := by
  unfold preparePromotion at h
  split_ifs at h
  obtain ⟨-, -, h⟩ := bind_eq_ok h
  obtain ⟨w, hw, h⟩ := bind_eq_ok h
  obtain ⟨-, -, h⟩ := bind_eq_ok h
  cases h
  exact computeWeight_eq_ok hw

theorem admitSnapshotRecord_eq_some {snap snap' : SnapRecord K V}
    (h : admitSnapshotRecord cfg c snap = some snap') :
    snap'.key = snap.key ∧ 1 ≤ snap'.weight ∧ snap'.weight ≤ maxEntryWeight := by
  simp only [admitSnapshotRecord] at h
  split_ifs at h <;> cases h
  · exact ⟨rfl, cfg.one_le_weighOf _, cfg.weighOf_le _⟩
  · exact ⟨rfl, one_le_clampWeight _, clampWeight_le _⟩

end Checks

/-! ### Under one lock -/

namespace Working

variable [NeZero n] {cfg : Config K V} {env : Env K} {T : Licence K V}
  {M R : Cache K V n → Cache K V n → Prop} (h : Working cfg env T M R) (c : Cache K V n)
  {b : Cache K V n} {key : K} {value : V} {f : Cache K V n → Fin n → Cache K V n}
include h

theorem still : M c c := h.within (h.refl c)

theorem foldl {α : Type*} {f : Cache K V n → α → Cache K V n} {l : List α}
    (hf : ∀ a ∈ l, ∀ c, R c (f c a)) : R c (l.foldl f c) := by
  induction l generalizing c with
  | nil => exact h.refl c
  | cons a l ih =>
    exact h.trans (hf a List.mem_cons_self c) (ih _ fun b hb ↦ hf b (List.mem_cons_of_mem _ hb))

theorem eachShard (hf : ∀ c i, R c (f c i)) : R c (c.eachShard f) :=
  h.foldl c fun i _ c ↦ hf c i

theorem release (i : Fin n) : M c (c.releaseShard i) :=
  h.within (h.beside ⟨core_releaseShard c i, id, id⟩)

variable {c} in
/-- A section that ends by releasing its lock. -/
theorem flush (hc : M b c) (i : Fin n) : R b (c.flushAndUnlock cfg env i) :=
  h.shed (h.chain hc (h.release c i)) rfl (some i)

theorem removeAll (i : Fin n) (reason : EvictionReason) (ids : List ℕ) :
    M c (removeAll cfg env i reason ids c) := by
  induction ids generalizing c with
  | nil => exact h.still c
  | cons id ids ih =>
    unfold Cache.removeAll
    split
    · exact ih c
    · next e he => exact h.chain (h.remove c i reason (Table.mem_of_byId he)) (ih _)

theorem removeKeys (i : Fin n) (reason : EvictionReason) (keys : List K) :
    M c (removeKeys cfg env i reason keys c) := by
  induction keys generalizing c with
  | nil => exact h.still c
  | cons key keys ih =>
    unfold Cache.removeKeys
    split
    · exact ih c
    · next e he => exact h.chain (h.remove c i reason (Table.mem_of_get he)) (ih _)

theorem count (st : Stats) : M c { c with stats := st } := h.within (h.beside ⟨rfl, id, id⟩)

theorem removeExpired (i : Fin n) (ids : List ℕ) : M c (removeExpired cfg env i ids c) := by
  induction ids generalizing c with
  | nil => exact h.still c
  | cons id ids ih =>
    simp only [Cache.removeExpired]
    split
    · exact ih c
    · next e he =>
      exact h.chain (h.chain (h.remove c i .expired (Table.mem_of_byId he)) (h.count _ _)) (ih _)

/-! ### Groups and the queue -/

theorem removeAndFlush (key : K) (reason : EvictionReason) :
    R c (c.removeAndFlush cfg env key reason) := by
  simp only [Cache.removeAndFlush]
  split
  · exact h.flush (h.still c) _
  · next e he => exact h.flush (h.remove c _ reason (Table.mem_of_get he)) _

theorem shrinkGroup (tag : String) (capacity fuel : ℕ) :
    R c (shrinkGroup cfg env tag capacity fuel c) := by
  induction fuel generalizing c with
  | zero => exact h.refl c
  | succ fuel ih =>
    unfold Cache.shrinkGroup
    split_ifs
    · exact h.refl c
    · split
      · exact h.refl c
      · exact h.trans (h.removeAndFlush c _ .tag) (ih _)

theorem enforceGroupBudgets (tags : List String) : R c (c.enforceGroupBudgets cfg env tags) := by
  refine h.foldl c fun tag _ c ↦ ?_
  split
  · exact h.refl c
  · exact h.shrinkGroup c tag _ _

variable {c} in
theorem unlockAfter (hc : M b c) (i : Fin n) (tags : List String) :
    R b (c.unlockAfter cfg env i tags) :=
  h.shed (h.chain (h.chain hc (h.release c i)) (h.within (h.enforceGroupBudgets _ tags))) rfl _

theorem applyPendingKey (key : K) : R c (c.applyPendingKey cfg env key) := by
  simp only [Cache.applyPendingKey]
  split_ifs
  · exact h.unlockAfter (h.unqueue c _ key) _ _
  · exact h.refl c

theorem drainShard (i : Fin n) : R c (c.drainShard cfg env i) := by
  simp only [Cache.drainShard]
  split_ifs
  · exact h.refl c
  · refine h.trans (h.flush (h.drain c i) i) (h.foldl _ fun op _ c ↦ ?_)
    split_ifs
    · exact h.enforceGroupBudgets c op.tags
    · exact h.refl c

theorem applyAllPending : R c (c.applyAllPending cfg env) := by
  unfold Cache.applyAllPending
  split_ifs
  · exact h.foldl c fun i _ c ↦ h.drainShard c i
  · exact h.refl c

/-! ### Writes -/

section Writes

variable (hkey : T.takes (shardFor cfg key : Fin n) key)
include hkey

theorem asyncSet (ha : cfg.asyncWrites) (ttl : ℤ) (sliding : Bool) (tags : List String) :
    R c (c.asyncSet cfg env key value ttl sliding tags).2 := by
  unfold Cache.asyncSet
  split
  · exact h.refl c
  · next w hw => exact h.enqueue c _ ha fun _ ↦ ⟨hkey, c.checkSet_eq_ok hw⟩

theorem setTTL (ttl : ℤ) : R c (c.setTTL cfg env key value ttl).2 := by
  simp only [Cache.setTTL]
  split_ifs with ha
  · exact h.asyncSet c hkey ha _ _ _
  · split
    · exact h.shed (h.still c) rfl _
    · next w hw =>
      have hup := @h.upsert c _ _ value _ hkey (c.checkSet_eq_ok hw)
      exact h.trans (h.flush (hup _ _ _ _) _) (h.enforceGroupBudgets _ _)

theorem setWithTTL (ttl : ℤ) : R c (c.setWithTTL cfg env key value ttl).2 := by
  unfold Cache.setWithTTL
  split_ifs
  · exact h.refl c
  · exact h.setTTL c hkey ttl

theorem setWithOptions (opts : List SetOption) (guard : Bool) :
    R c (c.setWithOptions cfg env key value opts guard).2 := by
  simp only [Cache.setWithOptions]
  split
  · exact h.refl c
  · next w hw =>
    have hw := c.checkOptions_eq_ok hw
    split_ifs with ha
    · unfold asyncSetOptions
      split_ifs
      · exact h.refl c
      · exact h.enqueue c _ ha fun _ ↦ ⟨hkey, hw⟩
      · exact h.refl c
      · exact h.asyncSet c hkey ha _ _ _
    · exact h.flush (h.still c) _
    · refine h.trans (h.flush ?_ _) (h.enforceGroupBudgets _ _)
      unfold upsertOptionsLocked
      split_ifs
      · exact h.upsertAt c _ hkey hw _ _
      · exact h.upsert c _ hkey hw _ _ _ _

end Writes

theorem keyed (hf : ∀ c, M c (f c (shardFor cfg key))) : R c (c.keyed cfg env key f) :=
  h.unlockAfter (h.chain (h.unqueue c _ key) (hf _)) _ _

theorem onKey (hf : ∀ c, M c (f c (shardFor cfg key))) : R c (c.onKey cfg env key f) := by
  unfold Cache.onKey
  split_ifs
  · exact h.refl c
  · exact h.flush (h.chain (h.within (h.applyPendingKey c key)) (hf _)) _

theorem setConditional (kind : Conditional) (hkey : T.takes (shardFor cfg key : Fin n) key) :
    R c (c.setConditional cfg env kind key value) := by
  unfold Cache.setConditional
  split
  · exact h.refl c
  · next w hw =>
    refine h.keyed c fun d ↦ ?_
    have hup := @h.upsert d (shardFor cfg key) _ value _ hkey (c.checkSet_eq_ok hw)
    unfold conditionalLocked
    split
    · exact h.still d
    · exact hup _ _ _ _
    · next e he => exact h.touch d _ (Table.mem_of_get (d.freshEntryLocked_eq_some _ he).1)
    · exact h.still d
    · exact hup _ _ _ _

theorem getWithExpiry : R c (c.getWithExpiry cfg env key) := by
  refine h.onKey c fun c ↦ ?_
  split
  · exact h.still c
  · next e he =>
    have hmem := Table.mem_of_get he
    split_ifs
    · exact h.chain (h.remove c _ _ hmem) (h.count _ _)
    · exact h.still c
    · exact h.touch c _ hmem

theorem touchKey (ttl : Option ℤ) : R c (c.touch cfg env key ttl) := by
  unfold Cache.touch
  split_ifs
  · exact h.refl c
  · refine h.onKey c fun c ↦ ?_
    split
    · exact h.still c
    · next e he => exact h.extend c _ _ (Table.mem_of_get (c.freshEntryLocked_eq_some _ he).1)

/-! ### Computed values -/

/-- A computed value replaces the key's data either way. -/
theorem storeComputedLocked (i : Fin n) {weight : ℤ}
    (hkey : c.freshEntryLocked cfg env i key = none → T.takes i key)
    (hw : 1 ≤ weight ∧ weight ≤ maxEntryWeight) :
    M c (c.storeComputedLocked cfg env i key value weight) := by
  unfold Cache.storeComputedLocked
  split
  · next e he => exact h.replace c i (c.freshEntryLocked_eq_some i he).1 hw
  · next hnone => exact h.upsert c i (hkey hnone) hw _ _ _ _

theorem compute (fn : Option V → ComputeResult V)
    (hkey : (∃ v, fn none = .store v) → T.takes (shardFor cfg key : Fin n) key) :
    R c (c.compute cfg env key fn) := by
  unfold Cache.compute
  split_ifs
  · exact h.refl c
  · refine h.keyed c fun c ↦ ?_
    unfold computeLocked
    split
    · next _ value hfn =>
      unfold computeStoreLocked
      split
      · exact h.still c
      · next w hw =>
        refine h.storeComputedLocked c _ (fun hnone ↦ hkey ⟨value, ?_⟩) (computeWeight_eq_ok hw)
        simpa [hnone] using hfn
    · next e _ he =>
      exact h.remove c _ .computed (Table.mem_of_get (c.freshEntryLocked_eq_some _ he).1)
    all_goals exact h.still c

theorem computeIfPresent (fn : V → ComputeResult V) : R c (c.computeIfPresent cfg env key fn) :=
  h.compute c _ nofun

theorem computeIfAbsent (res : Option (V × ℤ)) (hkey : T.takes (shardFor cfg key : Fin n) key) :
    R c (c.computeIfAbsent cfg env key res) := by
  unfold Cache.computeIfAbsent
  split_ifs
  · exact h.refl c
  · refine h.keyed c fun c ↦ ?_
    unfold computeIfAbsentLocked
    split
    · exact h.still c
    · exact h.still c
    · split
      · exact h.still c
      · split
        · exact h.still c
        · next w hw => exact h.upsert c _ hkey (computeWeight_eq_ok hw) _ _ _ _

/-! ### Removals -/

theorem deleteKey (reason : EvictionReason) : R c (c.deleteKey cfg env key reason) := by
  unfold Cache.deleteKey
  split_ifs
  · exact h.refl c
  · exact h.keyed c fun c ↦ h.removeKey c _ key reason

theorem delete [Inhabited V] : R c (c.delete cfg env key) := by
  unfold Cache.delete
  split_ifs with ha
  · exact h.deleteKey c .deleted
  · exact h.refl c
  · exact h.trans (h.enqueue c _ (by simpa using ha) fun hk ↦ by cases hk)
      (h.beside ⟨rfl, id, id⟩)

theorem deleteIf (pred : V → Bool) : R c (c.deleteIf cfg env key pred) := by
  refine h.onKey c fun c ↦ ?_
  split
  · exact h.still c
  · next e he =>
    split_ifs
    · exact h.chain (h.remove c _ .deleted (Table.mem_of_get (c.freshEntryLocked_eq_some _ he).1))
        (h.count _ _)
    · exact h.still c

theorem deleteExpired : R c (c.deleteExpired cfg env) := by
  unfold Cache.deleteExpired
  split_ifs
  · exact h.refl c
  · exact h.eachShard c fun c i ↦ h.flush (h.removeExpired c i _) i

theorem deletePrefixShard (matcher : K → Bool) (i : Fin n) :
    R c (deletePrefixShard cfg env matcher c i) :=
  h.flush (h.chain (h.flights c i (f := (·.supersedeMatching matcher))
    (.supersedeMatching _ matcher) (.supersedeMatching _ matcher)) (h.removeAll _ i .deletedPrefix _)) i

theorem deletePrefix (matcher : Option (K → Bool)) : R c (c.deletePrefix cfg env matcher) := by
  unfold Cache.deletePrefix
  split_ifs
  · exact h.refl c
  · split
    · exact h.applyAllPending c
    · exact h.trans (h.applyAllPending c)
        (h.eachShard _ fun c i ↦ h.deletePrefixShard c _ i)

theorem deleteWhere (pred : K → V → Bool) : R c (c.deleteWhere cfg env pred) := by
  unfold Cache.deleteWhere
  split_ifs
  · exact h.refl c
  · refine h.trans (h.applyAllPending c) (h.eachShard _ fun c i ↦ ?_)
    simp only [deleteWhereShard]
    split_ifs
    · exact h.refl c
    · exact h.flush (h.removeKeys c i .deletedWhere _) i

theorem invalidateTags (tags : List String) : R c (c.invalidateTags cfg env tags) := by
  unfold Cache.invalidateTags
  split_ifs
  · exact h.refl c
  · exact h.trans (h.applyAllPending c) (h.foldl _ fun key _ c ↦ h.removeAndFlush c key .tag)

/-! ### Loads -/

theorem startRefreshLocked (i : Fin n) (hkey : T.takes i key) : M c (c.startRefreshLocked i key) := by
  unfold Cache.startRefreshLocked
  split_ifs with hin
  · exact h.still c
  · exact h.flights c i (f := (·.startFlight key)) (.start _ key hkey (by simpa using hin))
      (.startFlight _ key)

theorem triggerAsyncRefreshLocked (i : Fin n) (hkey : T.takes i key) :
    M c (c.triggerAsyncRefreshLocked cfg i key) := by
  unfold Cache.triggerAsyncRefreshLocked
  split_ifs
  · exact h.startRefreshLocked c i hkey
  · exact h.still c

variable {c} in
theorem serveLoadHitLocked (i : Fin n) (hkey : T.takes i key) {v : V} {c' : Cache K V n}
    (hs : c.serveLoadHitLocked cfg env i key = some (v, c')) : M c c' := by
  unfold Cache.serveLoadHitLocked at hs
  split at hs
  · cases hs
  · next e he =>
    have hmem := Table.mem_of_get he
    have hstart : e ∈ ((c.startRefreshLocked i key).shards i).storage := by simpa using hmem
    split_ifs at hs
    · cases hs
      split_ifs
      · exact h.chain (h.startRefreshLocked c i hkey) (h.touch _ i hstart)
      · exact h.touch c i hmem
    · cases hs
      exact h.chain (h.startRefreshLocked c i hkey) (h.stale _ i hstart)

theorem joinOrStart (i : Fin n) (hkey : T.takes i key) (allow : Bool) :
    M c (c.joinOrStart i key allow).2 := by
  unfold Cache.joinOrStart
  split
  · next id _ => exact h.flights c i (f := (·.join id)) (.join _ id) (.join _ id)
  · next hnone =>
    split_ifs
    · exact h.flights c i (f := (·.startFlight key)) (.start _ key hkey hnone) (.startFlight _ key)
    · exact h.still c

theorem loadOrJoinLocked (i : Fin n) (hkey : T.takes i key) (allow : Bool) :
    M c (c.loadOrJoinLocked cfg env i key allow).2 := by
  unfold Cache.loadOrJoinLocked
  split
  · next hs => exact h.serveLoadHitLocked i hkey hs
  · split_ifs
    · exact h.still c
    · split
      · exact h.still c
      · refine h.chain (h.within (h.beside ⟨core_dropCachedError .., ?_, ?_⟩))
          (h.joinOrStart _ i hkey allow)
        all_goals
          unfold dropCachedError
          split_ifs <;> exact id

theorem getOrLoad (hkey : T.takes (shardFor cfg key : Fin n) key) (allow : Bool) :
    R c (c.getOrLoad cfg env key allow) := by
  unfold Cache.getOrLoad
  split_ifs
  · exact h.refl c
  · exact h.trans (h.applyPendingKey c key) (h.flush (h.loadOrJoinLocked _ _ hkey allow) _)

theorem leaveLoad (i : Fin n) (id : ℕ) : R c (c.leaveLoad cfg env i id) :=
  h.flush (h.flights c i (f := (·.leave id)) (.leave _ id) (.leave _ id)) i

theorem refresh (hkey : T.takes (shardFor cfg key : Fin n) key) : R c (c.refresh cfg env key) := by
  unfold Cache.refresh
  split_ifs
  · exact h.refl c
  · exact h.flush (h.triggerAsyncRefreshLocked c _ hkey) _

theorem storeLoadedLocked (i : Fin n) (hkey : T.takes i key) (ttl : ℤ) :
    M c (c.storeLoadedLocked cfg env i key value ttl) := by
  unfold Cache.storeLoadedLocked
  split
  · exact h.still c
  · next w hw => exact h.upsert c i hkey (computeWeight_eq_ok hw) _ _ _ _

/-- The end of a load, up to the release of the lock. -/
theorem applyLoadResultLocked [Inhabited V] {i : Fin n} {id : ℕ} {f : Flight K} {res : LoadResult V}
    (hT : c.TombstoneOk cfg T.toPermits i id res) (hf : (c.shards i).flights.flight id = some f) :
    M c ((c.endFlight i f).applyLoadResultLocked cfg env i f res) := by
  refine h.finish hf fun hkey ↦ ?_
  unfold Cache.applyLoadResultLocked
  split
  · exact h.still _
  · next hsup =>
    simp only [Bool.or_eq_true, not_or, Bool.not_eq_true] at hsup
    split
    · exact h.storeLoadedLocked _ i hkey _
    · split_ifs with hneg
      · refine h.tombstone _ i hkey fun e he hs ↦ ?_
        refine hT f e hf hsup.1 hsup.2 hs hneg ?_
        simpa [endFlight] using he
      · exact h.still _
    · exact h.still _
    · exact h.still _
    · split_ifs
      · exact h.within (h.beside ⟨core_cacheErrorLocked .., fun hc ↦ hc, fun hc ↦ hc⟩)
      · exact h.still _
    · exact h.still _

theorem finishLoad [Inhabited V] (i : Fin n) (id : ℕ) (res : LoadResult V)
    (hT : c.TombstoneOk cfg T.toPermits i id res) : R c (c.finishLoad cfg env i id res) := by
  unfold Cache.finishLoad
  split
  · exact h.refl c
  · next f hf => exact h.flush (h.applyLoadResultLocked c hT hf) i

theorem storeBulkLoaded (hkey : T.takes (shardFor cfg key : Fin n) key) (ttl : ℤ) (w : ℕ) :
    R c (c.storeBulkLoaded cfg env key value ttl w) := by
  refine h.flush ?_ _
  split_ifs
  · exact h.storeLoadedLocked c _ hkey ttl
  · exact h.still c

/-! ### Store traffic, snapshots and maintenance -/

theorem promoteKey (hkey : T.takes (shardFor cfg key : Fin n) key) (storeExpireAt : ℤ) :
    R c (c.promote cfg env key value storeExpireAt) := by
  refine h.flush ?_ _
  split_ifs
  · exact h.promote c _ storeExpireAt hkey fun _ ↦ c.preparePromotion_eq_ok
  · exact h.still c

theorem reset : R c (c.reset cfg env) :=
  h.trans (h.applyAllPending c) (h.eachShard _ fun c i ↦ h.flush (h.clear c i) i)

theorem clearAll : R c (c.clear cfg env) := by
  unfold Cache.clear
  split_ifs
  · exact h.refl c
  · exact h.reset c

theorem close : R c (c.close cfg env) := by
  unfold Cache.close
  split_ifs
  · exact h.refl c
  · have hclosed : R c c.markClosed := h.beside ⟨rfl, fun _ ↦ rfl, id⟩
    have hsealed (c : Cache K V n) : R c c.markSealed := h.beside ⟨rfl, id, fun _ ↦ rfl⟩
    have hstop (c : Cache K V n) : R c c.stopAllJanitors :=
      h.eachShard c fun c i ↦ h.beside ⟨c.core_modify_eq i rfl, id, id⟩
    exact h.trans (h.trans (h.trans (h.trans hclosed (h.applyAllPending _)) (hsealed _)) (hstop _))
      (h.reset _)

theorem resize (hT : T.resize) (newSize : ℕ) : R c (c.resize cfg env newSize) := by
  unfold Cache.resize
  split_ifs
  · exact h.refl c
  · refine h.shed ?_ rfl _
    exact Runs.invariant (I := M c) (fun d i hd ↦ h.chain hd (h.resizeShard d i hT))
      (h.bound c newSize hT) _

theorem loadRecord {snap : SnapRecord K V}
    (hkey : T.takes (shardFor cfg snap.key : Fin n) snap.key) : R c (c.loadRecord cfg env snap) := by
  unfold Cache.loadRecord
  split_ifs
  · exact h.refl c
  · split
    · exact h.refl c
    · next snap' hs =>
      obtain ⟨hk, hw⟩ := c.admitSnapshotRecord_eq_some hs
      rw [← hk] at hkey
      exact h.flush (h.snapshot c _ hkey hw) _

theorem loadInto (clearFirst : Bool) {staged : List (SnapRecord K V)}
    (hkey : ∀ snap ∈ staged, T.takes (shardFor cfg snap.key : Fin n) snap.key) :
    R c (c.loadInto cfg env clearFirst staged) := by
  have hrecords (c : Cache K V n) : R c (staged.foldl (fun c snap ↦ c.loadRecord cfg env snap) c) :=
    h.foldl c fun snap hs c ↦ h.loadRecord c (hkey snap hs)
  unfold Cache.loadInto
  split_ifs
  · exact h.refl c
  · exact h.trans (h.reset c) (hrecords _)
  · exact hrecords c

end Working

end Cache

/-- An operation that does what `T` permits. -/
def Op.Permitted (cfg : Config K V) (T : Permits K V) (c : Cache K V n) : Op K V n → Prop
  | .finishLoad i id res => c.TombstoneOk cfg T i id res
  | .resize _ => T.resize
  | _ => True

theorem Cache.tombstoneOk_of_permits {cfg : Config K V} {T : Permits K V} (ht : ∀ e, T.tombstone e) (c : Cache K V n) (i : Fin n) (id : ℕ)
    (res : Cache.LoadResult V) : c.TombstoneOk cfg T i id res := by
  unfold Cache.TombstoneOk
  split
  · exact fun _ e _ _ _ _ _ _ ↦ ht e
  · exact trivial

/-- Where tombstones are permitted, only a resize asks for something. -/
theorem Op.permitted_of_permits {cfg : Config K V} {T : Permits K V} (ht : ∀ e, T.tombstone e) (c : Cache K V n) {op : Op K V n}
    (hr : ∀ newSize, op = .resize newSize → T.resize) : op.Permitted cfg T c := by
  cases op with
  | finishLoad i id res => exact c.tombstoneOk_of_permits ht i id res
  | resize newSize => exact hr newSize rfl
  | _ => exact trivial

/-- The operations the rule does not cover: a read counts outside of any section, and a watch is
neither marked nor kept when it starts or ends. -/
def Op.Apart : Op K V n → Prop
  | .get _ | .watchKey _ | .unwatchKey _ _ => True
  | _ => False

/-- **Whatever the sections of an operation do, the operation does.** -/
theorem Cache.Working.step [NeZero n] [Inhabited V] {cfg : Config K V} {env : Env K}
    {T : Licence K V} {M R : Cache K V n → Cache K V n → Prop} (h : Cache.Working cfg env T M R)
    (c : Cache K V n) {op : Op K V n} (hkeys : ∀ k ∈ op.keys, T.takes (Cache.shardFor cfg k : Fin n) k)
    (hT : op.Permitted cfg T.toPermits c) (hsweep : ∀ i, op = .sweep i → T.sweep)
    (hapart : op.Apart → R c (step cfg env c op)) : R c (step cfg env c op) := by
  cases op with
  | get key => exact hapart trivial
  | watchKey key => exact hapart trivial
  | unwatchKey key w => exact hapart trivial
  | getWithExpiry key => exact h.getWithExpiry c
  | touch key ttl => exact h.touchKey c ttl
  | set key value => exact h.setTTL c (hkeys key List.mem_cons_self) _
  | setWithTTL key value ttl => exact h.setWithTTL c (hkeys key List.mem_cons_self) ttl
  | setWithOptions key value opts guard =>
    exact h.setWithOptions c (hkeys key List.mem_cons_self) opts guard
  | setConditional kind key value => exact h.setConditional c kind (hkeys key List.mem_cons_self)
  | compute key fn => exact h.compute c fn fun _ ↦ hkeys key List.mem_cons_self
  | computeIfAbsent key res => exact h.computeIfAbsent c res (hkeys key List.mem_cons_self)
  | computeIfPresent key fn => exact h.computeIfPresent c fn
  | update key fn => exact h.computeIfPresent c _
  | compareAndSwap key same newValue => exact h.computeIfPresent c _
  | delete key => exact h.delete c
  | deleteWithReason key reason => exact h.deleteKey c reason
  | deleteIf key pred => exact h.deleteIf c pred
  | deleteWhere pred => exact h.deleteWhere c pred
  | deletePrefix matcher => exact h.deletePrefix c matcher
  | deleteExpired => exact h.deleteExpired c
  | invalidateTags tags => exact h.invalidateTags c tags
  | getOrLoad key allow => exact h.getOrLoad c (hkeys key List.mem_cons_self) allow
  | leaveLoad i id => exact h.leaveLoad c i id
  | refresh key => exact h.refresh c (hkeys key List.mem_cons_self)
  | finishLoad i id res => exact h.finishLoad c i id res hT
  | storeBulkLoaded key value ttl w => exact h.storeBulkLoaded c (hkeys key List.mem_cons_self) ttl w
  | promote key value storeExpireAt =>
    exact h.promoteKey c (hkeys key List.mem_cons_self) storeExpireAt
  | rollbackInMemory key => exact h.removeAndFlush c key .storeRollback
  | applyPendingKey key => exact h.applyPendingKey c key
  | drainShard i => exact h.drainShard c i
  | sweep i => exact h.flush (h.sweep c i (hsweep i rfl)) i
  | applyUntag =>
    have hswitches : (c.applyUntag cfg).closed = c.closed ∧ (c.applyUntag cfg).sealed = c.sealed := by
      unfold Cache.applyUntag
      split <;> exact ⟨rfl, rfl⟩
    exact h.beside ⟨Cache.core_applyUntag .., hswitches.1.trans, hswitches.2.trans⟩
  | loadInto clearFirst staged =>
    exact h.loadInto c clearFirst fun snap hs ↦ hkeys snap.key (List.mem_map_of_mem hs)
  | clear => exact h.clearAll c
  | reset => exact h.reset c
  | resize newSize => exact h.resize c hT newSize
  | close => exact h.close c

end Memcache
