import Memcache.Cache.OpSteps

/-!
# Critical sections

An operation takes one shard's lock after another, and between two of its sections any other thread
may run. `Locked` lists what a thread does to a shard while it holds the lock, under the source's
names; a section is a sequence of these, so **every state between two sections of any threads is
reached by them in some order**. The janitor's sweep is left out of the list: in the middle of it the
expiry backend has given up entries that are still stored.

Nothing is asked of the keys. `Licence.placed` gives a shard the keys that hash to it, whether or not
they equal themselves, and each of these actions keeps to that (`Locked.moves`).
-/

namespace Memcache

variable {K V : Type*} {n : ℕ} [BEq K] [NeZero n]

/-- Anything, for the keys that belong to a shard. -/
def Licence.placed (cfg : Config K V) (n : ℕ) [NeZero n] (sweep : Prop) : Licence K V where
  toPermits := .all
  takes i key := ((Cache.shardFor cfg key : Fin n) : ℕ) = i
  sweep := sweep

namespace Licence

variable {cfg : Config K V} {sweep : Prop}

instance [ReflBEq K] : (placed cfg n sweep).Proper := ⟨fun _ ↦ BEq.rfl⟩

end Licence

variable [Inhabited V]

/-- What a thread does while it holds a shard's lock, and to the state that has no lock. -/
inductive Locked (cfg : Config K V) (env : Env K) (c : Cache K V n) : Cache K V n → Prop where
  | countHit (i : Fin n) (e : Entry K V) (h : e ∈ (c.shards i).storage) : Locked cfg env c (c.countHit i e)
  | staleHit (i : Fin n) (e : Entry K V) (h : e ∈ (c.shards i).storage) :
      Locked cfg env c (c.staleHit cfg i e)
  | touchEntry (i : Fin n) (e : Entry K V) (h : e ∈ (c.shards i).storage) :
      Locked cfg env c (c.touchEntry cfg env i e)
  | refreshExpiryLocked (i : Fin n) (e : Entry K V) (ttl : ℤ) (h : e ∈ (c.shards i).storage) :
      Locked cfg env c (c.refreshExpiryLocked cfg env i e ttl)
  | recordReadMiss (i : Fin n) (key : K) : Locked cfg env c (c.recordReadMiss i key)
  | maybePromoteOnSlowHit (i : Fin n) (key : K) :
      Locked cfg env c (c.maybePromoteOnSlowHit cfg i key)
  | upsertLocked (key : K) (value : V) (weight ttl : ℤ) (sliding : Bool) (rawTTL : ℤ)
      (tags : List String) (h₁ : 1 ≤ weight) (h₂ : weight ≤ maxEntryWeight) :
      Locked cfg env c
        (c.upsertLocked cfg env (Cache.shardFor cfg key) key value weight ttl sliding rawTTL tags)
  | upsertWithAbsoluteExpiryLocked (key : K) (value : V) (weight expireAt : ℤ) (tags : List String)
      (h₁ : 1 ≤ weight) (h₂ : weight ≤ maxEntryWeight) :
      Locked cfg env c (c.upsertWithAbsoluteExpiryLocked cfg env (Cache.shardFor cfg key) key value
        weight expireAt tags)
  | storeComputedLocked (key : K) (value : V) (weight : ℤ) (h₁ : 1 ≤ weight)
      (h₂ : weight ≤ maxEntryWeight) :
      Locked cfg env c
        (c.storeComputedLocked cfg env (Cache.shardFor cfg key) key value weight)
  | storeLoadedLocked (key : K) (value : V) (ttl : ℤ) :
      Locked cfg env c (c.storeLoadedLocked cfg env (Cache.shardFor cfg key) key value ttl)
  | promoteLocked (key : K) (value : V) (storeExpireAt weight : ℤ) (h₁ : 1 ≤ weight)
      (h₂ : weight ≤ maxEntryWeight) :
      Locked cfg env c (c.promoteLocked cfg env (Cache.shardFor cfg key) key value storeExpireAt
        (.ok weight))
  | applySnapshotLocked (snap : Cache.SnapRecord K V) (h₁ : 1 ≤ snap.weight)
      (h₂ : snap.weight ≤ maxEntryWeight) :
      Locked cfg env c (c.applySnapshotLocked cfg env (Cache.shardFor cfg snap.key) snap)
  | enqueuePending (op : PendingOp K V) (ha : cfg.asyncWrites)
      (h : op.kind = .set → 1 ≤ op.weight ∧ op.weight ≤ maxEntryWeight) :
      Locked cfg env c (c.enqueuePending (Cache.shardFor cfg op.key) op)
  | applyPendingKeyLocked (i : Fin n) (key : K) :
      Locked cfg env c (c.applyPendingKeyLocked cfg env i key).1
  | drainQueue (i : Fin n) :
      Locked cfg env c ((c.shards i).pending.values.foldl
        (fun c op ↦ c.applyPendingOpLocked cfg env i op)
        (c.modify i fun s ↦ { s with pending := .empty }))
  | removeLocked (i : Fin n) (e : Entry K V) (reason : EvictionReason)
      (h : e ∈ (c.shards i).storage) : Locked cfg env c (c.removeLocked cfg env i e reason)
  | removeKeyLocked (i : Fin n) (key : K) (reason : EvictionReason) :
      Locked cfg env c (c.removeKeyLocked cfg env i key reason)
  | evictOverBudgetLocked (i : Fin n) (reason : EvictionReason) (keep : ℕ) :
      Locked cfg env c (c.evictOverBudgetLocked cfg env i reason keep).1
  | clearShard (i : Fin n) : Locked cfg env c (c.clearShard cfg i)
  | supersedeMatching (i : Fin n) (matcher : K → Bool) :
      Locked cfg env c
        (c.modify i fun s ↦ { s with flights := s.flights.supersedeMatching matcher })
  | startRefreshLocked (key : K) :
      Locked cfg env c (c.startRefreshLocked (Cache.shardFor cfg key) key)
  | loadOrJoinLocked (key : K) (allow : Bool) :
      Locked cfg env c (c.loadOrJoinLocked cfg env (Cache.shardFor cfg key) key allow).2
  | leave (i : Fin n) (id : ℕ) :
      Locked cfg env c (c.modify i fun s ↦ { s with flights := s.flights.leave id })
  | finish (i : Fin n) (id : ℕ) (f : Flight K) (res : Cache.LoadResult V)
      (h : (c.shards i).flights.flight id = some f) :
      Locked cfg env c ((c.endFlight i f).applyLoadResultLocked cfg env i f res)
  | watchKey (key : K) : Locked cfg env c (c.watchKey cfg key)
  | unwatchKey (key : K) (w : ℕ) : Locked cfg env c (c.unwatchKey cfg key w)
  | releaseShard (i : Fin n) : Locked cfg env c (c.releaseShard i)
  | setBudget (i : Fin n) (per : ℕ) :
      Locked cfg env c (c.modify i fun s ↦
        { s with budget := per, policy := s.policy.setBudget per })
  | withBound (newSize : ℕ) : Locked cfg env c (c.withBound cfg newSize)
  | applyUntag : Locked cfg env c (c.applyUntag cfg)
  | markClosed : Locked cfg env c c.markClosed
  | markSealed : Locked cfg env c c.markSealed

/-- **Each action is a sequence of instructions, for keys of the shard's own.** -/
theorem Locked.moves [PartialEquivBEq K] {cfg : Config K V} {env : Env K} {sweep : Prop}
    {c c' : Cache K V n} (h : Locked cfg env c c') : Moves cfg (.placed cfg n sweep) c c' := by
  have h' : Cache.Working (n := n) cfg env (.placed cfg n sweep) (Moves cfg _) (Settles cfg _) :=
    Cache.settling
  cases h with
  | countHit i e h => exact .of_steps (c.steps_countHit i h)
  | staleHit i e h => exact h'.stale c i h
  | touchEntry i e h => exact h'.touch c i h
  | refreshExpiryLocked i e ttl h => exact h'.extend c i ttl h
  | recordReadMiss i key => exact .of_steps (c.steps_recordReadMiss i key)
  | maybePromoteOnSlowHit i key => exact .of_steps (c.steps_maybePromoteOnSlowHit i key)
  | upsertLocked key value weight ttl sliding rawTTL tags h₁ h₂ =>
    exact h'.upsert c _ rfl ⟨h₁, h₂⟩ ttl sliding rawTTL tags
  | upsertWithAbsoluteExpiryLocked key value weight expireAt tags h₁ h₂ =>
    exact h'.upsertAt c _ rfl ⟨h₁, h₂⟩ expireAt tags
  | storeComputedLocked key value weight h₁ h₂ => exact h'.storeComputedLocked c _ (fun _ ↦ rfl) ⟨h₁, h₂⟩
  | storeLoadedLocked key value ttl => exact h'.storeLoadedLocked c _ rfl ttl
  | promoteLocked key value storeExpireAt weight h₁ h₂ =>
    refine h'.promote c _ storeExpireAt rfl fun w hw ↦ ?_
    cases hw
    exact ⟨h₁, h₂⟩
  | applySnapshotLocked snap h₁ h₂ => exact h'.snapshot c _ rfl ⟨h₁, h₂⟩
  | enqueuePending op ha h => exact (h'.enqueue c _ ha fun hk ↦ ⟨rfl, h hk⟩).moves
  | applyPendingKeyLocked i key => exact h'.unqueue c i key
  | drainQueue i => exact h'.drain c i
  | removeLocked i e reason h => exact h'.remove c i reason h
  | removeKeyLocked i key reason => exact h'.removeKey c i key reason
  | evictOverBudgetLocked i reason keep => exact .of_steps (c.steps_evictOverBudgetLocked i reason keep)
  | clearShard i => exact h'.clear c i
  | supersedeMatching i matcher =>
    exact h'.flights c i (f := (·.supersedeMatching matcher)) (.supersedeMatching _ matcher)
      (.supersedeMatching _ matcher)
  | startRefreshLocked key => exact h'.startRefreshLocked c _ rfl
  | loadOrJoinLocked key allow => exact h'.loadOrJoinLocked c _ rfl allow
  | leave i id => exact h'.flights c i (f := (·.leave id)) (.leave _ id) (.leave _ id)
  | finish i id f res h =>
    exact h'.applyLoadResultLocked c (c.tombstoneOk_of_permits (fun _ ↦ trivial) i id res) h
  | watchKey key => exact c.settles_watchKey.moves
  | unwatchKey key w => exact (c.settles_unwatchKey w).moves
  | releaseShard i => exact h'.release c i
  | setBudget i per =>
    exact .of_steps (.of_step (.budget c.core i per trivial) (c.core_modify i _))
  | withBound newSize => exact h'.bound c newSize trivial
  | applyUntag => exact .of_steps (.of_eq (Cache.core_applyUntag ..))
  | markClosed => exact .of_steps (.of_eq rfl)
  | markSealed => exact .of_steps (.of_eq rfl)

/-- Whole operations keep to it too. -/
theorem moves_step_placed [PartialEquivBEq K] {cfg : Config K V} {env : Env K} {op : Op K V n}
    {sweep : Prop} {c : Cache K V n} (h : ∀ i, op = .sweep i → sweep) :
    Moves cfg (.placed cfg n sweep) c (step cfg env c op) :=
  (settles_step (fun _ _ ↦ rfl) (Op.permitted_of_permits (fun _ ↦ trivial) c fun _ _ ↦ trivial) h
    fun _ _ _ ↦ rfl).moves

end Memcache
