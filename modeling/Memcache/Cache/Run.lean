import Memcache.Cache.Ops
import Memcache.Lib.Runs

/-!
# Maintenance and runs

The operations that work on the cache as a whole, and the runs every reachable state comes from. A
**run** is a list of operations, each with the environment it meets; nothing restricts their order,
so a load may finish at any point after it started, a queued write may be drained late or early, and
the janitor may tick or not.
-/

namespace Memcache

variable {K V : Type*} {n : ℕ}

namespace Cache

variable [BEq K] [NeZero n] (cfg : Config K V) (env : Env K) (c : Cache K V n)

/-! ### Maintenance -/

/-- One tick of a shard's janitor. -/
def sweep (i : Fin n) : Cache K V n :=
  (c.sweepExpiredLocked cfg env i).flushAndUnlock cfg env i

/-- Apply the first queued untag. A tag the key's current entry carries is kept. -/
def applyUntag : Cache K V n :=
  match c.untagQueue with
  | [] => c
  | (key, tags) :: rest =>
    let current := ((c.lookupKey cfg key).map Entry.tags).getD []
    { c with
      keysByTag := untag key (tags.filter fun t ↦ t ∉ current) c.keysByTag
      untagQueue := rest }

/-- `Reset`: empty every shard. -/
def reset : Cache K V n :=
  (c.applyAllPending cfg env).eachShard fun c i ↦ (c.clearShard cfg i).flushAndUnlock cfg env i

/-- `Clear`: as `Reset`, on an open cache. -/
def clear : Cache K V n :=
  if c.closed then c else c.reset cfg env

/-- Refuse calls from now on. -/
def markClosed : Cache K V n := { c with closed := true }

/-- Refuse inserts from now on. -/
def markSealed : Cache K V n := { c with sealed := true }

def stopAllJanitors : Cache K V n :=
  c.eachShard fun c i ↦ c.modify i fun s ↦ { s with janitorRunning := false }

/-- `Close`: drain, seal, stop the janitors, empty. -/
def close : Cache K V n :=
  if c.closed then c
  else (c.markClosed.applyAllPending cfg env).markSealed.stopAllJanitors.reset cfg env

/-- The live bound a resize changes: bytes when the cache was built with a byte bound. -/
def withBound (newSize : ℕ) : Cache K V n :=
  if 0 < cfg.maxBytes then { c with maxBytes := newSize } else { c with maxEntries := newSize }

/-- Give one shard its new budget and evict what it holds above it. -/
def resizeShard (i : Fin n) : Cache K V n :=
  let per := perShardBudget c.maxEntries n
  let c := c.modify i fun s ↦ { s with budget := per, policy := s.policy.setBudget per }
  -- shard budgets only; the sweep afterwards spreads the rest
  ((c.evictOverBudgetLocked cfg env i .resize (2 ^ 63 - 1)).1).releaseShard i

/-- `Resize`. -/
def resize (newSize : ℕ) : Cache K V n :=
  if c.closed ∨ newSize = 0 then c
  else ((c.withBound cfg newSize).eachShard (resizeShard cfg env)).shedOverBudget cfg env .resize none

/-! ### Snapshots -/

/-- Load one record: an expired one, or one over the cache's limits, is skipped. -/
def loadRecord (snap : SnapRecord K V) : Cache K V n :=
  if snap.expireAt ≠ 0 ∧ snap.expireAt ≤ env.now then c
  else
    match admitSnapshotRecord cfg c snap with
    | none => c
    | some snap =>
      (c.applySnapshotLocked cfg env (shardFor cfg snap.key) snap).flushAndUnlock cfg env
        (shardFor cfg snap.key)

/-- `Load` of decoded records, and `Merge` when the cache is not emptied first. -/
def loadInto (clearFirst : Bool) (staged : List (SnapRecord K V)) : Cache K V n :=
  if c.closed then c
  else staged.foldl (fun c snap ↦ c.loadRecord cfg env snap)
    (if clearFirst then c.reset cfg env else c)

end Cache

/-! ### Runs -/

/-- An operation of the cache, with what its user code returns. -/
inductive Op (K V : Type*) (n : ℕ) where
  | get (key : K)
  | getWithExpiry (key : K)
  | touch (key : K) (ttl : Option ℤ)
  | set (key : K) (value : V)
  | setWithTTL (key : K) (value : V) (ttl : ℤ)
  | setWithOptions (key : K) (value : V) (opts : List SetOption) (guard : Bool)
  | setConditional (kind : Cache.Conditional) (key : K) (value : V)
  | compute (key : K) (fn : Option V → Cache.ComputeResult V)
  | computeIfAbsent (key : K) (res : Option (V × ℤ))
  | computeIfPresent (key : K) (fn : V → Cache.ComputeResult V)
  | update (key : K) (fn : V → V)
  | compareAndSwap (key : K) (same : V → Bool) (newValue : V)
  | delete (key : K)
  | deleteWithReason (key : K) (reason : EvictionReason)
  | deleteIf (key : K) (pred : V → Bool)
  | deleteWhere (pred : K → V → Bool)
  | deletePrefix (matcher : Option (K → Bool))
  | deleteExpired
  | invalidateTags (tags : List String)
  | getOrLoad (key : K) (allow : Bool)
  | leaveLoad (shard : Fin n) (flight : ℕ)
  | refresh (key : K)
  | finishLoad (shard : Fin n) (flight : ℕ) (res : Cache.LoadResult V)
  | watchKey (key : K)
  | unwatchKey (key : K) (w : ℕ)
  | storeBulkLoaded (key : K) (value : V) (ttl : ℤ) (w : ℕ)
  | promote (key : K) (value : V) (storeExpireAt : ℤ)
  | rollbackInMemory (key : K)
  | applyPendingKey (key : K)
  | drainShard (shard : Fin n)
  | sweep (shard : Fin n)
  | applyUntag
  | loadInto (clearFirst : Bool) (staged : List (Cache.SnapRecord K V))
  | clear
  | reset
  | resize (newSize : ℕ)
  | close

/-- The state after one operation. -/
def step [BEq K] [NeZero n] [Inhabited V] (cfg : Config K V) (env : Env K) (c : Cache K V n) :
    Op K V n → Cache K V n
  | .get key => (c.get cfg env key).2
  | .getWithExpiry key => c.getWithExpiry cfg env key
  | .touch key ttl => c.touch cfg env key ttl
  | .set key value => (c.set cfg env key value).2
  | .setWithTTL key value ttl => (c.setWithTTL cfg env key value ttl).2
  | .setWithOptions key value opts guard => (c.setWithOptions cfg env key value opts guard).2
  | .setConditional kind key value => c.setConditional cfg env kind key value
  | .compute key fn => c.compute cfg env key fn
  | .computeIfAbsent key res => c.computeIfAbsent cfg env key res
  | .computeIfPresent key fn => c.computeIfPresent cfg env key fn
  | .update key fn => c.update cfg env key fn
  | .compareAndSwap key same newValue => c.compareAndSwap cfg env key same newValue
  | .delete key => c.delete cfg env key
  | .deleteWithReason key reason => c.deleteKey cfg env key reason
  | .deleteIf key pred => c.deleteIf cfg env key pred
  | .deleteWhere pred => c.deleteWhere cfg env pred
  | .deletePrefix matcher => c.deletePrefix cfg env matcher
  | .deleteExpired => c.deleteExpired cfg env
  | .invalidateTags tags => c.invalidateTags cfg env tags
  | .getOrLoad key allow => c.getOrLoad cfg env key allow
  | .leaveLoad i id => c.leaveLoad cfg env i id
  | .refresh key => c.refresh cfg env key
  | .finishLoad i id res => c.finishLoad cfg env i id res
  | .watchKey key => c.watchKey cfg key
  | .unwatchKey key w => c.unwatchKey cfg key w
  | .storeBulkLoaded key value ttl w => c.storeBulkLoaded cfg env key value ttl w
  | .promote key value storeExpireAt => c.promote cfg env key value storeExpireAt
  | .rollbackInMemory key => c.rollbackInMemory cfg env key
  | .applyPendingKey key => c.applyPendingKey cfg env key
  | .drainShard i => c.drainShard cfg env i
  | .sweep i => c.sweep cfg env i
  | .applyUntag => c.applyUntag cfg
  | .loadInto clearFirst staged => c.loadInto cfg env clearFirst staged
  | .clear => c.clear cfg env
  | .reset => c.reset cfg env
  | .resize newSize => c.resize cfg env newSize
  | .close => c.close cfg env

/-- One step of a run: an operation in the environment it meets. -/
def stepIn [BEq K] [NeZero n] [Inhabited V] (cfg : Config K V) (c : Cache K V n)
    (p : Env K × Op K V n) : Cache K V n :=
  step cfg p.1 c p.2

/-- The state after a run of operations. -/
def run [BEq K] [NeZero n] [Inhabited V] (cfg : Config K V) (c : Cache K V n)
    (ops : List (Env K × Op K V n)) : Cache K V n :=
  ops.foldl (stepIn cfg) c

/-- A state that a run of a fresh cache leads to. -/
def Reachable [BEq K] [NeZero n] [Inhabited V] (cfg : Config K V) (c : Cache K V n) : Prop :=
  ∃ ops, run cfg (new cfg n) ops = c

theorem Reachable.step [BEq K] [NeZero n] [Inhabited V] {cfg : Config K V} {c : Cache K V n}
    (h : Reachable cfg c) (env : Env K) (op : Op K V n) : Reachable cfg (step cfg env c op) := by
  obtain ⟨ops, rfl⟩ := h
  exact ⟨ops ++ [(env, op)], List.foldl_append ..⟩

theorem Reachable.run [BEq K] [NeZero n] [Inhabited V] {cfg : Config K V} {c : Cache K V n}
    (h : Reachable cfg c) (ops : List (Env K × Op K V n)) : Reachable cfg (run cfg c ops) := by
  obtain ⟨ops', rfl⟩ := h
  exact ⟨ops' ++ ops, List.foldl_append ..⟩

/-- The keys an operation may insert an entry or start a load for. -/
def Op.keys : Op K V n → List K
  | .set key _ | .setWithTTL key _ _ | .setWithOptions key _ _ _ | .setConditional _ key _
  | .compute key _ | .computeIfAbsent key _ | .getOrLoad key _ | .refresh key
  | .storeBulkLoaded key _ _ _ | .promote key _ _ => [key]
  | .loadInto _ staged => staged.map Cache.SnapRecord.key
  | _ => []

end Memcache
