import Memcache.Cache.Read

/-!
# The public operations

Every method of the cache that changes it, as a function on cache states. A method of the source is
one or more critical sections of a shard's lock; each ends by releasing the lock, firing the queued
callbacks and bringing the cache back within its bounds, and so do the sections here
(`flushAndUnlock`, or `unlockAfter` when a queued write was applied on the way in).

A load is two operations: the call that starts or joins it, and the end of the loader's own
goroutine, `finishLoad`. User code that runs inside a call, such as the function given to `Compute`,
the predicate of `DeleteWhere` or a loader's result, is an argument of the operation.
-/

namespace Memcache

variable {K V : Type*} {n : ℕ}

/-! ### Options of a write -/

/-- A per-call override of `SetWithOptions`. -/
inductive SetOption where
  | ttl (d : ℤ)
  | weight (w : ℤ)
  | tags (tags : List String)
  | sliding (sliding : Bool)
  | expireAt (t : ℤ)
deriving DecidableEq, Repr

/-- The accumulated overrides. An instant is in nanoseconds since the Unix epoch. -/
structure SetConfig where
  ttl : ℤ
  weight : ℤ
  tags : List String
  expireAt : ℤ
  sliding : Bool
  hasTTL : Bool
  hasWeight : Bool
  hasExpiry : Bool
  hasTags : Bool
deriving DecidableEq, Repr

/-- The zero `time.Time`: the first instant of year 1. -/
def zeroTime : ℤ := -62135596800 * 10 ^ 9

def defaultSetConfig (cfg : Config K V) : SetConfig where
  ttl := cfg.defaultTTL
  weight := 0
  tags := []
  expireAt := zeroTime
  sliding := cfg.slidingTTL
  hasTTL := false
  hasWeight := false
  hasExpiry := false
  hasTags := false

def SetOption.apply (sc : SetConfig) : SetOption → SetConfig
  | .ttl d => { sc with ttl := d, hasTTL := true }
  | .weight w => { sc with weight := w, hasWeight := true }
  | .tags ts => { sc with tags := ts, hasTags := true }
  | .sliding b => { sc with sliding := b }
  | .expireAt t => { sc with expireAt := t, hasExpiry := true }

/-- The nanoseconds of an instant, in 64 bits; `0`, for no expiry, at the zero time. -/
def expireNanos (t : ℤ) : ℤ := if t = zeroTime then 0 else wrap64 t

/-- Resolve the options of a call, with the tags of the value when none are given. -/
def resolveOptions (cfg : Config K V) (value : V) (opts : List SetOption) : SetConfig :=
  let sc := opts.foldl SetOption.apply (defaultSetConfig cfg)
  if sc.hasTags then sc else { sc with tags := cfg.autoTags value }

/-- The weight of a call: the explicit one, clamped, or the weigher's. -/
def optionWeight (cfg : Config K V) (value : V) (sc : SetConfig) : Except CacheError ℤ :=
  if sc.hasWeight then
    if 0 < cfg.maxValueWeight ∧ cfg.maxValueWeight < clampWeight sc.weight then
      .error (.capacity ⟨"explicit weight exceeds MaxValueWeight", "MaxValueWeight"⟩)
    else .ok (clampWeight sc.weight)
  else computeWeight cfg value

namespace Cache

variable [BEq K] [NeZero n] (cfg : Config K V) (env : Env K) (c : Cache K V n)

/-- The checks of `Set`: key size, weight, tag limits. The result is the weight. -/
def checkSet (key : K) (value : V) (tags : List String) : Except CacheError ℤ :=
  if c.closed then .error .closed
  else do
    checkKeySize cfg key
    let weight ← computeWeight cfg value
    checkTagLimits cfg c tags
    pure weight

/-- The checks of `SetWithOptions`, in its order. -/
def checkOptions (key : K) (value : V) (sc : SetConfig) : Except CacheError ℤ :=
  if c.closed then .error .closed
  else if sc.hasTTL ∧ sc.ttl < 0 then .error .invalidTTL
  else do
    checkKeySize cfg key
    checkTagLimits cfg c sc.tags
    optionWeight cfg value sc

/-! ### Groups -/

/-- The keys carrying a tag. -/
def tagged (tag : String) : List K :=
  ((c.keysByTag.find? fun p ↦ p.1 = tag).map Prod.snd).getD []

/-- Remove the entry under a key, if there is one, in a critical section of its own. -/
def removeAndFlush (key : K) (reason : EvictionReason) : Cache K V n :=
  let i := shardFor cfg key
  match (c.shards i).get key with
  | none => c.flushAndUnlock cfg env i
  | some e => (c.removeLocked cfg env i e reason).flushAndUnlock cfg env i

def lookupKey (key : K) : Option (Entry K V) :=
  (c.shards (shardFor cfg key)).get key

def countLiveMembers (members : List K) : ℕ :=
  (members.filter fun k ↦ (c.lookupKey cfg k).isSome).length

/-- The member inserted first; of several, the first met. -/
def findOldestMember (members : List K) : Option K :=
  (members.foldl (fun (best : Option (K × ℤ)) k ↦
    match c.lookupKey cfg k, best with
    | none, _ => best
    | some e, none => some (k, e.inserted)
    | some e, some b => if e.inserted < b.2 then some (k, e.inserted) else best) none).map Prod.fst

/-- Remove the oldest members of a group until it fits. Each round removes a stored entry. -/
def shrinkGroup (cfg : Config K V) (env : Env K) (tag : String) (capacity : ℕ) :
    ℕ → Cache K V n → Cache K V n
  | 0, c => c
  | fuel + 1, c =>
    if c.countLiveMembers cfg (c.tagged tag) ≤ capacity then c
    else
      match c.findOldestMember cfg (c.tagged tag) with
      | none => c
      | some k => shrinkGroup cfg env tag capacity fuel (c.removeAndFlush cfg env k .tag)

def enforceGroupBudgets (tags : List String) : Cache K V n :=
  tags.foldl (fun c tag ↦
    match cfg.groups.find? fun g ↦ g.1 = tag with
    | none => c
    | some g => shrinkGroup cfg env tag g.2 (c.stored + 1) c) c

/-! ### Queued writes -/

/-- Release the lock after a section that applied a queued write carrying `tags`: its callbacks, the
group budgets among them, run before the bounds are restored. -/
def unlockAfter (i : Fin n) (tags : List String) : Cache K V n :=
  ((c.releaseShard i).enforceGroupBudgets cfg env tags).shedOverBudget cfg env .capacity (some i)

/-- Apply the queued write of a key, if any. The second component is its tags. -/
def applyPendingKeyLocked (i : Fin n) (key : K) : Cache K V n × List String :=
  match (c.shards i).pending.get key with
  | none => (c, [])
  | some op =>
    ((c.modify i fun s ↦ { s with pending := s.pending.erase key }).applyPendingOpLocked cfg env i op,
      if op.kind = .set then op.tags else [])

def applyPendingKey (key : K) : Cache K V n :=
  if cfg.asyncWrites then
    let i := shardFor cfg key
    let r := c.applyPendingKeyLocked cfg env i key
    r.1.unlockAfter cfg env i r.2
  else c

/-- Apply every queued write of a shard. -/
def drainShard (i : Fin n) : Cache K V n :=
  let ops := (c.shards i).pending.values
  if ops = [] then c
  else
    let c := c.modify i fun s ↦ { s with pending := .empty }
    let c := ops.foldl (fun c op ↦ c.applyPendingOpLocked cfg env i op) c
    let c := c.flushAndUnlock cfg env i
    ops.foldl (fun c op ↦
      if op.kind = .set then c.enforceGroupBudgets cfg env op.tags else c) c

def applyAllPending : Cache K V n :=
  if cfg.asyncWrites then (List.finRange n).foldl (fun c i ↦ c.drainShard cfg env i) c else c

def enqueuePending (i : Fin n) (op : PendingOp K V) : Cache K V n :=
  c.modify i fun s ↦ { s with pending := s.pending.insert op.key op }

/-! ### Writes -/

/-- Queue a write in place of applying it. -/
def asyncSet (key : K) (value : V) (ttl : ℤ) (sliding : Bool) (tags : List String) :
    Except CacheError Unit × Cache K V n :=
  match c.checkSet cfg key value tags with
  | .error e => (.error e, c)
  | .ok weight =>
    (.ok (), c.enqueuePending (shardFor cfg key)
      { kind := .set, key := key, value := value, weight := weight,
        effectiveTTL := cfg.effectiveTTL env ttl, rawTTL := ttl, sliding := sliding, expireAt := 0,
        tags := tags })

/-- `SetWithTTL`, and `Set` with the TTL of the value or the default. -/
def setTTL (key : K) (value : V) (ttl : ℤ) : Except CacheError Unit × Cache K V n :=
  let tags := cfg.autoTags value
  let i := shardFor cfg key
  if cfg.asyncWrites then c.asyncSet cfg env key value ttl cfg.slidingTTL tags
  else
    match c.checkSet cfg key value tags with
    | .error e => (.error e, c.shedOverBudget cfg env .capacity (some i))
    | .ok weight =>
      (.ok (), ((c.upsertLocked cfg env i key value weight (cfg.effectiveTTL env ttl) cfg.slidingTTL
        ttl tags).flushAndUnlock cfg env i).enforceGroupBudgets cfg env tags)

def set (key : K) (value : V) : Except CacheError Unit × Cache K V n :=
  c.setTTL cfg env key value ((cfg.valueTTL value).getD cfg.defaultTTL)

def setWithTTL (key : K) (value : V) (ttl : ℤ) : Except CacheError Unit × Cache K V n :=
  if ttl < 0 then (.error .invalidTTL, c) else c.setTTL cfg env key value ttl

/-- The upsert of resolved options, under the shard's lock. -/
def upsertOptionsLocked (i : Fin n) (key : K) (value : V) (weight : ℤ) (sc : SetConfig) :
    Cache K V n :=
  if sc.hasExpiry then
    c.upsertWithAbsoluteExpiryLocked cfg env i key value weight (expireNanos sc.expireAt) sc.tags
  else
    c.upsertLocked cfg env i key value weight (cfg.effectiveTTL env sc.ttl) sc.sliding sc.ttl sc.tags

/-- The queued form of `SetWithOptions`. Without an absolute expiry it goes through `asyncSet`,
which weighs the value again. -/
def asyncSetOptions (key : K) (value : V) (weight : ℤ) (sc : SetConfig) (guard : Bool) :
    Except CacheError Unit × Cache K V n :=
  if sc.hasExpiry then
    if !guard then (.error .writeSuperseded, c)
    else (.ok (), c.enqueuePending (shardFor cfg key)
      { kind := .set, key := key, value := value, weight := weight, effectiveTTL := 0,
        rawTTL := sc.ttl, sliding := sc.sliding, expireAt := expireNanos sc.expireAt,
        tags := sc.tags })
  else if !guard ∧ (c.checkSet cfg key value sc.tags).isOk then (.error .writeSuperseded, c)
  else c.asyncSet cfg env key value sc.ttl sc.sliding sc.tags

/-- `SetWithOptions`. The guard is checked under the lock just before the write. -/
def setWithOptions (key : K) (value : V) (opts : List SetOption) (guard : Bool) :
    Except CacheError Unit × Cache K V n :=
  let sc := resolveOptions cfg value opts
  let i := shardFor cfg key
  match c.checkOptions cfg key value sc with
  | .error e => (.error e, c)
  | .ok weight =>
    if cfg.asyncWrites then c.asyncSetOptions cfg env key value weight sc guard
    else if !guard then (.error .writeSuperseded, c.flushAndUnlock cfg env i)
    else
      (.ok (), ((c.upsertOptionsLocked cfg env i key value weight sc).flushAndUnlock cfg env i)
        |>.enforceGroupBudgets cfg env sc.tags)

/-- A section on one key that first applies the key's queued write. -/
def keyed (key : K) (f : Cache K V n → Fin n → Cache K V n) : Cache K V n :=
  let i := shardFor cfg key
  let r := c.applyPendingKeyLocked cfg env i key
  (f r.1 i).unlockAfter cfg env i r.2

/-- The upsert of `SetIfAbsent` and its siblings, with the default TTL. -/
def upsertDefault (i : Fin n) (key : K) (value : V) (weight : ℤ) : Cache K V n :=
  c.upsertLocked cfg env i key value weight (cfg.effectiveTTL env cfg.defaultTTL) cfg.slidingTTL
    cfg.defaultTTL (cfg.autoTags value)

/-- Which of the conditional writes is called. -/
inductive Conditional where
  | setIfAbsent | setIfPresent | getOrSet | peekOrAdd
deriving DecidableEq, Repr

/-- What a conditional write does once the key's fresh entry is known. -/
def conditionalLocked (kind : Conditional) (key : K) (value : V) (weight : ℤ) (c : Cache K V n)
    (i : Fin n) : Cache K V n :=
  match kind, c.freshEntryLocked cfg env i key with
  | .setIfPresent, none => c
  | .setIfPresent, some _ => c.upsertDefault cfg env i key value weight
  | .getOrSet, some e => c.touchEntry cfg env i e
  | _, some _ => c
  | _, none => c.upsertDefault cfg env i key value weight

def setConditional (kind : Conditional) (key : K) (value : V) : Cache K V n :=
  match c.checkSet cfg key value (cfg.autoTags value) with
  | .error _ => c
  | .ok weight => c.keyed cfg env key (conditionalLocked cfg env kind key value weight)

/-! ### Computed values -/

/-- What the function given to `Compute` asks for. -/
inductive ComputeResult (V : Type*) where
  | store (value : V)
  | delete
  | noOp
  | error
deriving DecidableEq, Repr

/-- Store a computed value, in place when the key has a fresh entry. A value over the weight limit
is refused. -/
def computeStoreLocked (key : K) (value : V) (c : Cache K V n) (i : Fin n) : Cache K V n :=
  match computeWeight cfg value with
  | .error _ => c
  | .ok weight => c.storeComputedLocked cfg env i key value weight

/-- `Compute` under the shard's lock. -/
def computeLocked (key : K) (fn : Option V → ComputeResult V) (c : Cache K V n) (i : Fin n) :
    Cache K V n :=
  match fn ((c.freshEntryLocked cfg env i key).map Entry.value), c.freshEntryLocked cfg env i key with
  | .store value, _ => c.computeStoreLocked cfg env key value i
  | .delete, some e => c.removeLocked cfg env i e .computed
  | .delete, none => c
  | .noOp, _ => c
  | .error, _ => c

/-- `Compute`; a closed cache is left alone. -/
def compute (key : K) (fn : Option V → ComputeResult V) : Cache K V n :=
  if c.closed then c else c.keyed cfg env key (computeLocked cfg env key fn)

/-- `ComputeIfPresent`: the function is called for a present key only. -/
def computeIfPresent (key : K) (fn : V → ComputeResult V) : Cache K V n :=
  c.compute cfg env key fun cur ↦
    match cur with
    | none => .noOp
    | some v => fn v

/-- `Update`. -/
def update (key : K) (fn : V → V) : Cache K V n :=
  c.computeIfPresent cfg env key fun v ↦ .store (fn v)

/-- `CompareAndSwap`, with the comparison as an argument. -/
def compareAndSwap (key : K) (same : V → Bool) (newValue : V) : Cache K V n :=
  c.computeIfPresent cfg env key fun v ↦ if same v then .store newValue else .noOp

/-- `ComputeIfAbsent` under the shard's lock; `res` is what the function returns when called. -/
def computeIfAbsentLocked (key : K) (res : Option (V × ℤ)) (c : Cache K V n) (i : Fin n) :
    Cache K V n :=
  match c.freshEntryLocked cfg env i key, res with
  | some _, _ => c
  | none, none => c
  | none, some (value, ttl) =>
    if ttl < 0 then c
    else
      match computeWeight cfg value with
      | .error _ => c
      | .ok weight =>
        c.upsertLocked cfg env i key value weight
          (cfg.effectiveTTL env (if ttl = 0 then cfg.defaultTTL else ttl)) cfg.slidingTTL
          (if ttl = 0 then cfg.defaultTTL else ttl) []

def computeIfAbsent (key : K) (res : Option (V × ℤ)) : Cache K V n :=
  if c.closed then c else c.keyed cfg env key (computeIfAbsentLocked cfg env key res)

/-! ### Reads that take the lock, and touches -/

/-- A section on one key of a method that applies the queued write beforehand. -/
def onKey (key : K) (f : Cache K V n → Fin n → Cache K V n) : Cache K V n :=
  if c.closed then c
  else (f (c.applyPendingKey cfg env key) (shardFor cfg key)).flushAndUnlock cfg env
    (shardFor cfg key)

/-- `GetWithExpiry`. -/
def getWithExpiry (key : K) : Cache K V n :=
  c.onKey cfg env key fun c i ↦
    match (c.shards i).get key with
    | none => c
    | some e =>
      if entryExpiredLocked cfg e env.now then
        (c.removeLocked cfg env i e (expiryReason e env.now)).countExpiration
      else if e.negative then c
      else c.touchEntry cfg env i e

/-- `Touch`, and `TouchWithTTL` when a TTL is given. -/
def touch (key : K) (ttl : Option ℤ) : Cache K V n :=
  if ttl.any (· < 0) then c
  else c.onKey cfg env key fun c i ↦
    match c.freshEntryLocked cfg env i key with
    | none => c
    | some e => c.refreshExpiryLocked cfg env i e
        (ttl.getD (if e.sliding ∧ 0 < e.slidingTTL then e.slidingTTL else cfg.defaultTTL))

/-! ### Removals -/

/-- `Delete`, and a removal announced from outside, under its own reason. -/
def deleteKey (key : K) (reason : EvictionReason) : Cache K V n :=
  if c.closed then c
  else c.keyed cfg env key fun c i ↦ c.removeKeyLocked cfg env i key reason

/-- `Delete`: queued under asynchronous writes. -/
def delete [Inhabited V] (cfg : Config K V) (env : Env K) (c : Cache K V n) (key : K) :
    Cache K V n :=
  if !cfg.asyncWrites then c.deleteKey cfg env key .deleted
  else if c.closed then c
  else (c.enqueuePending (shardFor cfg key)
    { kind := .delete, key := key, value := default, weight := 0, effectiveTTL := 0, rawTTL := 0,
      sliding := false, expireAt := 0, tags := [] }).countDelete

/-- `DeleteIf`. -/
def deleteIf (key : K) (pred : V → Bool) : Cache K V n :=
  c.onKey cfg env key fun c i ↦
    match c.freshEntryLocked cfg env i key with
    | none => c
    | some e => if pred e.value then (c.removeLocked cfg env i e .deleted).countDelete else c

/-- Remove the entries of some identities, under one reason. -/
def removeAll (cfg : Config K V) (env : Env K) (i : Fin n) (reason : EvictionReason) :
    List ℕ → Cache K V n → Cache K V n
  | [], c => c
  | id :: ids, c =>
    match (c.shards i).byId id with
    | none => removeAll cfg env i reason ids c
    | some e => removeAll cfg env i reason ids (c.removeLocked cfg env i e reason)

/-- Remove the entries under some keys, under one reason. -/
def removeKeys (cfg : Config K V) (env : Env K) (i : Fin n) (reason : EvictionReason) :
    List K → Cache K V n → Cache K V n
  | [], c => c
  | key :: keys, c =>
    match (c.shards i).get key with
    | none => removeKeys cfg env i reason keys c
    | some e => removeKeys cfg env i reason keys (c.removeLocked cfg env i e reason)

/-- Visit every shard in turn. -/
def eachShard (f : Cache K V n → Fin n → Cache K V n) (c : Cache K V n) : Cache K V n :=
  (List.finRange n).foldl f c

/-- `DeleteExpired`. -/
def deleteExpired : Cache K V n :=
  if c.closed then c
  else c.eachShard fun c i ↦
    (removeExpired cfg env i (((c.shards i).storage.filter fun e ↦ e.expired env.now).map Entry.id)
      c).flushAndUnlock cfg env i

/-- One shard of `DeletePrefix`: loads of matching keys are superseded too. -/
def deletePrefixShard (matcher : K → Bool) (c : Cache K V n) (i : Fin n) : Cache K V n :=
  let c := c.modify i fun s ↦ { s with flights := s.flights.supersedeMatching matcher }
  (removeAll cfg env i .deletedPrefix
    (((c.shards i).storage.filter fun e ↦ matcher e.key).map Entry.id) c).flushAndUnlock cfg env i

/-- `DeletePrefix`; the matcher is absent for a key type without prefixes. -/
def deletePrefix (matcher : Option (K → Bool)) : Cache K V n :=
  if c.closed then c
  else
    match matcher with
    | none => c.applyAllPending cfg env
    | some m => (c.applyAllPending cfg env).eachShard (deletePrefixShard cfg env m)

/-- One shard of `DeleteWhere`. -/
def deleteWhereShard (pred : K → V → Bool) (c : Cache K V n) (i : Fin n) : Cache K V n :=
  let doomed := ((c.shards i).storage.filter fun e ↦
    !entryExpiredLocked cfg e env.now && !e.negative && pred e.key e.value).map Entry.key
  if doomed.isEmpty then c
  else (removeKeys cfg env i .deletedWhere doomed c).flushAndUnlock cfg env i

def deleteWhere (pred : K → V → Bool) : Cache K V n :=
  if c.closed then c
  else (c.applyAllPending cfg env).eachShard (deleteWhereShard cfg env pred)

/-- `InvalidateTags`, and `InvalidateTag` for a single one. -/
def invalidateTags (tags : List String) : Cache K V n :=
  if c.closed ∨ tags = [] then c
  else
    let c := c.applyAllPending cfg env
    (tags.flatMap c.tagged).eraseDups.foldl (fun c key ↦ c.removeAndFlush cfg env key .tag) c

/-! ### Loads -/

/-- How a call of `GetOrLoad` was answered, or which load it waits for. -/
inductive LoadCall (V : Type*) where
  | hit (value : V)
  | notFound
  | cached (err : LoadErr)
  | joined (flight : ℕ)
  | rateLimited
  | started (flight : ℕ)
deriving DecidableEq, Repr

/-- A hit of `GetOrLoad`: a fresh entry, or a stale one that may still be served. -/
def serveLoadHitLocked (i : Fin n) (key : K) : Option (V × Cache K V n) :=
  match (c.shards i).get key with
  | none => none
  | some e =>
    if e.negative then none
    else if !entryExpiredLocked cfg e env.now then
      let late := shouldRefreshAhead cfg
        (({ e with hits := e.hits + 1 } : Entry K V).touchAccess env.now).1 env.now
      some (e.value, (if late then c.startRefreshLocked i key else c).touchEntry cfg env i e)
    else if shouldServeStale cfg e env.now then
      some (e.value, (c.startRefreshLocked i key).staleHit cfg i e)
    else none

/-- The unexpired cached error of a key. -/
def cachedError (i : Fin n) (key : K) : Option LoadErr :=
  if 0 < cfg.errorTTL then
    (((c.shards i).errors.get key).filter fun ce ↦ env.now < ce.expireAt).map CachedError.err
  else none

/-- Drop the cached error of a key once it has expired. -/
def dropCachedError (i : Fin n) (key : K) : Cache K V n :=
  if 0 < cfg.errorTTL then c.modify i fun s ↦ { s with errors := s.errors.erase key } else c

/-- Join the load in flight for a key, or start one. The rate limiter is asked before a start. -/
def joinOrStart (i : Fin n) (key : K) (allow : Bool) : LoadCall V × Cache K V n :=
  match (c.shards i).flights.inflight.get key with
  | some id => (.joined id, c.modify i fun s ↦ { s with flights := s.flights.join id })
  | none =>
    if allow then (.started (c.shards i).flights.nextFlight,
      c.modify i fun s ↦ { s with flights := s.flights.startFlight key })
    else (.rateLimited, c)

/-- `loadOrJoin` under the shard's lock. -/
def loadOrJoinLocked (i : Fin n) (key : K) (allow : Bool) : LoadCall V × Cache K V n :=
  match c.serveLoadHitLocked cfg env i key with
  | some (value, c') => (.hit value, c')
  | none =>
    if ((c.shards i).get key).any fun e ↦ e.negative && !entryExpiredLocked cfg e env.now then
      (.notFound, c)
    else
      match c.cachedError cfg env i key with
      | some err => (.cached err, c)
      | none => (c.dropCachedError cfg i key).joinOrStart i key allow

def loadOrJoin (key : K) (allow : Bool) : LoadCall V × Cache K V n :=
  let i := shardFor cfg key
  let r := (c.applyPendingKey cfg env key).loadOrJoinLocked cfg env i key allow
  (r.1, r.2.flushAndUnlock cfg env i)

/-- `GetOrLoad` and `GetOrLoadFn`. -/
def getOrLoad (key : K) (allow : Bool) : Cache K V n :=
  if c.closed then c else (c.loadOrJoin cfg env key allow).2

/-- A waiter's context ends: it gives up on the load. -/
def leaveLoad (i : Fin n) (id : ℕ) : Cache K V n :=
  (c.modify i fun s ↦ { s with flights := s.flights.leave id }).flushAndUnlock cfg env i

/-- `Refresh`. -/
def refresh (key : K) : Cache K V n :=
  if c.closed ∨ !cfg.hasLoader then c
  else (c.triggerAsyncRefreshLocked cfg (shardFor cfg key) key).flushAndUnlock cfg env
    (shardFor cfg key)

/-- What a loader call came back with; `noSlot` when it never got to run. -/
inductive LoadResult (V : Type*) where
  | value (value : V) (ttl : ℤ)
  | error (err : LoadErr)
  | noSlot
deriving DecidableEq, Repr

/-- Record a finished load: the value, a tombstone or a cached error. A load overtaken by a change
of its key stores nothing. -/
def applyLoadResultLocked [Inhabited V] (cfg : Config K V) (env : Env K) (c : Cache K V n)
    (i : Fin n) (f : Flight K) (res : LoadResult V) : Cache K V n :=
  if f.superseded || c.closed then c
  else
    match res with
    | .value value ttl => c.storeLoadedLocked cfg env i f.key value ttl
    | .error .notFound =>
      if 0 < cfg.negativeTTL then c.insertNegativeTombstoneLocked cfg env i f.key else c
    | .error .canceled | .error .deadlineExceeded => c
    | .error (.other message) =>
      if 0 < cfg.errorTTL then c.cacheErrorLocked cfg env i f.key (.other message) else c
    | .noSlot => c

/-- A load leaves the flights: unregistered, and no longer running. -/
def endFlight (i : Fin n) (f : Flight K) : Cache K V n :=
  c.modify i fun s ↦ { s with flights :=
    { s.flights.leaveInflight f.key f.id with
      running := NodeList.unlink Flight.id f.id s.flights.running } }

/-- The end of `runLoader`. -/
def finishLoad [Inhabited V] (cfg : Config K V) (env : Env K) (c : Cache K V n) (i : Fin n)
    (id : ℕ) (res : LoadResult V) : Cache K V n :=
  match (c.shards i).flights.flight id with
  | none => c
  | some f =>
    ((c.endFlight i f).applyLoadResultLocked cfg env i f res).flushAndUnlock cfg env i

/-- Watch a key, as a bulk load does before it looks the key up. -/
def watchKey (key : K) : Cache K V n :=
  c.modify (shardFor cfg key) fun s ↦ { s with flights := (s.flights.watchLocked key).2 }

def unwatchKey (key : K) (w : ℕ) : Cache K V n :=
  c.modify (shardFor cfg key) fun s ↦ { s with flights := s.flights.unwatchLocked key w }

/-- Cache a bulk loader's result unless the watch says the key changed. -/
def storeBulkLoaded (key : K) (value : V) (ttl : ℤ) (w : ℕ) : Cache K V n :=
  let i := shardFor cfg key
  let current := ((c.shards i).flights.token w).any fun t ↦ !t.superseded
  (if current && !c.closed then c.storeLoadedLocked cfg env i key value ttl else c).flushAndUnlock
    cfg env i

/-! ### Store traffic on the memory side -/

/-- Take the key's watch out of the map for the length of a promotion. -/
def hideWatch (i : Fin n) (key : K) : Cache K V n :=
  c.modify i fun s ↦ { s with flights :=
    { s.flights with watches := s.flights.watches.erase key } }

def restoreWatch (i : Fin n) (key : K) : Option ℕ → Cache K V n
  | none => c
  | some w => c.modify i fun s ↦ { s with flights :=
      { s.flights with watches := s.flights.watches.insert key w } }

/-- The upsert of a promotion: with the expiry of the Store's record when that comes first. -/
def upsertPromoted (i : Fin n) (key : K) (value : V) (weight storeExpireAt : ℤ) : Cache K V n :=
  let left := wrap64 (storeExpireAt - env.now)
  if 0 < storeExpireAt ∧ (cfg.defaultTTL ≤ 0 ∨ left < cfg.defaultTTL) then
    c.upsertLocked cfg env i key value weight (max left 1) false (max left 1) (cfg.autoTags value)
  else c.upsertDefault cfg env i key value weight

/-- The expiry of a Store record that was gone when its TTL was looked up. -/
def storeRecordGone : ℤ := -2

/-- What a `TTLStore` answers when it is asked for the TTL of a record. A TTL that is not positive
stands for a record without expiry. -/
inductive TTLAnswer where
  | failed
  | gone
  | found (ttl : ℤ)
deriving DecidableEq, Repr

/-- The expiry of a Store record on the cache's clock; a plain Store gives no answer. -/
def storeExpireAt (now : ℤ) : Option TTLAnswer → ℤ
  | none | some .failed => -1
  | some .gone => storeRecordGone
  | some (.found ttl) => if 0 < ttl then wrap64 (now + ttl) else 0

/-- Check a value read from the Store against the cache's limits. The result is its weight. -/
def preparePromotion (key : K) (value : V) (storeExpireAt : ℤ) : Except CacheError ℤ :=
  if storeExpireAt = storeRecordGone then .error .storeRecordGone
  else do
    checkKeySize cfg key
    let weight ← computeWeight cfg value
    checkTagLimits cfg c (cfg.autoTags value)
    pure weight

/-- Insert a value read from the Store. The key's watch is hidden from the upsert, which would
supersede it. -/
def promoteLocked (i : Fin n) (key : K) (value : V) (storeExpireAt : ℤ) :
    Except CacheError ℤ → Cache K V n
  | .error _ => c
  | .ok weight =>
    if c.closed then c
    else ((c.hideWatch i key).upsertPromoted cfg env i key value weight storeExpireAt).restoreWatch i
      key ((c.shards i).flights.watches.get key)

/-- Promote a value read through the Store, unless memory gained a fresh entry meanwhile. -/
def promote (key : K) (value : V) (storeExpireAt : ℤ) : Cache K V n :=
  let i := shardFor cfg key
  (if (c.freshEntryLocked cfg env i key).isNone then
    c.promoteLocked cfg env i key value storeExpireAt
      (c.preparePromotion cfg key value storeExpireAt)
    else c).flushAndUnlock cfg env i

/-- Undo a write in memory after the Store refused it. -/
def rollbackInMemory (key : K) : Cache K V n :=
  c.removeAndFlush cfg env key .storeRollback

end Cache

end Memcache
