import Memcache.Cache.Write

/-!
# Inserting, overwriting and refreshing entries

The write paths of the cache under a shard's lock. Every insert of the source builds an entry and
then does the same things with it (`storeEntry`), and every overwrite rewrites the fields of the
stored entry in place; what differs between the paths is which counters and which marks they touch,
and those differences are kept as the source has them.
-/

namespace Memcache

variable {K V : Type*} {n : ℕ}

/-! ### Time to live -/

/-- Uniform jitter of at most `j`, clamped to a quarter of the TTL. -/
def applyJitter (draw : ℕ) (ttl j : ℤ) : ℤ :=
  if j ≤ 0 then ttl
  else if min j (ttl / 4) ≤ 0 then ttl
  else wrap64 (ttl + ((draw : ℤ) % (2 * min j (ttl / 4) + 1) - min j (ttl / 4)))

namespace Config

/-- The jitter window: five percent of the TTL unless configured. -/
def resolveJitter (cfg : Config K V) (ttl : ℤ) : ℤ :=
  if cfg.ttlJitterExplicit then cfg.ttlJitter else ttl / 20

def effectiveTTL (cfg : Config K V) (env : Env K) (ttl : ℤ) : ℤ :=
  if ttl ≤ 0 then ttl else applyJitter env.draw ttl (cfg.resolveJitter ttl)

def weighOf (cfg : Config K V) (v : V) : ℤ :=
  clampWeight (match cfg.weigher with
    | none => 1
    | some w => w v)

theorem one_le_weighOf (cfg : Config K V) (v : V) : 1 ≤ cfg.weighOf v :=
  one_le_clampWeight _

theorem weighOf_le (cfg : Config K V) (v : V) : cfg.weighOf v ≤ maxEntryWeight :=
  clampWeight_le _

end Config

/-! ### Limits -/

/-- A value refused by one of the cache's limits. -/
structure CapacityError where
  reason : String
  limitField : String
deriving DecidableEq, Repr

/-- The errors of the write methods. -/
inductive CacheError where
  | closed
  | invalidTTL
  | capacity (e : CapacityError)
  | writeSuperseded
  | notFound
  | storeRecordGone
  | user
deriving DecidableEq, Repr

def checkKeySize (cfg : Config K V) (key : K) : Except CacheError Unit :=
  match cfg.keySize key with
  | none => .ok ()
  | some size =>
    if cfg.maxKeySize = 0 ∨ size ≤ cfg.maxKeySize then .ok ()
    else .error (.capacity ⟨"key exceeds MaxKeySize", "MaxKeySize"⟩)

def computeWeight (cfg : Config K V) (value : V) : Except CacheError ℤ :=
  if 0 < cfg.maxValueWeight ∧ cfg.maxValueWeight < cfg.weighOf value then
    .error (.capacity ⟨"value weight exceeds MaxValueWeight", "MaxValueWeight"⟩)
  else .ok (cfg.weighOf value)

/-- An accepted value has a weight within the limits. -/
theorem computeWeight_eq_ok {cfg : Config K V} {value : V} {weight : ℤ}
    (h : computeWeight cfg value = .ok weight) : 1 ≤ weight ∧ weight ≤ maxEntryWeight := by
  unfold computeWeight at h
  split_ifs at h
  cases h
  exact ⟨cfg.one_le_weighOf value, cfg.weighOf_le value⟩

/-- The tag limits, against the distinct tags of the entry and of the whole index. -/
def checkTagLimits (cfg : Config K V) (c : Cache K V n) (tags : List String) :
    Except CacheError Unit :=
  let distinct := tags.eraseDups
  let new := distinct.filter fun t ↦ !(c.keysByTag.any fun p ↦ p.1 = t)
  if 0 < cfg.maxTagsPerEntry ∧ cfg.maxTagsPerEntry < distinct.length then
    .error (.capacity ⟨s!"entry has {distinct.length} tags; max is {cfg.maxTagsPerEntry}",
      "MaxTagsPerEntry"⟩)
  else if 0 < cfg.maxTagsTotal ∧ cfg.maxTagsTotal < c.keysByTag.length + new.length then
    .error (.capacity
      ⟨s!"introducing {new.length} new tags would exceed cache-level cap {cfg.maxTagsTotal}",
        "MaxTagsTotal"⟩)
  else .ok ()

namespace Cache

variable [BEq K] (cfg : Config K V) (env : Env K) (c : Cache K V n)

/-! ### Entries in the table -/

/-- Put a new entry in the shard's table. -/
def addEntry (hash : K → UInt64) (t : Table K V) (e : Entry K V) : Table K V where
  storage := t.storage ++ [e]
  ttl := t.ttl.add e.id e.expireAt
  policy := t.policy.onInsert hash e.ref

/-- Rewrite a stored entry whose expiry may have changed. -/
def rewriteEntry (hash : K → UInt64) (t : Table K V) (e : Entry K V) : Table K V where
  storage := (t.put e).storage
  ttl := t.ttl.fix e.id e.expireAt
  policy := t.policy.onUpdate hash e.id

/-- Use up an identity. -/
def takeId : Cache K V n :=
  { c with nextId := c.nextId + 1 }

/-- The steps every insert shares: storage, snapshot, expiry backend, policy, tag index and
counters. The entry takes the next identity. -/
def storeEntry (i : Fin n) (e : Entry K V) : Cache K V n :=
  let e := { e with id := c.nextId }
  let c := c.modifyTable i fun t ↦ addEntry cfg.hash t e
  let c := c.markAmended i
  let c := c.retagLocked e.key [] e.tags
  (c.addCounters 1 e.weight).takeId

def countInsert : Cache K V n :=
  { c with stats := { c.stats with inserts := c.stats.inserts + 1 } }

def countUpdate : Cache K V n :=
  { c with stats := { c.stats with updates := c.stats.updates + 1 } }

def publish (e : Event K V) : Cache K V n :=
  if cfg.listening then { c with events := c.events ++ [e] } else c

/-! ### Insert or update -/

/-- What an overwrite makes of the stored entry. -/
def overwritten (e : Entry K V) (value : V) (weight now expireAt : ℤ) (sliding : Bool)
    (rawTTL : ℤ) (tags : List String) : Entry K V :=
  { e with
    value := value
    weight := weight
    expireAt := expireAt
    lastAccess := now
    hits := 0
    negative := false
    sliding := sliding
    slidingTTL := if sliding then rawTTL else 0
    tags := tags }

/-- A new entry; its identity is filled in by `storeEntry`. -/
def newEntry (key : K) (value : V) (weight now expireAt : ℤ) (sliding : Bool) (rawTTL : ℤ)
    (tags : List String) : Entry K V where
  id := 0
  key := key
  value := value
  expireAt := expireAt
  lastAccess := now
  inserted := now
  hits := 0
  weight := weight
  slidingTTL := if sliding then rawTTL else 0
  tags := tags
  sliding := sliding
  negative := false

/-- The instant an entry of the given TTL expires; `0` without one. -/
def deadline (effectiveTTL : ℤ) : ℤ :=
  if 0 < effectiveTTL then wrap64 (env.now + effectiveTTL) else 0

/-- Overwrite a stored entry. -/
def overwriteLocked (i : Fin n) (key : K) (e : Entry K V) (value : V) (weight expireAt : ℤ)
    (sliding : Bool) (rawTTL : ℤ) (tags : List String) : Cache K V n :=
  let c := c.addCounters 0 (-e.weight + weight)
  let c := c.retagLocked key e.tags tags
  let c := c.modifyTable i fun t ↦ rewriteEntry cfg.hash t
    (overwritten e value weight env.now expireAt sliding rawTTL tags)
  c.countUpdate.startJanitorFor cfg i expireAt

/-- Insert a new entry and evict what it pushes over the bounds. -/
def insertLocked (i : Fin n) (e : Entry K V) : Cache K V n :=
  ((c.storeEntry cfg i e).countInsert.startJanitorFor cfg i e.expireAt).evictWhileOverBudgetLocked
    cfg env i

def countReject : Cache K V n :=
  { c with stats := { c.stats with admissionRejects := c.stats.admissionRejects + 1 } }

def upsertLocked (i : Fin n) (key : K) (value : V) (weight effectiveTTL : ℤ) (sliding : Bool)
    (rawTTL : ℤ) (tags : List String) : Cache K V n :=
  let c := c.supersedeFlight i key
  if c.sealed then c
  else
    match (c.shards i).get key with
    | some e =>
      (c.overwriteLocked cfg env i key e value weight (deadline env effectiveTTL) sliding rawTTL
        tags).publish cfg (.update key value tags)
    | none =>
      -- only a pure insert consults the admission policy
      if !env.admits key then c.countReject
      else
        ((c.recordHashCollisionLocked cfg i key).insertLocked cfg env i
          (newEntry key value weight env.now (deadline env effectiveTTL) sliding rawTTL
            tags)).publish cfg (.insert key value tags)

/-- The upsert of `SetExpireAt`: never sliding, no admission, no collision tracking, no event. -/
def upsertWithAbsoluteExpiryLocked (i : Fin n) (key : K) (value : V) (weight expireAt : ℤ)
    (tags : List String) : Cache K V n :=
  let c := c.supersedeFlight i key
  if c.sealed then c
  else
    match (c.shards i).get key with
    | some e => c.overwriteLocked cfg env i key e value weight expireAt false 0 tags
    | none => c.insertLocked cfg env i (newEntry key value weight env.now expireAt false 0 tags)

/-! ### Values computed from the current one -/

/-- Swap the value of a live entry, keeping its tags and expiry. -/
def replaceValueLocked (i : Fin n) (e : Entry K V) (value : V) (weight : ℤ) : Cache K V n :=
  let c := c.supersedeFlight i e.key
  let c := c.addCounters 0 (weight - e.weight)
  let c := c.modifyTable i fun t ↦
    { t.put { e with value := value, weight := weight, lastAccess := env.now, hits := 0 } with
      policy := t.policy.onUpdate cfg.hash e.id }
  c.countUpdate.publish cfg (.update e.key value e.tags)

/-- Whether an entry is expired: by its instant, or by the configured predicate. -/
def entryExpiredLocked (e : Entry K V) (now : ℤ) : Bool :=
  e.expired now || (match cfg.expireFunc with
    | none => false
    | some f => f e)

/-- The reason an expired entry is removed under. -/
def expiryReason (e : Entry K V) (now : ℤ) : EvictionReason :=
  if e.expired now then .expired else .expireFunc

/-- The fresh entry of a key that is not a tombstone. -/
def freshEntryLocked (i : Fin n) (key : K) : Option (Entry K V) :=
  ((c.shards i).get key).filter fun e ↦ !e.negative && !entryExpiredLocked cfg e env.now

def storeComputedLocked (i : Fin n) (key : K) (value : V) (weight : ℤ) : Cache K V n :=
  match c.freshEntryLocked cfg env i key with
  | some e => c.replaceValueLocked cfg env i e value weight
  | none => c.upsertLocked cfg env i key value weight (cfg.effectiveTTL env cfg.defaultTTL)
      cfg.slidingTTL cfg.defaultTTL []

/-! ### Loads -/

/-- Store a loaded value. A refresh keeps the tags the entry carries unless the value has its
own. -/
def storeLoadedLocked (i : Fin n) (key : K) (value : V) (ttl : ℤ) : Cache K V n :=
  match computeWeight cfg value with
  | .error _ => c
  | .ok weight =>
    let ttl := if ttl = 0 then cfg.defaultTTL else ttl
    let tags := if cfg.autoTags value = [] then
        (((c.shards i).get key).map Entry.tags).getD []
      else cfg.autoTags value
    c.upsertLocked cfg env i key value weight (cfg.effectiveTTL env ttl) cfg.slidingTTL ttl tags

/-- What a tombstone makes of a stored entry. -/
def tombstoned [Inhabited V] (e : Entry K V) (now expireAt : ℤ) : Entry K V :=
  { e with
    value := default
    weight := 1
    expireAt := expireAt
    lastAccess := now
    hits := 0
    sliding := false
    negative := true
    slidingTTL := 0
    tags := [] }

/-- Record that a key was not found. Over a resident entry **the weight becomes 1 and the byte
counter is left as it is**. -/
def insertNegativeTombstoneLocked [Inhabited V] (cfg : Config K V) (env : Env K)
    (c : Cache K V n) (i : Fin n) (key : K) : Cache K V n :=
  let expireAt := wrap64 (env.now + cfg.negativeTTL)
  if c.sealed then c
  else
    match (c.shards i).get key with
    | some e =>
      let c := c.enqueueUntag env key e.tags
      let c := c.modifyTable i fun t ↦ rewriteEntry cfg.hash t (tombstoned e env.now expireAt)
      c.countUpdate.startJanitorLocked cfg i
    | none =>
      let c := c.storeEntry cfg i
        { newEntry key default 1 env.now expireAt false 0 [] with negative := true }
      (c.countInsert.startJanitorLocked cfg i).evictWhileOverBudgetLocked cfg env i

/-- Cache a loader error. A full error cache drops its expired errors first, then others. -/
def cacheErrorLocked (i : Fin n) (key : K) (err : LoadErr) : Cache K V n :=
  c.modify i fun s ↦
    let limit := max s.budget 64
    let errors := if (s.errors.get key).isNone ∧ limit ≤ s.errors.pairs.length then
        let live := s.errors.pairs.filter fun p ↦ env.now < p.2.expireAt
        ⟨live.drop (live.length - (limit - 1))⟩
      else s.errors
    { s with errors := errors.insert key ⟨err, wrap64 (env.now + cfg.errorTTL)⟩ }

/-! ### Expiry and clearing -/

/-- Remove entries one after another, by identity, counting expirations. -/
def removeExpired (cfg : Config K V) (env : Env K) (i : Fin n) :
    List ℕ → Cache K V n → Cache K V n
  | [], c => c
  | id :: ids, c =>
    match (c.shards i).byId id with
    | none => removeExpired cfg env i ids c
    | some e =>
      removeExpired cfg env i ids (c.removeLocked cfg env i e .expired).countExpiration

/-- The janitor's sweep: remove what the expiry backend reports as due. -/
def sweepExpiredLocked (i : Fin n) : Cache K V n :=
  removeExpired cfg env i ((c.shards i).ttl.sweep env.now).1
    (c.modifyTable i fun t ↦ { t with ttl := (t.ttl.sweep env.now).2 })

/-- Give an entry a new expiry. -/
def refreshExpiryLocked (i : Fin n) (e : Entry K V) (ttl : ℤ) : Cache K V n :=
  let expireAt := if 0 < ttl then wrap64 (env.now + cfg.effectiveTTL env ttl) else 0
  let c := c.modifyTable i fun t ↦
    { t.put { e with expireAt := expireAt, lastAccess := env.now } with
      ttl := t.ttl.fix e.id expireAt }
  c.startJanitorFor cfg i expireAt

/-- A hit: count it, slide the expiry when due, tell the policy. -/
def touchEntry (i : Fin n) (e : Entry K V) : Cache K V n :=
  let r := ({ e with hits := e.hits + 1 } : Entry K V).touchAccess env.now
  c.modifyTable i fun t ↦
    { t.put r.1 with
      ttl := if r.2 then t.ttl.fix r.1.id r.1.expireAt else t.ttl
      policy := t.policy.onAccess cfg.hash e.id }

/-- A shard with nothing in it; its loads are left alone. -/
def emptyShard (s : Shard K V) : Shard K V :=
  { s with
    storage := []
    policy := s.policy.reset
    ttl := s.ttl.reset
    read := if cfg.lockFreeRead then some ⟨.empty, false⟩ else s.read
    readMisses := if cfg.lockFreeRead then 0 else s.readMisses
    dead := if cfg.lockFreeRead then s.storage.map Entry.id ++ s.dead else s.dead }

/-- Remove every entry of a shard from the tag index. -/
def untagShardLocked (i : Fin n) : Cache K V n :=
  let drop := fun idx (e : Entry K V) ↦ untag e.key e.tags idx
  { c with keysByTag := (c.shards i).storage.foldl drop c.keysByTag }

def supersedeAllFlights (i : Fin n) : Cache K V n :=
  c.modify i fun s ↦ { s with flights := s.flights.supersedeAllFlights }

/-- Empty one shard, superseding its loads. -/
def clearShard (i : Fin n) : Cache K V n :=
  let c := (c.untagShardLocked i).supersedeAllFlights i
  (c.modify i (emptyShard cfg)).addCounters (-(c.shards i).storage.length) (-(c.shards i).weight)

/-! ### Snapshot records -/

/-- A decoded snapshot record. -/
structure SnapRecord (K V : Type*) where
  key : K
  value : V
  expireAt : ℤ
  weight : ℤ
  inserted : ℤ
  hits : UInt32
  sliding : Bool
  slidingTTL : ℤ
  tags : List String
deriving DecidableEq, Repr

/-- The weight a record is loaded with, when the cache's limits allow it. -/
def admitSnapshotRecord (snap : SnapRecord K V) : Option (SnapRecord K V) :=
  let weight := if cfg.weigher.isSome then cfg.weighOf snap.value else clampWeight snap.weight
  if (checkKeySize cfg snap.key).isOk = false then none
  else if 0 < cfg.maxValueWeight ∧ cfg.maxValueWeight < weight then none
  else if snap.tags ≠ [] ∧ (checkTagLimits cfg c snap.tags).isOk = false then none
  else some { snap with weight := weight }

/-- Take out the entry a snapshot record replaces. -/
def removeReplaced (i : Fin n) (key : K) : Cache K V n :=
  match (c.shards i).get key with
  | none => c
  | some e => c.removeLocked cfg env i e .replaced

/-- Insert one record of a snapshot, replacing an entry under its key. -/
def applySnapshotLocked (i : Fin n) (snap : SnapRecord K V) : Cache K V n :=
  let c := c.supersedeFlight i snap.key
  if c.sealed then c
  else
    let c := c.removeReplaced cfg env i snap.key
    let c := c.storeEntry cfg i
      { newEntry snap.key snap.value snap.weight snap.inserted snap.expireAt snap.sliding
          snap.slidingTTL snap.tags with hits := snap.hits }
    (c.startJanitorFor cfg i snap.expireAt).evictOverTotalLocked cfg env i

/-! ### Queued writes -/

/-- Apply one queued write. -/
def applyPendingOpLocked (i : Fin n) (op : PendingOp K V) : Cache K V n :=
  match op.kind with
  | .set =>
    if 0 < op.expireAt then
      c.upsertWithAbsoluteExpiryLocked cfg env i op.key op.value op.weight op.expireAt op.tags
    else
      c.upsertLocked cfg env i op.key op.value op.weight op.effectiveTTL op.sliding op.rawTTL
        op.tags
  | .delete => c.removeKeyLocked cfg env i op.key .deleted

end Cache

end Memcache
