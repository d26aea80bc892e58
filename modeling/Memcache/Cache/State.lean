import Memcache.Policy.Basic
import Memcache.Expiry.Backend
import Memcache.Cache.Flights
import Mathlib.Data.Rat.Floor
import Mathlib.Data.Fintype.BigOperators

/-!
# Entries, shards and the cache

The state a cache works on, under the source's names. A shard's **table** is its entry storage with
the two structures that must agree with it: the eviction policy and the expiry backend, which track
entries by identity. Around it a shard keeps its loads in flight, the error cache, queued writes, and
the read snapshot of the lock-free path.

Storage is a list of entries. A lookup compares keys with `==`, which need not be reflexive, so an
entry under a key that does not equal itself is stored and never found again, as in a Go map. Where
the source visits every entry in map order the model visits them in list order.

Times and durations are nanoseconds as integers; sums that the source forms in 64-bit arithmetic go
through `wrap64`. What is outside the code, such as the clock, the jitter draw, the admission
policy's verdict and whether the untag queue is full, is the `Env` of a step.
-/

namespace Memcache

instance neZero_one : NeZero 1 := ⟨Nat.one_ne_zero⟩

instance neZero_two : NeZero 2 := ⟨by decide⟩

/-! ### Entries -/

/-- Two's complement 64-bit wrap-around. -/
def wrap64 (x : ℤ) : ℤ := x.bmod (2 ^ 64)

/-- Why an entry was removed. -/
inductive EvictionReason where
  | capacity | expired | expireFunc | replaced | deleted | deletedPrefix | deletedWhere | tag
  | remote | resize | computed | clear | storeRollback
deriving DecidableEq, Repr

/-- An entry of a shard. `id` is the identity of the entry object; the policy and the expiry
backend point at it. -/
structure Entry (K V : Type*) where
  id : ℕ
  key : K
  value : V
  expireAt : ℤ
  lastAccess : ℤ
  inserted : ℤ
  hits : UInt32
  weight : ℤ
  slidingTTL : ℤ
  tags : List String
  sliding : Bool
  negative : Bool
deriving DecidableEq, Repr

namespace Entry

variable {K V : Type*}

/-- The pointer to an entry that policies hold. -/
def ref (e : Entry K V) : Ref K := ⟨e.id, e.key⟩

@[simp] theorem ref_id (e : Entry K V) : e.ref.id = e.id := rfl
@[simp] theorem ref_key (e : Entry K V) : e.ref.key = e.key := rfl

def expired (e : Entry K V) (now : ℤ) : Bool :=
  e.expireAt ≠ 0 ∧ e.expireAt ≤ now

/-- Record an access and, for a sliding entry last refreshed more than a quarter of its TTL ago,
push its expiry forward. The Boolean says whether the expiry moved. -/
def touchAccess (e : Entry K V) (now : ℤ) : Entry K V × Bool :=
  if !e.sliding ∨ e.slidingTTL ≤ 0 then ({ e with lastAccess := now }, false)
  else if wrap64 (now - e.lastAccess) < e.slidingTTL / 4 then (e, false)
  else ({ e with lastAccess := now, expireAt := wrap64 (now + e.slidingTTL) }, true)

end Entry

/-- Greatest weight of one entry. -/
def maxEntryWeight : ℤ := 2 ^ 40

def clampWeight (w : ℤ) : ℤ := min (max w 1) maxEntryWeight

theorem one_le_clampWeight (w : ℤ) : 1 ≤ clampWeight w := by
  unfold clampWeight maxEntryWeight
  omega

theorem clampWeight_le (w : ℤ) : clampWeight w ≤ maxEntryWeight := min_le_right ..

theorem one_le_maxEntryWeight : 1 ≤ maxEntryWeight := by decide

/-! ### Configuration and environment -/

/-- The options a cache is built with, as the modelled code reads them. -/
structure Config (K V : Type*) where
  policy : PolicyKind
  maxEntries : ℕ
  maxBytes : ℕ
  hash : K → UInt64
  weigher : Option (V → ℤ)
  defaultTTL : ℤ
  slidingTTL : Bool
  ttlJitterExplicit : Bool
  ttlJitter : ℤ
  negativeTTL : ℤ
  errorTTL : ℤ
  swrStaleFor : ℤ
  refreshAheadAt : ℚ
  hasLoader : Bool
  expireFunc : Option (Entry K V → Bool)
  keySize : K → Option ℕ
  maxKeySize : ℕ
  maxValueWeight : ℤ
  maxTagsPerEntry : ℕ
  maxTagsTotal : ℕ
  valueTTL : V → Option ℤ
  autoTags : V → List String
  groups : List (String × ℕ)
  janitorInterval : ℤ
  ttlBuckets : ℕ
  ttlBucketsTickPerBucket : ℕ
  /-- The clock's reading when the cache is built. -/
  origin : ℤ
  collisionTracking : Bool
  lockFreeRead : Bool
  asyncWrites : Bool
  listening : Bool

/-- The options before any is applied, for keys hashed by `hash`. -/
def defaultConfig {K V : Type*} (hash : K → UInt64) : Config K V where
  policy := .s3fifo
  maxEntries := 0
  maxBytes := 0
  hash := hash
  weigher := none
  defaultTTL := 0
  slidingTTL := false
  ttlJitterExplicit := false
  ttlJitter := 0
  negativeTTL := 0
  errorTTL := 0
  swrStaleFor := 0
  refreshAheadAt := 0
  hasLoader := false
  expireFunc := none
  keySize _ := none
  maxKeySize := 0
  maxValueWeight := 0
  maxTagsPerEntry := 0
  maxTagsTotal := 0
  valueTTL _ := none
  autoTags _ := []
  groups := []
  janitorInterval := 30000000000
  ttlBuckets := 0
  ttlBucketsTickPerBucket := 0
  origin := 0
  collisionTracking := false
  lockFreeRead := false
  asyncWrites := false
  listening := false

/-- What a step takes from outside the cache. -/
structure Env (K : Type*) where
  now : ℤ
  draw : ℕ
  admits : K → Bool
  queueFull : Bool

/-- Nothing out of the ordinary at an instant: every key is admitted and the queue has room. -/
def Env.instant {K : Type*} (now : ℤ) : Env K := ⟨now, 0, fun _ ↦ true, false⟩

/-! ### Shards -/

/-- A shard's storage with the policy and the expiry backend that track its entries. -/
structure Table (K V : Type*) where
  storage : List (Entry K V)
  policy : Policy K
  ttl : Ttl
deriving DecidableEq, Repr

/-- The error a loader call ended in. -/
inductive LoadErr where
  | notFound | canceled | deadlineExceeded | other (message : String)
deriving DecidableEq, Repr

/-- A cached loader error. -/
structure CachedError where
  err : LoadErr
  expireAt : ℤ
deriving DecidableEq, Repr

/-- What a queued write does. -/
inductive PendingOpKind where
  | set | delete
deriving DecidableEq, Repr

/-- A write the caller has already returned from. -/
structure PendingOp (K V : Type*) where
  kind : PendingOpKind
  key : K
  value : V
  weight : ℤ
  effectiveTTL : ℤ
  rawTTL : ℤ
  sliding : Bool
  expireAt : ℤ
  tags : List String
deriving DecidableEq, Repr

/-- The lock-free read snapshot: a map from keys to entry objects, by identity. -/
structure ReadMap (K : Type*) where
  m : KeyMap K ℕ
  amended : Bool
deriving DecidableEq, Repr

/-- A removal that a listener is told about. -/
structure Removal (K V : Type*) where
  key : K
  value : V
  reason : EvictionReason
  tags : List String
deriving DecidableEq, Repr

/-- One of the cache's partitions. `read` is present under the lock-free read path, and `dead` holds
the identities of removed entries that a snapshot may still point at. -/
structure Shard (K V : Type*) extends Table K V where
  budget : ℕ
  flights : Flights K
  errors : KeyMap K CachedError
  pending : KeyMap K (PendingOp K V)
  read : Option (ReadMap K)
  readMisses : ℕ
  dead : List ℕ
  hashIndex : List (UInt64 × K)
  janitorRunning : Bool
  pendingCallbacks : List (Removal K V)
deriving DecidableEq, Repr

/-- An event published on the bus. -/
inductive Event (K V : Type*) where
  | insert (key : K) (value : V) (tags : List String)
  | update (key : K) (value : V) (tags : List String)
deriving DecidableEq, Repr

/-- Counters that only count. -/
structure Stats where
  inserts : ℕ
  updates : ℕ
  deletes : ℕ
  evictions : ℕ
  expirations : ℕ
  admissionRejects : ℕ
  hashCollisions : ℕ
deriving DecidableEq, Repr

/-- The cache. `entries` and `bytes` are the live counters, `maxEntries` and `maxBytes` the live
bounds, and `nextId` the identity the next entry object gets. -/
structure Cache (K V : Type*) (n : ℕ) where
  shards : Fin n → Shard K V
  entries : ℤ
  bytes : ℤ
  maxEntries : ℕ
  maxBytes : ℕ
  shedNext : ℕ
  keysByTag : List (String × List K)
  untagQueue : List (K × List String)
  nextId : ℕ
  closed : Bool
  sealed : Bool
  stats : Stats
  events : List (Event K V)
  fired : List (Removal K V)

/-- The entry budget of one shard: an even share of the bound, with ten percent of slop. -/
def perShardBudget (maxEntries shardCount : ℕ) : ℕ :=
  if maxEntries = 0 ∨ shardCount = 0 then 0
  else
    let per := (maxEntries + shardCount - 1) / shardCount
    per + max (per * 10 / 100) 1

theorem two_le_perShardBudget {maxEntries shardCount : ℕ} (hm : 1 ≤ maxEntries)
    (hs : 1 ≤ shardCount) : 2 ≤ perShardBudget maxEntries shardCount := by
  unfold perShardBudget
  rw [if_neg (by omega)]
  have : 1 ≤ (maxEntries + shardCount - 1) / shardCount :=
    (Nat.le_div_iff_mul_le (by omega)).2 (by omega)
  simp only
  omega

variable {K V : Type*} {n : ℕ}

/-- The expiry backend the options select: a timing wheel, or the default heap. -/
def newTTLBackend (cfg : Config K V) : Ttl :=
  if 0 < cfg.ttlBuckets then
    let ticks := if cfg.ttlBucketsTickPerBucket ≤ 0 then 1 else cfg.ttlBucketsTickPerBucket
    let base := if cfg.janitorInterval ≤ 0 then 30000000000 else cfg.janitorInterval
    .wheel (.new cfg.ttlBuckets (max (base / ticks) 1).toNat cfg.origin)
  else .heap ⟨[]⟩

theorem wellFormed_newTTLBackend (cfg : Config K V) : (newTTLBackend cfg).WellFormed := by
  unfold newTTLBackend
  split
  · exact Ttl.wellFormed_wheel_new ..
  · trivial

@[simp] theorem ids_newTTLBackend (cfg : Config K V) : (newTTLBackend cfg).ids = [] := by
  unfold newTTLBackend
  split
  · exact Ttl.ids_wheel_new ..
  · rfl

/-- A fresh shard. -/
def newShard (cfg : Config K V) (budget : ℕ) : Shard K V where
  storage := []
  policy := .new cfg.policy budget
  ttl := newTTLBackend cfg
  budget := budget
  flights := .empty
  errors := .empty
  pending := .empty
  read := if cfg.lockFreeRead then some ⟨.empty, false⟩ else none
  readMisses := 0
  dead := []
  hashIndex := []
  janitorRunning := false
  pendingCallbacks := []

/-- A fresh cache. -/
def new (cfg : Config K V) (n : ℕ) : Cache K V n where
  shards _ := newShard cfg (perShardBudget cfg.maxEntries n)
  entries := 0
  bytes := 0
  maxEntries := cfg.maxEntries
  maxBytes := cfg.maxBytes
  shedNext := 0
  keysByTag := []
  untagQueue := []
  nextId := 0
  closed := false
  sealed := false
  stats := ⟨0, 0, 0, 0, 0, 0, 0⟩
  events := []
  fired := []

namespace Table

/-- The entry stored under a key. -/
def get [BEq K] (t : Table K V) (key : K) : Option (Entry K V) :=
  t.storage.find? fun e ↦ e.key == key

/-- The stored entry of an identity. -/
def byId (t : Table K V) (id : ℕ) : Option (Entry K V) :=
  NodeList.lookup Entry.id id t.storage

variable {t : Table K V} {e : Entry K V}

theorem mem_of_get [BEq K] {key : K} (h : t.get key = some e) : e ∈ t.storage := List.mem_of_find?_eq_some h

theorem key_of_get [BEq K] {key : K} (h : t.get key = some e) : (e.key == key) = true := by
  simpa using List.find?_some h

theorem mem_of_byId {id : ℕ} (h : t.byId id = some e) : e ∈ t.storage := NodeList.mem_of_lookup h

theorem id_of_byId {id : ℕ} (h : t.byId id = some e) : e.id = id := NodeList.ident_of_lookup h

/-- Replace the stored entry object of `e`'s identity by `e`. -/
def put (t : Table K V) (e : Entry K V) : Table K V :=
  { t with storage := NodeList.replace Entry.id e t.storage }

/-- The total weight stored. -/
def weight (t : Table K V) : ℤ := (t.storage.map Entry.weight).sum

end Table

namespace Cache

/-- Apply `f` to one shard. -/
def modify (c : Cache K V n) (i : Fin n) (f : Shard K V → Shard K V) : Cache K V n :=
  { c with shards := Function.update c.shards i (f (c.shards i)) }

@[simp] theorem modify_shards_self (c : Cache K V n) (i : Fin n) (f : Shard K V → Shard K V) :
    (c.modify i f).shards i = f (c.shards i) := Function.update_self ..

theorem modify_shards_of_ne (c : Cache K V n) {i j : Fin n} (f : Shard K V → Shard K V)
    (h : j ≠ i) : (c.modify i f).shards j = c.shards j := Function.update_of_ne h ..

/-- What holds of the new shard and of every other one. -/
@[elab_as_elim]
theorem modify_cases {P : Fin n → Shard K V → Prop} {c : Cache K V n} {i : Fin n}
    {f : Shard K V → Shard K V} (j : Fin n) (hi : P i (f (c.shards i)))
    (hj : ∀ j, j ≠ i → P j (c.shards j)) : P j ((c.modify i f).shards j) := by
  rcases eq_or_ne j i with rfl | h
  · rwa [modify_shards_self]
  · rw [modify_shards_of_ne _ _ h]
    exact hj j h

theorem modify_modify (c : Cache K V n) (i : Fin n) (f g : Shard K V → Shard K V) :
    (c.modify i f).modify i g = c.modify i fun s ↦ g (f s) := by
  simp [modify]

/-- Apply `f` to one shard's table. -/
def modifyTable (c : Cache K V n) (i : Fin n) (f : Table K V → Table K V) : Cache K V n :=
  c.modify i fun s ↦ { s with toTable := f s.toTable }

@[simp] theorem modifyTable_toTable (c : Cache K V n) (i : Fin n) (f : Table K V → Table K V) :
    ((c.modifyTable i f).shards i).toTable = f (c.shards i).toTable := by
  simp [modifyTable]

/-- The shard of a key: the hash masked to the shard count, which is a power of two. -/
def shardFor [NeZero n] (cfg : Config K V) (key : K) : Fin n :=
  Fin.ofNat n (cfg.hash key).toNat

/-- Whether the cache holds more entries, or weighs more, than its live bounds allow. -/
def overBudget (c : Cache K V n) : Bool :=
  (0 < c.maxEntries ∧ (c.maxEntries : ℤ) < c.entries) ∨
    (0 < c.maxBytes ∧ (c.maxBytes : ℤ) < c.bytes)

/-- Number of entries stored, over all shards. -/
def stored (c : Cache K V n) : ℕ := ∑ i, (c.shards i).storage.length

/-- Weight stored, over all shards. -/
def weight (c : Cache K V n) : ℤ := ∑ i, (c.shards i).weight

end Cache

end Memcache
