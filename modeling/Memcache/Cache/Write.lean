import Memcache.Cache.State

/-!
# Removal, eviction and the write paths

The functions of the cache that run under a shard's lock and change its table, translated one by
one: `removeLocked` and the three eviction loops over it, `upsertLocked` and its absolute-expiry
twin, the negative tombstone, `replaceValueLocked`, and a record of a loaded snapshot.

The eviction loops of the source end when the policy has no victim left to give. Each round takes
one entry out of the policy, so **the number of tracked entries bounds the rounds**, and that number
is the fuel the model runs them with.
-/

namespace Memcache

namespace Cache

variable {K V : Type*} {n : ℕ} [BEq K] [NeZero n] (cfg : Config K V) (env : Env K) (c : Cache K V n)

/-! ### The tag index -/

/-- Record that a key carries the tags. -/
def tag (key : K) (tags : List String) (idx : List (String × List K)) : List (String × List K) :=
  tags.foldl (fun idx t ↦
    if idx.any (·.1 = t) then
      idx.map fun p ↦ if p.1 = t ∧ !(p.2.any (· == key)) then (p.1, key :: p.2) else p
    else (t, [key]) :: idx) idx

/-- Remove a key from the sets of the tags; an emptied set is dropped. -/
def untag (key : K) (tags : List String) (idx : List (String × List K)) : List (String × List K) :=
  (idx.map fun p ↦ if p.1 ∈ tags then (p.1, p.2.filter fun k ↦ !(k == key)) else p).filter
    fun p ↦ p.2 ≠ []

def retagLocked (key : K) (oldTags newTags : List String) : Cache K V n :=
  { c with keysByTag := tag key newTags (untag key oldTags c.keysByTag) }

/-- Queue the removal of a key from the sets of the tags, or do it at once when the queue is
full. -/
def enqueueUntag (key : K) (tags : List String) : Cache K V n :=
  if tags = [] then c
  else if env.queueFull then { c with keysByTag := untag key tags c.keysByTag }
  else { c with untagQueue := c.untagQueue ++ [(key, tags)] }

/-! ### Small steps under a shard's lock -/

def supersedeFlight (i : Fin n) (key : K) : Cache K V n :=
  c.modify i fun s ↦ { s with flights := s.flights.supersedeFlight key }

/-- A key collides when another key was last seen at its hash. -/
def recordHashCollisionLocked (i : Fin n) (key : K) : Cache K V n :=
  if !cfg.collisionTracking then c
  else
    let index := (c.shards i).hashIndex
    let collides := (index.find? fun p ↦ p.1 = cfg.hash key).any fun p ↦ !(p.2 == key)
    let c := c.modify i fun s ↦ { s with
      hashIndex := (cfg.hash key, key) :: index.filter fun p ↦ p.1 ≠ cfg.hash key }
    if collides then
      { c with stats := { c.stats with hashCollisions := c.stats.hashCollisions + 1 } }
    else c

def forgetHashLocked (i : Fin n) (key : K) : Cache K V n :=
  c.modify i fun s ↦ { s with
    hashIndex := s.hashIndex.filter fun p ↦ !(p.1 = cfg.hash key ∧ p.2 == key) }

def startJanitorLocked (i : Fin n) : Cache K V n :=
  if cfg.janitorInterval ≤ 0 ∨ c.sealed then c
  else c.modify i fun s ↦ { s with janitorRunning := true }

/-- Start the janitor for an entry that expires. -/
def startJanitorFor (i : Fin n) (expireAt : ℤ) : Cache K V n :=
  if 0 < expireAt then c.startJanitorLocked cfg i else c

/-! ### The read snapshot -/

def markAmended (i : Fin n) : Cache K V n :=
  c.modify i fun s ↦ { s with read := s.read.map fun rm ↦ { rm with amended := true } }

def readMissThreshold (s : Shard K V) : ℕ :=
  match s.read with
  | none => 8
  | some rm => max rm.m.pairs.length 8

/-- Rebuild the read snapshot from storage. -/
def promoteReadMapLocked (s : Shard K V) : Shard K V :=
  match s.read with
  | none => s
  | some rm =>
    if !rm.amended ∧ s.readMisses = 0 then s
    else { s with
      read := some ⟨s.storage.foldl (fun m e ↦ m.insert e.key e.id) .empty, false⟩
      readMisses := 0 }

/-- Count a read the snapshot could not serve, rebuilding it when there were enough. -/
def countReadMiss (s : Shard K V) : Shard K V :=
  if readMissThreshold s ≤ s.readMisses + 1 then
    promoteReadMapLocked { s with readMisses := s.readMisses + 1 }
  else { s with readMisses := s.readMisses + 1 }

/-- Under the lock-free read path a removed entry is marked, for readers that still hold it. -/
def markInvalidated (i : Fin n) (id : ℕ) : Cache K V n :=
  if cfg.lockFreeRead then c.modify i fun s ↦ countReadMiss { s with dead := id :: s.dead }
  else c

/-! ### Removal -/

/-- Whether a removal replaces the key's data, so that a load in flight must not store. -/
def supersedesFlight : EvictionReason → Bool
  | .capacity | .expired | .expireFunc | .resize => false
  | _ => true

/-- Take an entry out of the shard's table. -/
def dropEntry (t : Table K V) (e : Entry K V) : Table K V where
  storage := t.storage.filter fun e' ↦ !(e'.key == e.key)
  ttl := t.ttl.remove e.id
  policy := t.policy.onRemove e.id

/-- Add to the live counters. -/
def addCounters (entries bytes : ℤ) : Cache K V n :=
  { c with entries := c.entries + entries, bytes := c.bytes + bytes }

/-- Queue the callbacks of a removal; a tombstone has none, nor has a cache nobody listens to. -/
def queueCallback (i : Fin n) (e : Entry K V) (reason : EvictionReason) : Cache K V n :=
  if !e.negative ∧ cfg.listening then
    c.modify i fun s ↦ { s with
      pendingCallbacks := s.pendingCallbacks ++ [⟨e.key, e.value, reason, e.tags⟩] }
  else c

/-- Take an entry out of everything that knows it, and queue its callbacks. -/
def dropLocked (i : Fin n) (e : Entry K V) (reason : EvictionReason) : Cache K V n :=
  let c := c.modifyTable i fun t ↦ dropEntry t e
  let c := c.forgetHashLocked cfg i e.key
  let c := c.enqueueUntag env e.key e.tags
  let c := c.addCounters (-1) (-e.weight)
  let c := c.markInvalidated cfg i e.id
  c.queueCallback cfg i e reason

def removeLocked (i : Fin n) (e : Entry K V) (reason : EvictionReason) : Cache K V n :=
  (if supersedesFlight reason then c.supersedeFlight i e.key else c).dropLocked cfg env i e reason

def countDelete : Cache K V n :=
  { c with stats := { c.stats with deletes := c.stats.deletes + 1 } }

def countEviction : Cache K V n :=
  { c with stats := { c.stats with evictions := c.stats.evictions + 1 } }

def countExpiration : Cache K V n :=
  { c with stats := { c.stats with expirations := c.stats.expirations + 1 } }

/-- Remove the entry under a key, if any, superseding its load in either case. -/
def removeKeyLocked (i : Fin n) (key : K) (reason : EvictionReason) : Cache K V n :=
  let c := c.supersedeFlight i key
  match (c.shards i).get key with
  | none => c
  | some e =>
    let c := c.removeLocked cfg env i e reason
    if reason = .deletedWhere ∨ reason = .deletedPrefix then c else c.countDelete

/-! ### Eviction -/

/-- Remove a policy's victim and count the eviction. The victim is a pointer into storage. -/
def evict (i : Fin n) (r : Ref K) (p : Policy K) (reason : EvictionReason) : Cache K V n :=
  let c := c.modifyTable i fun t ↦ { t with policy := p }
  match (c.shards i).byId r.id with
  | none => c
  | some e => (c.removeLocked cfg env i e reason).countEviction

/-- The policy's victim when the shard is over its own budget, with the policy after the choice. -/
def shardVictim (s : Shard K V) : Option (Ref K) × Policy K :=
  if 0 < s.budget ∧ s.budget < s.storage.length then s.policy.victim cfg.hash else (none, s.policy)

/-- The victim a round of `evictOverBudgetLocked` takes, with the policy after the choice. When the
shard has none to give for itself, it still sheds for the cache. -/
def nextVictim (i : Fin n) (keep : ℕ) : Option (Ref K) × Policy K :=
  if (shardVictim cfg (c.shards i)).1.isNone ∧ keep < (c.shards i).storage.length ∧ c.overBudget then
    (shardVictim cfg (c.shards i)).2.shedVictim cfg.hash (decide (0 < keep))
  else shardVictim cfg (c.shards i)

/-- The rounds of `evictOverBudgetLocked`. The second component counts the evictions. -/
def evictRounds (cfg : Config K V) (env : Env K) (i : Fin n) (reason : EvictionReason)
    (keep : ℕ) : ℕ → Cache K V n → Cache K V n × ℕ
  | 0, c => (c, 0)
  | fuel + 1, c =>
    match c.nextVictim cfg i keep with
    | (none, p) => (c.modifyTable i fun t ↦ { t with policy := p }, 0)
    | (some r, p) =>
      let rest := evictRounds cfg env i reason keep fuel (c.evict cfg env i r p reason)
      (rest.1, rest.2 + 1)

/-- Evict while the shard is over its own budget, or while the cache is over its bounds and the
shard holds more than `keep` entries. -/
def evictOverBudgetLocked (i : Fin n) (reason : EvictionReason) (keep : ℕ) : Cache K V n × ℕ :=
  evictRounds cfg env i reason keep ((c.shards i).policy.tracked.length + 1) c

/-- After an insert the new entry is kept as long as another one can go. -/
def evictWhileOverBudgetLocked (i : Fin n) : Cache K V n :=
  (c.evictOverBudgetLocked cfg env i .capacity 1).1

/-- The rounds of `evictOverTotalLocked`. -/
def evictTotalRounds (cfg : Config K V) (env : Env K) (i : Fin n) :
    ℕ → Cache K V n → Cache K V n
  | 0, c => c
  | fuel + 1, c =>
    if 0 < c.maxEntries ∧ (c.maxEntries : ℤ) < c.entries ∧ (c.shards i).storage ≠ [] then
      match (c.shards i).policy.shedVictim cfg.hash false with
      | (none, p) => c.modifyTable i fun t ↦ { t with policy := p }
      | (some r, p) => evictTotalRounds cfg env i fuel (c.evict cfg env i r p .capacity)
    else c

/-- Evict from one shard while the cache as a whole holds too many entries. -/
def evictOverTotalLocked (i : Fin n) : Cache K V n :=
  evictTotalRounds cfg env i ((c.shards i).policy.tracked.length + 1) c

/-- Release the shard's lock: the queued callbacks fire. -/
def releaseShard (i : Fin n) : Cache K V n :=
  let cbs := (c.shards i).pendingCallbacks
  { (c.modify i fun s ↦ { s with pendingCallbacks := [] }) with fired := c.fired ++ cbs }

/-- Visit one shard in a sweep: nothing once the bounds are met. -/
def shed (reason : EvictionReason) (c : Cache K V n) (i : Fin n) : Cache K V n × ℕ :=
  if c.overBudget then
    let r := c.evictOverBudgetLocked cfg env i reason 0
    (r.1.releaseShard i, r.2)
  else (c, 0)

/-- Visit shards in turn, adding up the evictions. Once the bounds are met the remaining visits
change nothing, which is how the source's early return reads here. -/
def shedAll (cfg : Config K V) (env : Env K) (reason : EvictionReason) :
    List (Fin n) → Cache K V n → Cache K V n × ℕ
  | [], c => (c, 0)
  | i :: is, c =>
    let r := c.shed cfg env reason i
    let rest := shedAll cfg env reason is r.1
    (rest.1, r.2 + rest.2)

/-- The order of a sweep: every shard, from the rotating start on, with `last` at the end. -/
def shedOrder (start : ℕ) (last : Option (Fin n)) : List (Fin n) :=
  ((List.range n).map fun i ↦ Fin.ofNat n (start + i)).filter (fun i ↦ some i ≠ last)
    ++ last.toList

/-- One sweep over the shards. -/
def shedPass (reason : EvictionReason) (last : Option (Fin n)) : Cache K V n × ℕ :=
  shedAll cfg env reason (shedOrder (c.shedNext + 1) last) { c with shedNext := c.shedNext + 1 }

/-- Sweeps until the bounds are met or a sweep evicts nothing. -/
def shedPasses (cfg : Config K V) (env : Env K) (reason : EvictionReason)
    (last : Option (Fin n)) : ℕ → Cache K V n → Cache K V n
  | 0, c => c
  | fuel + 1, c =>
    if c.overBudget then
      let r := c.shedPass cfg env reason last
      if r.2 = 0 then r.1 else shedPasses cfg env reason last fuel r.1
    else c

/-- Number of entries the policies track, over all shards. -/
def trackedCount : ℕ := ∑ i, (c.shards i).policy.tracked.length

/-- Bring the cache back within its bounds. -/
def shedOverBudget (reason : EvictionReason) (last : Option (Fin n)) : Cache K V n :=
  shedPasses cfg env reason last (c.trackedCount + 1) c

/-- Release a shard's lock, then bring the cache back within its bounds. -/
def flushAndUnlock (i : Fin n) : Cache K V n :=
  (c.releaseShard i).shedOverBudget cfg env .capacity (some i)

end Cache

end Memcache
