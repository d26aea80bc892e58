import Memcache.Cache.Upsert

/-!
# Reads

`Get` tries four sources in order. A queued write covers its key; the lock-free snapshot may answer
on its own, for a hit as well as for a miss; a hit that needs no bookkeeping is served under the read
lock; and what is left goes through the write lock, which removes an expired entry, serves a stale
one when the configuration allows it, and tells the policy about an ordinary hit.

A read that ends `absent` is one the source hands to `missOrReadThrough`, so a Store, if there is one,
is still to be consulted. A read that ends `miss` is final.
-/

namespace Memcache

variable {K V : Type*} {n : ℕ}

/-- How a lookup in memory ended. -/
inductive Lookup (V : Type*) where
  | hit (value : V)
  | miss
  | absent
deriving DecidableEq, Repr

/-- The value a lookup found. -/
def Lookup.value : Lookup V → Option V
  | hit v => some v
  | miss | absent => none

namespace Cache

/-! ### Background refreshes -/

/-- Whether a hit is late enough in the entry's life to start a load. -/
def shouldRefreshAhead (cfg : Config K V) (e : Entry K V) (now : ℤ) : Bool :=
  cfg.hasLoader && decide (0 < cfg.refreshAheadAt ∧ cfg.refreshAheadAt < 1) && !e.negative &&
    decide (e.expireAt ≠ 0) && decide (0 < wrap64 (e.expireAt - e.inserted)) &&
    decide (⌊cfg.refreshAheadAt * wrap64 (e.expireAt - e.inserted)⌋ ≤ wrap64 (now - e.inserted))

/-- Whether an expired entry may still be served while a load replaces it. -/
def shouldServeStale (cfg : Config K V) (e : Entry K V) (now : ℤ) : Bool :=
  cfg.hasLoader && decide (0 < cfg.swrStaleFor) && !e.negative &&
    decide (e.expireAt ≠ 0 ∧ e.expireAt ≤ now) &&
    decide (wrap64 (now - e.expireAt) < cfg.swrStaleFor)

/-- A stale hit counts and tells the policy; the expiry stays as it is. -/
def staleHit (cfg : Config K V) (c : Cache K V n) (i : Fin n) (e : Entry K V) : Cache K V n :=
  c.modifyTable i fun t ↦
    { t.put { e with hits := e.hits + 1 } with policy := t.policy.onAccess cfg.hash e.id }

/-- A hit served under the read lock only counts. -/
def countHit (c : Cache K V n) (i : Fin n) (e : Entry K V) : Cache K V n :=
  c.modifyTable i fun t ↦ t.put { e with hits := e.hits + 1 }

variable [BEq K] [NeZero n] (cfg : Config K V) (env : Env K) (c : Cache K V n)

/-- Start a background load unless one is in flight. -/
def startRefreshLocked (i : Fin n) (key : K) : Cache K V n :=
  if ((c.shards i).flights.inflight.get key).isSome then c
  else c.modify i fun s ↦ { s with flights := s.flights.startFlight key }

def triggerAsyncRefreshLocked (i : Fin n) (key : K) : Cache K V n :=
  if cfg.hasLoader then c.startRefreshLocked i key else c

/-! ### The queue and the snapshot -/

/-- What a queued write makes a read of its key see; `none` when no write of the key is queued. -/
def asyncReadHit (s : Shard K V) (key : K) (now : ℤ) : Option (Lookup V) :=
  match s.pending.get key with
  | none => none
  | some op =>
    match op.kind with
    | .delete => some .miss
    | .set => if 0 < op.expireAt ∧ op.expireAt ≤ now then some .miss else some (.hit op.value)

def snapshotHasKey (s : Shard K V) (key : K) : Bool :=
  match s.read with
  | none => false
  | some rm => (rm.m.get key).isSome

/-- Serve a key from the read snapshot. The entry objects are read through their identity; one that
was removed from storage is marked. `none` sends the reader to the locked path. -/
def tryLockFreeGet (s : Shard K V) (key : K) (now : ℤ) : Option (Option (Entry K V)) :=
  match s.read with
  | none => none
  | some rm =>
    match rm.m.get key with
    | none => if rm.amended then none else some none
    | some id =>
      if id ∈ s.dead then none
      else
        match s.byId id with
        | none => none
        | some e =>
          if entryExpiredLocked cfg e now || e.negative || e.sliding ||
              s.policy.promotionNeeded e.id || shouldRefreshAhead cfg e now then none
          else some (some e)

/-- Whether a hit can be served under the read lock. -/
def servesUnderReadLock (s : Shard K V) (e : Entry K V) (now : ℤ) : Bool :=
  !entryExpiredLocked cfg e now && !e.negative && !e.sliding &&
    !s.policy.promotionNeeded e.id && !shouldRefreshAhead cfg e now

/-- A lock-free hit is a stored entry that the snapshot names, and that the read lock would do for. -/
theorem tryLockFreeGet_eq_hit {cfg : Config K V} {s : Shard K V} {key : K} {now : ℤ} {e : Entry K V}
    (h : tryLockFreeGet cfg s key now = some (some e)) :
    ∃ rm id, s.read = some rm ∧ rm.m.get key = some id ∧ id ∉ s.dead ∧ s.byId id = some e ∧
      servesUnderReadLock cfg s e now := by
  unfold tryLockFreeGet at h
  split at h
  · cases h
  · next rm hrm =>
    split at h
    · split_ifs at h
      cases h
    · next id hid =>
      split_ifs at h with hdead
      split at h
      · cases h
      · next e' he' =>
        split_ifs at h with hno
        cases h
        refine ⟨rm, id, hrm, hid, hdead, he', ?_⟩
        simpa only [servesUnderReadLock, Bool.not_eq_true, Bool.or_eq_false_iff, Bool.and_eq_true,
          Bool.not_eq_true'] using hno

/-- A lock-free miss is one the snapshot is sure of. -/
theorem tryLockFreeGet_eq_miss {cfg : Config K V} {s : Shard K V} {key : K} {now : ℤ}
    (h : tryLockFreeGet cfg s key now = some none) :
    ∃ rm, s.read = some rm ∧ rm.m.get key = none ∧ rm.amended = false := by
  unfold tryLockFreeGet at h
  split at h
  · cases h
  · next rm hrm =>
    split at h
    · next hnone =>
      split_ifs at h with ha
      exact ⟨rm, hrm, hnone, by simpa using ha⟩
    · split_ifs at h
      split at h
      · cases h
      · split_ifs at h
        cases h

/-- Count a read the snapshot did not have. -/
def recordReadMiss (i : Fin n) (key : K) : Cache K V n :=
  if (c.shards i).read.isNone || snapshotHasKey (c.shards i) key then c
  else c.modify i countReadMiss

def maybePromoteOnSlowHit (i : Fin n) (key : K) : Cache K V n :=
  if !cfg.lockFreeRead || snapshotHasKey (c.shards i) key then c
  else c.modify i countReadMiss

/-! ### Get -/

/-- The part of `getCtx` under the shard's lock. -/
def getLocked (i : Fin n) (key : K) : Lookup V × Cache K V n :=
  match (c.shards i).get key with
  | none => (.absent, c.flushAndUnlock cfg env i)
  | some e =>
    if servesUnderReadLock cfg (c.shards i) e env.now then
      (.hit e.value,
        if cfg.lockFreeRead then (c.countHit i e).recordReadMiss i key else c.countHit i e)
    else if entryExpiredLocked cfg e env.now then
      if !e.negative && shouldServeStale cfg e env.now then
        (.hit e.value,
          ((c.triggerAsyncRefreshLocked cfg i key).staleHit cfg i e).flushAndUnlock cfg env i)
      else
        (.absent, ((c.removeLocked cfg env i e (expiryReason e env.now)).countExpiration).flushAndUnlock
          cfg env i)
    else if e.negative then (.miss, c.flushAndUnlock cfg env i)
    else
      let touched := c.touchEntry cfg env i e
      let late := shouldRefreshAhead cfg
        (({ e with hits := e.hits + 1 } : Entry K V).touchAccess env.now).1 env.now
      let touched := if late then touched.triggerAsyncRefreshLocked cfg i key else touched
      (.hit e.value, (touched.maybePromoteOnSlowHit cfg i key).flushAndUnlock cfg env i)

/-- The part of `getCtx` under the shard's write lock, which does without the path before it. -/
def getWriteLocked (i : Fin n) (key : K) : Lookup V × Cache K V n :=
  match (c.shards i).get key with
  | none => (.absent, c.flushAndUnlock cfg env i)
  | some e =>
    if entryExpiredLocked cfg e env.now then
      if !e.negative && shouldServeStale cfg e env.now then
        (.hit e.value,
          ((c.triggerAsyncRefreshLocked cfg i key).staleHit cfg i e).flushAndUnlock cfg env i)
      else
        (.absent, ((c.removeLocked cfg env i e (expiryReason e env.now)).countExpiration).flushAndUnlock
          cfg env i)
    else if e.negative then (.miss, c.flushAndUnlock cfg env i)
    else
      let touched := c.touchEntry cfg env i e
      let late := shouldRefreshAhead cfg
        (({ e with hits := e.hits + 1 } : Entry K V).touchAccess env.now).1 env.now
      let touched := if late then touched.triggerAsyncRefreshLocked cfg i key else touched
      (.hit e.value, (touched.maybePromoteOnSlowHit cfg i key).flushAndUnlock cfg env i)

def get (key : K) : Lookup V × Cache K V n :=
  let i := shardFor cfg key
  if c.closed then (.miss, c)
  else
    match asyncReadHit (c.shards i) key env.now with
    | some r => (r, c)
    | none =>
      match tryLockFreeGet cfg (c.shards i) key env.now with
      | some (some e) => (.hit e.value, c.countHit i e)
      | some none => (.miss, c)
      | none => c.getLocked cfg env i key

end Cache

end Memcache
