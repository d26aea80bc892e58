import Memcache.Cache.Heeds
import Memcache.Lib.Runs

/-!
# Calls that reach the Store

With a Store behind it, a call that writes a key holds **the key's lock** from before its first step in
memory until after its last step in the Store, so the calls on one key take their steps one call after
another. Between two steps of a call the shard's lock is free, and other threads work on memory there:
they evict the key, drop its tag, clear the shard, and write other keys.

Here is one key, its record in the Store, the call that holds its lock and what is left for it to do,
and the outcomes of the calls that have returned. A step in the Store succeeds or fails as a whole.
Writes have no TTL, so a record does not expire.
-/

namespace Memcache

variable {K V : Type*} {n : ℕ}

/-! ### Calls -/

/-- A call that takes the key's lock. -/
inductive KeyCall (V : Type*) where
  | set (value : V)
  | setWithOptions (value : V) (opts : List SetOption)
  | conditional (kind : Cache.Conditional) (value : V)
  | compute (fn : Option V → Cache.ComputeResult V)
  | computeIfAbsent (res : Option (V × ℤ))
  | delete (reason : EvictionReason)
  | deleteIf (pred : V → Bool)

namespace KeyCall

/-- The reason under which a call removes the key from memory, once the Store has deleted it.
`DeleteWhere` and `DeletePrefix` delete each key that they find, under a reason of their own. -/
def reason : KeyCall V → EvictionReason
  | .delete reason => reason
  | _ => .deleted

/-- `ComputeIfPresent`: the function is called for a present key only. -/
def computeIfPresent (fn : V → Cache.ComputeResult V) : KeyCall V :=
  .compute fun cur ↦
    match cur with
    | none => .noOp
    | some v => fn v

/-- `Update`; an absent key is an error. -/
def update (fn : V → V) : KeyCall V :=
  .compute fun cur ↦
    match cur with
    | none => .error
    | some v => .store (fn v)

/-- `CompareAndSwap`, with the comparison as an argument. -/
def compareAndSwap (same : V → Bool) (newValue : V) : KeyCall V :=
  .computeIfPresent fun v ↦ if same v then .store newValue else .noOp

/-- `IncrementBy`: an absent key counts from zero. -/
def incrementBy [Zero V] [Add V] (delta : V) : KeyCall V :=
  .compute fun cur ↦ .store (cur.getD 0 + delta)

/-- The value a call returns once it has stored one. -/
def returns (call : KeyCall V) (value : V) : Option V :=
  match call with
  | .compute _ | .computeIfAbsent _ | .conditional .getOrSet _ | .conditional .peekOrAdd _ => some value
  | _ => none

end KeyCall

/-- The write that a call has still to make in the Store. -/
inductive Mirror (V : Type*) where
  | set (value : V)
  | del
deriving DecidableEq, Repr

/-- What the holder of the key's lock does next: read the Store, go on with its answer (`none` when the
read failed), write the Store, undo its write in memory, or delete in the Store first and then in
memory. -/
inductive KeyPhase (V : Type*) where
  | free
  | reading (call : KeyCall V)
  | answered (call : KeyCall V) (answer : Option (Option V))
  | mirror (call : KeyCall V) (m : Mirror V)
  | rollback (call : KeyCall V)
  | deleting (call : KeyCall V)
  | removing (call : KeyCall V) (failed : Bool)

/-- How a call returned: with an error or not, with which value, whether it had put a value of its own
in memory, and what memory held under the key then. -/
structure Outcome (V : Type*) where
  call : KeyCall V
  error : Bool
  value : Option V
  wrote : Bool
  left : Option V

/-- The key's current value, and its entry when memory has it. -/
structure Current (K V : Type*) where
  entry : Option (Entry K V)
  value : Option V

structure StoreRun (K V : Type*) (n : ℕ) where
  cache : Cache K V n
  record : Option V
  phase : KeyPhase V
  log : List (Outcome V)

variable [BEq K] [NeZero n]

namespace Cache

/-- The value that memory holds under a key; a tombstone is none. -/
def memory (cfg : Config K V) (c : Cache K V n) (key : K) : Option V :=
  ((c.lookupKey cfg key).filter fun e ↦ !e.negative).map Entry.value

/-- Store a computed value over the key's current one. -/
def replaceOrStoreLocked (cfg : Config K V) (env : Env K) (c : Cache K V n) (i : Fin n)
    (e : Option (Entry K V)) (key : K) (value : V) (weight : ℤ) : Cache K V n :=
  match e with
  | some e => c.replaceValueLocked cfg env i e value weight
  | none => c.storeComputedLocked cfg env i key value weight

end Cache

namespace StoreRun

/-- A cache in front of a Store that has a record, before any call. -/
def start (c : Cache K V n) (record : Option V) : StoreRun K V n := ⟨c, record, .free, []⟩

variable (cfg : Config K V) (key : K)

/-- Return from a call, and release the key's lock. -/
def ret (s : StoreRun K V n) (call : KeyCall V) (error : Bool) (value : Option V) (wrote : Bool) :
    StoreRun K V n :=
  { s with
    phase := .free
    log := s.log ++ [⟨call, error, value, wrote, s.cache.memory cfg key⟩] }

/-- Put a value in memory, release the shard's lock, and go on to the Store. -/
def wrote (s : StoreRun K V n) (c : Cache K V n) (call : KeyCall V) (m : Mirror V) :
    StoreRun K V n :=
  { s with cache := c.releaseShard (Cache.shardFor cfg key), phase := .mirror call m }

/-- A call acts on the key's current value, under the shard's lock. -/
def act (env : Env K) (s : StoreRun K V n) (cur : Current K V) (call : KeyCall V) :
    StoreRun K V n :=
  let i : Fin n := Cache.shardFor cfg key
  match call with
  | .conditional kind value =>
    match computeWeight cfg value with
    | .error _ => s.ret cfg key call true none false
    | .ok weight =>
      let stored := s.wrote cfg key (s.cache.upsertDefault cfg env i key value weight) call (.set value)
      match kind, cur.value with
      | .setIfAbsent, some _ | .setIfPresent, none => s.ret cfg key call false none false
      | .getOrSet, some v =>
        { s with cache := match cur.entry with
            | some e => s.cache.touchEntry cfg env i e
            | none => s.cache }.ret cfg key call false (some v) false
      | .peekOrAdd, some v => s.ret cfg key call false (some v) false
      | .setIfAbsent, none | .setIfPresent, some _ | .getOrSet, none | .peekOrAdd, none => stored
  | .compute fn =>
    match fn cur.value with
    | .error => s.ret cfg key call true none false
    | .noOp => s.ret cfg key call false cur.value false
    | .store value =>
      match computeWeight cfg value with
      | .error _ => s.ret cfg key call true none false
      | .ok weight =>
        s.wrote cfg key (s.cache.replaceOrStoreLocked cfg env i cur.entry key value weight) call
          (.set value)
    | .delete =>
      match cur.value, cur.entry with
      | none, _ => s.ret cfg key call false none false
      | some _, some e => s.wrote cfg key (s.cache.removeLocked cfg env i e .computed) call .del
      | some _, none => s.wrote cfg key s.cache call .del
  | .computeIfAbsent res =>
    match cur.value, res with
    | some v, _ => s.ret cfg key call false (some v) false
    | none, none => s.ret cfg key call true none false
    | none, some (value, ttl) =>
      if ttl < 0 then s.ret cfg key call true none false
      else
        match computeWeight cfg value with
        | .error _ => s.ret cfg key call true none false
        | .ok weight =>
          s.wrote cfg key (s.cache.upsertLocked cfg env i key value weight
            (cfg.effectiveTTL env (if ttl = 0 then cfg.defaultTTL else ttl)) cfg.slidingTTL
            (if ttl = 0 then cfg.defaultTTL else ttl) []) call (.set value)
  | .deleteIf pred =>
    if cur.value.any pred then
      { s with cache := s.cache.releaseShard i, phase := .deleting call }
    else s.ret cfg key call false none false
  | .set _ | .setWithOptions _ _ | .delete _ => s

/-- The first section of a call that acts on the current value: a fresh entry is it, and without one
the Store is read with the shard's lock released. -/
def consult (env : Env K) (s : StoreRun K V n) (call : KeyCall V) : StoreRun K V n :=
  match s.cache.freshEntryLocked cfg env (Cache.shardFor cfg key) key with
  | some e => s.act cfg key env ⟨some e, some e.value⟩ call
  | none => { s with
      cache := s.cache.releaseShard (Cache.shardFor cfg key)
      phase := .reading call }

/-- A call takes the key's lock. -/
def begin (env : Env K) (s : StoreRun K V n) (call : KeyCall V) : StoreRun K V n :=
  let i : Fin n := Cache.shardFor cfg key
  match call with
  | .set value =>
    match s.cache.checkSet cfg key value (cfg.autoTags value) with
    | .error _ => s.ret cfg key call true none false
    | .ok weight =>
      let ttl := (cfg.valueTTL value).getD cfg.defaultTTL
      s.wrote cfg key (s.cache.upsertLocked cfg env i key value weight (cfg.effectiveTTL env ttl)
        cfg.slidingTTL ttl (cfg.autoTags value)) call (.set value)
  | .setWithOptions value opts =>
    let sc := resolveOptions cfg value opts
    match s.cache.checkOptions cfg key value sc with
    | .error _ => s.ret cfg key call true none false
    | .ok weight =>
      s.wrote cfg key (s.cache.upsertOptionsLocked cfg env i key value weight sc) call
        (if sc.hasExpiry ∧ sc.expireAt ≠ zeroTime ∧ sc.expireAt ≤ env.now then .del
          else .set value)
  | .conditional _ value =>
    match s.cache.checkSet cfg key value (cfg.autoTags value) with
    | .error _ => s.ret cfg key call true none false
    | .ok _ => s.consult cfg key env call
  | .compute _ | .computeIfAbsent _ => if s.cache.closed then s.ret cfg key call true none false
      else s.consult cfg key env call
  | .deleteIf _ => if s.cache.closed then s.ret cfg key call false none false
      else s.consult cfg key env call
  | .delete _ => if s.cache.closed then s.ret cfg key call false none false
      else { s with phase := .deleting call }

/-- The Store is called. A failed call changes nothing there. -/
def store (s : StoreRun K V n) (fails : Bool) : StoreRun K V n :=
  match s.phase with
  | .reading call => { s with phase := .answered call (if fails then none else some s.record) }
  | .mirror call (.set value) =>
    if fails then { s with phase := .rollback call }
    else { s with record := some value }.ret cfg key call false (call.returns value) true
  | .mirror call .del =>
    if fails then
      match call with
      | .setWithOptions _ _ => { s with phase := .rollback call }
      | _ => s.ret cfg key call true none false
    else { s with record := none }.ret cfg key call false none false
  | .deleting call =>
    { s with
      record := if fails then s.record else none
      phase := .removing call fails }
  | .free | .answered _ _ | .rollback _ | .removing _ _ => s

/-- The holder takes the shard's lock again. `ttl` is what the Store says of the record's expiry. -/
def resume (env : Env K) (ttl : Option Cache.TTLAnswer) (s : StoreRun K V n) : StoreRun K V n :=
  let i : Fin n := Cache.shardFor cfg key
  match s.phase with
  | .answered call answer =>
    match s.cache.freshEntryLocked cfg env i key, answer with
    | some e, _ => s.act cfg key env ⟨some e, some e.value⟩ call
    | none, none => s.ret cfg key call true none false
    | none, some none => s.act cfg key env ⟨none, none⟩ call
    | none, some (some v) =>
      let expireAt := Cache.storeExpireAt env.now ttl
      let c := s.cache.promoteLocked cfg env i key v expireAt
        (s.cache.preparePromotion cfg key v expireAt)
      { s with cache := c }.act cfg key env ⟨(c.shards i).get key, some v⟩ call
  | .rollback call =>
    { s with cache := match (s.cache.shards i).get key with
        | some e => (s.cache.removeLocked cfg env i e .storeRollback).releaseShard i
        | none => s.cache.releaseShard i }.ret cfg key call true none true
  | .removing call failed =>
    { s with cache := (s.cache.removeKeyLocked cfg env i key call.reason).releaseShard i }.ret cfg key
      call failed none false
  | .free | .reading _ | .mirror _ _ | .deleting _ => s

/-- What happens next: a call takes the free lock, the Store is called, the holder goes on in memory,
or other threads turn memory into `c`. -/
inductive Act (K V : Type*) (n : ℕ) where
  | begin (env : Env K) (call : KeyCall V)
  | store (fails : Bool)
  | resume (env : Env K) (ttl : Option Cache.TTLAnswer)
  | work (c : Cache K V n)

def step (s : StoreRun K V n) : Act K V n → StoreRun K V n
  | .begin env call =>
    match s.phase with
    | .free => s.begin cfg key env call
    | _ => s
  | .store fails => s.store cfg key fails
  | .resume env ttl => s.resume cfg key env ttl
  | .work c => { s with cache := c }

end StoreRun

end Memcache
