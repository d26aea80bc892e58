import Memcache.Cache.ReadMap

/-!
# Reading without the lock

Under the lock-free read path a shard keeps an immutable snapshot of its keys, which names entry
objects, and a flag that says whether storage has gained a key since. Removed objects are marked
dead. The snapshot is storage as it was, less what is dead (`Publishes`).

So a lock-free hit is what the locked path would have found, and a lock-free miss is a miss in
memory. It is not always a miss of the cache: the locked path has a second source after memory, the
Store, which the snapshot knows nothing of (`servedLockFree_eq_iff`).
-/

namespace Memcache

variable {K V : Type*} {n : ℕ} [BEq K] {cfg : Config K V} {e : Entry K V}

section Reachable

variable [EquivBEq K] [NeZero n] [Inhabited V] {c : Cache K V n}

theorem Reached.readable (h : Reached cfg c) : c.core.Inv ∧ c.core.ReadInv cfg :=
  ⟨h.invariant (I := Core.Inv) (fun hstep hc ↦ hc.step hstep) (Cache.inv_new ..), h.published⟩

namespace Cache

theorem readInv_of_reachable (h : Reachable cfg c) : c.core.Inv ∧ c.core.ReadInv cfg :=
  h.reached.readable

theorem settled_of_reachable (hc : Reachable cfg c) : c.core.Settled := by
  obtain ⟨ops, rfl⟩ := hc
  exact settled_run (T := .all) (.of_forall stepOk_of_equiv _ _)

/-- A reachable cache that stores anything is within its bounds. -/
theorem within_of_reachable (h : Reachable cfg c) {i : Fin n} (he : e ∈ (c.shards i).storage) :
    c.overBudget = false := by
  refine (settled_of_reachable h).resolve_right fun hempty ↦ ?_
  rw [show (c.shards i).storage = [] from hempty i] at he
  cases he

/-- Only a cache with asynchronous writes queues anything. -/
theorem unqueued_of_reachable (hc : Reachable cfg c) (hsync : cfg.asyncWrites = false) :
    c.core.Unqueued :=
  hc.reached.invariant (I := Core.Unqueued) (fun hstep hd ↦ hd.step hstep hsync) fun _ ↦ rfl

theorem pending_of_reachable (hc : Reachable cfg c) (hsync : cfg.asyncWrites = false) (i : Fin n)
    (key : K) : (c.shards i).pending.get key = none :=
  (unqueued_of_reachable hc hsync).get i key

end Cache

end Reachable

namespace Cache

/-! ### The lock-free answer -/

section Answer

variable {s : Shard K V} {key : K} {now : ℤ} {nextId : ℕ}

/-- Reading the snapshot without the lock is on only for the one policy whose bookkeeping is atomic,
and without an expiry function. -/
def lockFreeReadSupported (cfg : Config K V) : Bool :=
  cfg.policy == .s3fifo && cfg.expireFunc.isNone

/-- What `New` makes of the option. -/
def gateLockFreeRead (cfg : Config K V) : Config K V :=
  if !cfg.lockFreeRead || lockFreeReadSupported cfg then cfg else { cfg with lockFreeRead := false }

/-- How a read that memory did not answer ends: with the Store's value, if there is a Store and it
holds the key. -/
def missOrReadThrough (store : Option (K → Option V)) (key : K) : Option V :=
  store.bind fun get ↦ get key

/-- The answer of a read, given how its lookup in memory ended. -/
def answer (store : Option (K → Option V)) (key : K) : Lookup V → Option V
  | .hit value => some value
  | .miss => none
  | .absent => missOrReadThrough store key

theorem get_of_tryLockFreeGet_hit [PartialEquivBEq K] (hs : Publishes cfg.lockFreeRead s.core)
    (ht : TableOk s.toTable nextId) (h : tryLockFreeGet cfg s key now = some (some e)) :
    s.get key = some e :=
  hs.get_of_hit ht.toTableBare h

/-- A lock-free miss is of a key that neither storage nor the snapshot has. -/
theorem get_of_tryLockFreeGet_miss [PartialEquivBEq K] (hs : Publishes cfg.lockFreeRead s.core)
    (h : tryLockFreeGet cfg s key now = some none) :
    s.get key = none ∧ snapshotHasKey s key = false := by
  obtain ⟨rm, hrm, hnone, -⟩ := tryLockFreeGet_eq_miss h
  exact ⟨hs.get_of_miss h, by rw [snapshotHasKey, hrm]; simp [hnone]⟩

theorem snapshotHasKey_of_hit (h : tryLockFreeGet cfg s key now = some (some e)) :
    snapshotHasKey s key = true := by
  obtain ⟨rm, id, hrm, hid, -⟩ := tryLockFreeGet_eq_hit h
  rw [snapshotHasKey, hrm]
  show (rm.m.get key).isSome = true
  rw [hid]
  rfl

/-- Under the lock, a lock-free hit is the same hit. -/
theorem getLocked_of_tryLockFreeGet_hit [NeZero n] {env : Env K} {c : Cache K V n} {i : Fin n}
    (hget : (c.shards i).get key = some e)
    (h : tryLockFreeGet cfg (c.shards i) key env.now = some (some e)) :
    (c.getLocked cfg env i key).1 = .hit e.value := by
  obtain ⟨-, -, -, -, -, -, hfast⟩ := tryLockFreeGet_eq_hit h
  simp only [getLocked, hget, hfast, if_true]

/-- **A read the snapshot decides agrees with the locked path**, in every reachable state, exactly
when the snapshot has the key or the Store does not. -/
theorem servedLockFree_eq_iff [EquivBEq K] [NeZero n] [Inhabited V] {c : Cache K V n}
    (hc : Reachable cfg c) (env : Env K) (key : K) (store : Option (K → Option V))
    (hopen : c.closed = false)
    (hqueue : asyncReadHit (c.shards (shardFor cfg key)) key env.now = none)
    (hserved : (tryLockFreeGet cfg (c.shards (shardFor cfg key)) key env.now).isSome) :
    answer store key (c.get cfg env key).1 =
        answer store key (c.getLocked cfg env (shardFor cfg key) key).1 ↔
      snapshotHasKey (c.shards (shardFor cfg key)) key ∨ missOrReadThrough store key = none := by
  obtain ⟨hinv, hread⟩ := readInv_of_reachable hc
  rw [get, hopen, if_neg Bool.false_ne_true, hqueue]
  obtain ⟨r, hr⟩ := Option.isSome_iff_exists.1 hserved
  simp only [hr]
  cases r with
  | some e =>
    have hget := get_of_tryLockFreeGet_hit (hread _) (hinv.table _) hr
    rw [getLocked_of_tryLockFreeGet_hit hget hr]
    simp [snapshotHasKey_of_hit hr]
  | none =>
    obtain ⟨hget, hno⟩ := get_of_tryLockFreeGet_miss (hread _) hr
    rw [hno, getLocked, hget]
    simp [answer, eq_comm]

section Get

variable [PartialEquivBEq K] [NeZero n] {env : Env K} {c : Cache K V n}

/-- A fresh entry answers a read, whichever path serves it. -/
theorem get_eq_hit (hinv : c.core.Inv) (hread : c.core.ReadInv cfg) (hopen : c.closed = false)
    (hqueue : (c.shards (shardFor cfg key)).pending.get key = none)
    (hget : (c.shards (shardFor cfg key)).get key = some e)
    (hfresh : entryExpiredLocked cfg e env.now = false) (hneg : e.negative = false) :
    (c.get cfg env key).1 = .hit e.value := by
  have hq : asyncReadHit (c.shards (shardFor cfg key)) key env.now = none := by
    rw [asyncReadHit, hqueue]
  rw [get, hopen, if_neg Bool.false_ne_true, hq]
  simp only
  split
  · next e' hfast =>
    rw [get_of_tryLockFreeGet_hit (hread _) (hinv.table _) hfast] at hget
    cases hget
    rfl
  · next hfast =>
    rw [(get_of_tryLockFreeGet_miss (hread _) hfast).1] at hget
    cases hget
  · simp only [getLocked, hget, hfresh, hneg, Bool.false_eq_true, if_false]
    split <;> rfl

/-- A key that is neither stored nor queued is not a hit. -/
theorem get_ne_hit (hinv : c.core.Inv) (hread : c.core.ReadInv cfg)
    (hqueue : (c.shards (shardFor cfg key)).pending.get key = none)
    (hget : (c.shards (shardFor cfg key)).get key = none) (value : V) :
    (c.get cfg env key).1 ≠ .hit value := by
  have hq : asyncReadHit (c.shards (shardFor cfg key)) key env.now = none := by
    rw [asyncReadHit, hqueue]
  rw [get, hq]
  split
  · simp
  · simp only
    split
    · next e' hfast =>
      rw [get_of_tryLockFreeGet_hit (hread _) (hinv.table _) hfast] at hget
      cases hget
    · simp
    · simp only [getLocked, hget]
      simp

end Get

end Answer

/-- The lock-free read path on the default policy. -/
def lockFreeConfig : Config ℕ ℕ :=
  gateLockFreeRead { defaultConfig (fun k ↦ k.toUInt64) with lockFreeRead := true }

/-- One write, and reads until the snapshot is rebuilt. -/
def setAndPromote : List (Env ℕ × Op ℕ ℕ 1) :=
  (.instant 1, .set 1 10) :: List.replicate 8 (.instant 1, .get 1)

theorem servedLockFree_eq_iff_hit :
    answer (some fun _ ↦ some 7) 1
        ((run lockFreeConfig (new lockFreeConfig 1) setAndPromote).get lockFreeConfig (.instant 1)
          1).1 =
      answer (some fun _ ↦ some 7) 1
        ((run lockFreeConfig (new lockFreeConfig 1) setAndPromote).getLocked lockFreeConfig
          (.instant 1) (shardFor lockFreeConfig 1) 1).1 :=
  (servedLockFree_eq_iff ⟨setAndPromote, rfl⟩ (.instant 1) 1 (some fun _ ↦ some 7)
    (by decide +kernel) (by decide +kernel) (by decide +kernel)).2 (.inl (by decide +kernel))

/-- The snapshot of a fresh cache is complete, so it turns away a key the Store holds. -/
theorem answer_get_ne_getLocked :
    lockFreeReadSupported lockFreeConfig = true ∧
      answer (some fun _ ↦ some 7) 1 ((new lockFreeConfig 1).get lockFreeConfig (.instant 1) 1).1 =
        none ∧
      answer (some fun _ ↦ some 7) 1
        ((new lockFreeConfig 1).getLocked lockFreeConfig (.instant 1) (shardFor lockFreeConfig 1)
          1).1 = some 7 := by
  decide +kernel

end Cache

end Memcache
