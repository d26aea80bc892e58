import Memcache.Cache.LockFree
import Memcache.Cache.Put

/-!
# What a read leaves behind

A `Get` counts a hit, slides an expiry, removes what has expired, and may start a background load.
Whichever of its four paths serves it, the entry it leaves under its key is the one it found, with
another hit count and perhaps another last access and expiry (`Entry.Touched`), or none; and the loads
of its shard are what they were, **or have one more, for its key, which had none in flight**.

The path under the read lock gives what the path under the write lock gives
(`Cache.getWriteLocked_eq`), and a key that is absent is not hit until an operation names it
(`Cache.get_ne_hit_of_unnamed`).
-/

namespace Memcache

variable {K V : Type*} {n : ℕ}

/-- What a read makes of an entry. -/
inductive Entry.Touched (now : ℤ) (e : Entry K V) : Entry K V → Prop where
  | same : Touched now e e
  | hit : Touched now e { e with hits := e.hits + 1 }
  | touch : Touched now e (({ e with hits := e.hits + 1 } : Entry K V).touchAccess now).1

namespace Entry.Touched

variable {now : ℤ} {e e' : Entry K V}

variable (h : Touched now e e')
include h

/-- A read leaves everything but the hit count, the last access and the expiry. -/
theorem fields :
    e'.key = e.key ∧ e'.value = e.value ∧
    e'.inserted = e.inserted ∧ e'.slidingTTL = e.slidingTTL ∧ e'.sliding = e.sliding ∧
    e'.negative = e.negative ∧ e'.tags = e.tags ∧ e'.weight = e.weight := by
  cases h with
  | touch =>
    unfold touchAccess
    split_ifs <;> exact ⟨rfl, rfl, rfl, rfl, rfl, rfl, rfl, rfl⟩
  | _ => exact ⟨rfl, rfl, rfl, rfl, rfl, rfl, rfl, rfl⟩

theorem key_eq : e'.key = e.key := h.fields.1

theorem value_eq : e'.value = e.value := h.fields.2.1

theorem inserted_eq : e'.inserted = e.inserted := h.fields.2.2.1

theorem sliding_eq : e'.sliding = e.sliding := h.fields.2.2.2.2.1

theorem negative_eq : e'.negative = e.negative := h.fields.2.2.2.2.2.1

/-- Only the expiry of a sliding entry moves. -/
theorem expireAt_eq (hs : e.sliding = false) : e'.expireAt = e.expireAt := by
  cases h with
  | touch =>
    unfold touchAccess
    rw [if_pos (Or.inl (by simp [hs]))]
  | _ => rfl

end Entry.Touched

namespace Cache

variable [BEq K]

/-- `c'` is `c` after a read of the key. -/
structure Reads (c c' : Cache K V n) (i : Fin n) (key : K) (now : ℤ) : Prop extends Frame c c' where
  get : ∀ e', (c'.shards i).get key = some e' → ∃ e, (c.shards i).get key = some e ∧ e.Touched now e'
  flights : (∀ j, (c'.shards j).flights = (c.shards j).flights) ∨
    (c.shards i).flights.inflight.get key = none ∧
      (c'.shards i).flights = (c.shards i).flights.startFlight key ∧
      ∀ j ≠ i, (c'.shards j).flights = (c.shards j).flights

variable {cfg : Config K V} {env : Env K} {c c' c'' : Cache K V n} {i : Fin n} {key : K} {now : ℤ}
  {e e' : Entry K V}

namespace Reads

theorem of_sheds (h : Sheds c c') : Reads c c' i key now where
  toFrame := h.toFrame
  get e' he' := ⟨e', h.get_of_get he', .same⟩
  flights := .inl h.flights

/-- What is taken away after a read does not matter. -/
theorem sheds (h : Reads c c' i key now) (h' : Sheds c' c'') : Reads c c'' i key now where
  toFrame := h.toFrame.trans h'.toFrame
  get e' he' := h.get e' (h'.get_of_get he')
  flights := by
    rcases h.flights with hf | ⟨hnone, hf, hne⟩
    · exact .inl fun j ↦ (h'.flights j).trans (hf j)
    · exact .inr ⟨hnone, (h'.flights i).trans hf, fun j hj ↦ (h'.flights j).trans (hne j hj)⟩

/-- A hit. -/
theorem of_still (h : Still c c') (he : (c.shards i).get key = some e)
    (he' : (c'.shards i).get key = some e') (ht : e.Touched now e') : Reads c c' i key now where
  toFrame := h.toFrame
  get _ hb := ⟨e, he, Option.some.inj (he'.symm.trans hb) ▸ ht⟩
  flights := .inl h.flights

end Reads

/-! ### Background loads -/

/-- A background load is started when there is a loader and none of the key is in flight. -/
theorem triggerAsyncRefreshLocked_cases (cfg : Config K V) (c : Cache K V n) (i : Fin n) (key : K) :
    c.triggerAsyncRefreshLocked cfg i key = c ∧
        (cfg.hasLoader = false ∨ ((c.shards i).flights.inflight.get key).isSome) ∨
      cfg.hasLoader = true ∧ (c.shards i).flights.inflight.get key = none ∧
        c.triggerAsyncRefreshLocked cfg i key =
          c.modify i fun s ↦ { s with flights := s.flights.startFlight key } := by
  unfold triggerAsyncRefreshLocked startRefreshLocked
  rcases Bool.eq_false_or_eq_true cfg.hasLoader with hl | hl
  · rw [if_pos hl]
    rcases hn : (c.shards i).flights.inflight.get key with - | id
    · exact .inr ⟨hl, rfl, if_neg (by simp)⟩
    · exact .inl ⟨if_pos rfl, .inr rfl⟩
  · rw [hl]
    exact .inl ⟨rfl, .inl rfl⟩

/-- The state of a shard whose key got a background load. -/
theorem reads_startFlight (hnone : (c.shards i).flights.inflight.get key = none) :
    Reads c (c.modify i fun s ↦ { s with flights := s.flights.startFlight key }) i key now where
  toFrame := frame_modify i rfl rfl (.startFlight _ key)
  get e' he' := by
    rw [modify_shards_self] at he'
    exact ⟨e', he', .same⟩
  flights := .inr ⟨hnone, by rw [modify_shards_self], fun j hj ↦ by rw [modify_shards_of_ne _ _ hj]⟩

theorem reads_triggerAsyncRefreshLocked (cfg : Config K V) (c : Cache K V n) (i : Fin n) (key : K)
    (now : ℤ) :
    Reads c (c.triggerAsyncRefreshLocked cfg i key) i key now := by
  rcases triggerAsyncRefreshLocked_cases cfg c i key with ⟨h, -⟩ | ⟨-, hnone, h⟩
  · rw [h]
    exact .of_sheds (.refl c)
  · rw [h]
    exact reads_startFlight hnone

/-- A hit after the load was started, with the table as it was. -/
theorem Reads.then_still (h : Reads c c' i key now)
    (hc : (c'.shards i).get key = (c.shards i).get key) (h' : Still c' c'')
    (he : (c'.shards i).get key = some e) (he' : (c''.shards i).get key = some e')
    (ht : e.Touched now e') : Reads c c'' i key now where
  toFrame := h.toFrame.trans h'.toFrame
  get _ hb := ⟨e, hc ▸ he, Option.some.inj (he'.symm.trans hb) ▸ ht⟩
  flights := by
    rcases h.flights with hf | ⟨hnone, hf, hne⟩
    · exact .inl fun j ↦ (h'.flights j).trans (hf j)
    · exact .inr ⟨hnone, (h'.flights i).trans hf, fun j hj ↦ (h'.flights j).trans (hne j hj)⟩

theorem get_triggerAsyncRefreshLocked (cfg : Config K V) (c : Cache K V n) (i : Fin n) (key : K) :
    ((c.triggerAsyncRefreshLocked cfg i key).shards i).get key = (c.shards i).get key := by
  rcases triggerAsyncRefreshLocked_cases cfg c i key with ⟨h, -⟩ | ⟨-, -, h⟩
  · rw [h]
  · rw [h, modify_shards_self]

/-- A load started after the hit. -/
theorem Reads.trigger (cfg : Config K V) (h : Still c c') (he : (c.shards i).get key = some e)
    (he' : (c'.shards i).get key = some e') (ht : e.Touched now e') :
    Reads c (c'.triggerAsyncRefreshLocked cfg i key) i key now where
  toFrame := h.toFrame.trans (reads_triggerAsyncRefreshLocked cfg c' i key now).toFrame
  get b hb := by
    rw [get_triggerAsyncRefreshLocked] at hb
    exact ⟨e, he, Option.some.inj (he'.symm.trans hb) ▸ ht⟩
  flights := by
    have hf := (reads_triggerAsyncRefreshLocked cfg c' i key now).flights
    simpa only [h.flights] using hf

/-! ### Get -/

theorem sheds_recordReadMiss (c : Cache K V n) : Sheds c (c.recordReadMiss i key) := by
  unfold recordReadMiss
  split_ifs
  · exact .refl c
  · exact sheds_countReadMiss c i (c.shards i).dead

theorem sheds_maybePromoteOnSlowHit (c : Cache K V n) :
    Sheds c (c.maybePromoteOnSlowHit cfg i key) := by
  unfold maybePromoteOnSlowHit
  split_ifs
  · exact .refl c
  · exact sheds_countReadMiss c i (c.shards i).dead

variable [PartialEquivBEq K] [NeZero n]

/-- The locked part of a read. -/
theorem reads_getLocked (cfg : Config K V) (env : Env K) (c : Cache K V n) (i : Fin n) (key : K) :
    Reads c (c.getLocked cfg env i key).2 i key env.now := by
  unfold getLocked
  split
  · exact .of_sheds (sheds_flushAndUnlock c)
  · next e he =>
    split_ifs with hfast hfree hexp hstale hneg
    · obtain ⟨hstill, hget⟩ := get_countHit he
      exact (Reads.of_still hstill he hget .hit).sheds (sheds_recordReadMiss _)
    · obtain ⟨hstill, hget⟩ := get_countHit he
      exact .of_still hstill he hget .hit
    · have hsame := get_triggerAsyncRefreshLocked cfg c i key
      obtain ⟨hstill, hget⟩ := get_staleHit cfg (hsame.trans he)
      exact ((reads_triggerAsyncRefreshLocked cfg c i key env.now).then_still hsame hstill (hsame.trans he) hget
        .hit).sheds (sheds_flushAndUnlock _)
    · have hreason : supersedesFlight (expiryReason e env.now) = false := by
        unfold expiryReason
        split_ifs <;> rfl
      exact .of_sheds (((sheds_removeLocked c e hreason).count _).trans (sheds_flushAndUnlock _))
    · exact .of_sheds (sheds_flushAndUnlock c)
    · obtain ⟨hstill, hget⟩ := get_touchEntry cfg env he
      refine Reads.sheds ?_ ((sheds_maybePromoteOnSlowHit _).trans (sheds_flushAndUnlock _))
      split_ifs
      · exact .trigger cfg hstill he hget .touch
      · exact .of_still hstill he hget .touch

variable {e : Entry K V}

omit [PartialEquivBEq K] in
/-- A live entry that the read lock does not do for is touched, and late ones are loaded again. -/
theorem getLocked_of_live (he : (c.shards i).get key = some e)
    (hlive : entryExpiredLocked cfg e env.now = false) (hneg : e.negative = false)
    (hserve : servesUnderReadLock cfg (c.shards i) e env.now = false) :
    c.getLocked cfg env i key = (.hit e.value,
      ((if shouldRefreshAhead cfg (({ e with hits := e.hits + 1 } : Entry K V).touchAccess
          env.now).1 env.now then (c.touchEntry cfg env i e).triggerAsyncRefreshLocked cfg i key
        else c.touchEntry cfg env i e).maybePromoteOnSlowHit cfg i key).flushAndUnlock cfg env i) := by
  unfold getLocked
  rw [he]
  dsimp only
  rw [hserve, if_neg Bool.false_ne_true, hlive, if_neg Bool.false_ne_true, if_neg (by simp [hneg])]

section

variable (hinv : c.core.Inv) (hread : c.core.ReadInv cfg)
include hinv hread

/-- **A read touches the entry of its key and no other data**, whichever path serves it. -/
theorem reads_get (env : Env K) (key : K) :
    Reads c (c.get cfg env key).2 (shardFor cfg key) key env.now := by
  unfold get
  dsimp only
  split_ifs
  · exact .of_sheds (.refl c)
  · split
    · exact .of_sheds (.refl c)
    · split
      · next e hfast =>
        have he := get_of_tryLockFreeGet_hit (hread _) (hinv.table _) hfast
        obtain ⟨hstill, hget⟩ := get_countHit he
        exact .of_still hstill he hget .hit
      · exact .of_sheds (.refl c)
      · exact reads_getLocked cfg env c _ key

/-- **A hit is the value of a stored entry**, live or stale within its window. -/
theorem lookup_of_hit (hqueue : (c.shards (shardFor cfg key)).pending.get key = none) {value : V}
    (h : (c.get cfg env key).1 = .hit value) :
    ∃ e, c.lookupKey cfg key = some e ∧ e.value = value ∧ e.negative = false ∧
      (entryExpiredLocked cfg e env.now = false ∨ shouldServeStale cfg e env.now = true) := by
  have hlive {s : Shard K V} {e : Entry K V} (hs : servesUnderReadLock cfg s e env.now = true) :
      entryExpiredLocked cfg e env.now = false ∧ e.negative = false := by
    simp only [servesUnderReadLock, Bool.and_eq_true, Bool.not_eq_true'] at hs
    exact ⟨hs.1.1.1.1, hs.1.1.1.2⟩
  have hq : asyncReadHit (c.shards (shardFor cfg key)) key env.now = none := by
    rw [asyncReadHit, hqueue]
  unfold get at h
  dsimp only at h
  rw [hq] at h
  split_ifs at h
  dsimp only at h
  split at h
  · next e hfast =>
    obtain ⟨-, -, -, -, -, -, hs⟩ := tryLockFreeGet_eq_hit hfast
    obtain rfl : e.value = value := by simpa using h
    exact ⟨e, get_of_tryLockFreeGet_hit (hread _) (hinv.table _) hfast, rfl, (hlive hs).2,
      .inl (hlive hs).1⟩
  · cases h
  · unfold getLocked at h
    split at h
    · cases h
    next e he =>
    split_ifs at h with hs hfree hexp hstale hneg
    · cases h
      exact ⟨e, he, rfl, (hlive hs).2, .inl (hlive hs).1⟩
    · cases h
      exact ⟨e, he, rfl, (hlive hs).2, .inl (hlive hs).1⟩
    · cases h
      simp only [Bool.and_eq_true, Bool.not_eq_true'] at hstale
      exact ⟨e, he, rfl, hstale.1, .inr hstale.2⟩
    · cases h
      exact ⟨e, he, rfl, by simpa using hneg, .inl (by simpa using hexp)⟩

/-- A read that no fast path serves is the locked one. -/
theorem get_eq_getLocked (hopen : c.closed = false)
    (hqueue : (c.shards (shardFor cfg key)).pending.get key = none)
    (he : c.lookupKey cfg key = some e)
    (hserve : servesUnderReadLock cfg (c.shards (shardFor cfg key)) e env.now = false) :
    c.get cfg env key = c.getLocked cfg env (shardFor cfg key) key := by
  have hq : asyncReadHit (c.shards (shardFor cfg key)) key env.now = none := by
    rw [asyncReadHit, hqueue]
  have hfast : tryLockFreeGet cfg (c.shards (shardFor cfg key)) key env.now = none := by
    rcases hr : tryLockFreeGet cfg (c.shards (shardFor cfg key)) key env.now with - | r
    · rfl
    · rcases r with - | e'
      · rw [lookupKey, (get_of_tryLockFreeGet_miss (hread _) hr).1] at he
        cases he
      · obtain ⟨-, -, -, -, -, -, hs⟩ := tryLockFreeGet_eq_hit hr
        obtain rfl := Option.some.inj
          ((get_of_tryLockFreeGet_hit (hread _) (hinv.table _) hr).symm.trans he)
        rw [hserve] at hs
        cases hs
  unfold get
  rw [hopen, if_neg Bool.false_ne_true, hq]
  dsimp only
  rw [hfast]

/-- **A hit on a live sliding entry touches it and keeps it**, in a cache within its bounds. -/
theorem get_of_sliding (hopen : c.closed = false) (hwithin : c.overBudget = false)
    (hqueue : (c.shards (shardFor cfg key)).pending.get key = none)
    (he : c.lookupKey cfg key = some e) (hlive : entryExpiredLocked cfg e env.now = false)
    (hneg : e.negative = false) (hslide : e.sliding = true) :
    (c.get cfg env key).1 = .hit e.value ∧
      (c.get cfg env key).2.lookupKey cfg key =
        some (({ e with hits := e.hits + 1 } : Entry K V).touchAccess env.now).1 := by
  refine ⟨get_eq_hit hinv hread hopen hqueue he hlive hneg, ?_⟩
  have hserve : servesUnderReadLock cfg (c.shards (shardFor cfg key)) e env.now = false := by
    simp [servesUnderReadLock, hslide]
  rw [get_eq_getLocked hinv hread hopen hqueue he hserve, getLocked_of_live he hlive hneg hserve]
  dsimp only
  -- neither a load that starts nor the count of a miss shows in the table or in the counters
  set d := (if shouldRefreshAhead cfg (({ e with hits := e.hits + 1 } : Entry K V).touchAccess
      env.now).1 env.now then
      (c.touchEntry cfg env (shardFor cfg key) e).triggerAsyncRefreshLocked cfg (shardFor cfg key) key
    else c.touchEntry cfg env (shardFor cfg key) e) with hd
  have hget : (d.shards (shardFor cfg key)).get key =
      some (({ e with hits := e.hits + 1 } : Entry K V).touchAccess env.now).1 := by
    rw [← (get_touchEntry cfg env he).2, hd]
    split_ifs
    · exact get_triggerAsyncRefreshLocked ..
    · rfl
  have hover : (d.maybePromoteOnSlowHit cfg (shardFor cfg key) key).overBudget = false := by
    rw [← hwithin, hd]
    unfold maybePromoteOnSlowHit triggerAsyncRefreshLocked startRefreshLocked
    split_ifs <;> rfl
  rw [flushAndUnlock_of_within hover, lookupKey, ← hget,
    toTable_of_core (core_releaseShard ..)]
  unfold maybePromoteOnSlowHit
  split_ifs
  · rfl
  · rw [modify_shards_self, toTable_countReadMiss]

end

/-! ### Keys of one entry -/

/-- A key that names the entry of another: equal, and in the same shard. -/
def Names (n : ℕ) [NeZero n] (cfg : Config K V) (key k : K) : Prop :=
  (k == key) = true ∧ (shardFor cfg k : Fin n) = shardFor cfg key

instance {k : K} : Decidable (Names n cfg key k) := inferInstanceAs (Decidable (_ ∧ _))

theorem Names.lookupKey {k : K} (h : Names n cfg key k) (c : Cache K V n) :
    c.lookupKey cfg k = c.lookupKey cfg key := by
  unfold Cache.lookupKey
  rw [h.2]
  exact Table.get_congr h.1

theorem names_of_lookup {k : K} (he : c.lookupKey cfg key = some e)
    (hk : c.lookupKey cfg k = some e) (hs : (shardFor cfg k : Fin n) = shardFor cfg key) :
    Names n cfg key k :=
  ⟨PartialEquivBEq.trans (BEq.symm (Table.key_of_get hk)) (Table.key_of_get he), hs⟩

section Reachable

variable {K V : Type*} {n : ℕ} [BEq K] [EquivBEq K] [NeZero n] [Inhabited V] {cfg : Config K V}
  {c : Cache K V n} {k : K}

/-! ### The read lock and the write lock -/

/-- **A read served under the read lock is the read under the write lock**, in every reachable state
of a cache without a read snapshot: it answers the same, and leaves the same but for the stamp of the
last access, which only a sliding entry uses, and callbacks that a release of the write lock fires. -/
theorem getWriteLocked_eq (hc : Reachable cfg c) (hfree : cfg.lockFreeRead = false) (env : Env K)
    (i : Fin n) (key : K) :
    (c.getWriteLocked cfg env i key).1 = (c.getLocked cfg env i key).1 ∧
      ((c.getWriteLocked cfg env i key).2 = (c.getLocked cfg env i key).2 ∨
        ∃ e, (c.shards i).get key = some e ∧ e.sliding = false ∧
          (c.getLocked cfg env i key).2 = c.countHit i e ∧
          (c.getWriteLocked cfg env i key).2 = (c.modifyTable i fun t ↦
            t.put { e with hits := e.hits + 1, lastAccess := env.now }).releaseShard i) := by
  unfold getWriteLocked getLocked
  split
  · exact ⟨rfl, .inl rfl⟩
  next e he =>
  rcases Bool.eq_false_or_eq_true (servesUnderReadLock cfg (c.shards i) e env.now) with hs | hs
  · obtain ⟨⟨⟨⟨hlive, hneg⟩, hslide⟩, hprom⟩, hahead⟩ := by simpa [servesUnderReadLock] using hs
    set e' : Entry K V := { e with hits := e.hits + 1, lastAccess := env.now } with he'
    have hstamp : ({ e with hits := e.hits + 1 } : Entry K V).touchAccess env.now = (e', false) := by
      simp [Entry.touchAccess, hslide, he']
    have hpolicy : (c.shards i).policy.onAccess cfg.hash e.id = (c.shards i).policy :=
      ((readInv_of_reachable hc).1.table i).policy.onAccess_eq_self cfg.hash hprom
    have htouch : c.touchEntry cfg env i e = c.modifyTable i fun t ↦ t.put e' := by
      unfold touchEntry modifyTable modify
      dsimp only
      rw [hstamp, hpolicy]
      rfl
    have hwithin : c.overBudget = false := within_of_reachable hc (Table.mem_of_get he)
    have hover : (c.modifyTable i fun t ↦ t.put e').overBudget = false := hwithin
    rw [if_neg (by simp [hlive]), if_neg (by simp [hneg]), if_pos hs, if_neg (by simp [hfree])]
    refine ⟨rfl, .inr ⟨e, he, hslide, rfl, ?_⟩⟩
    dsimp only
    rw [hstamp, if_neg (by simpa [he', shouldRefreshAhead] using hahead), htouch,
      maybePromoteOnSlowHit, if_pos (by simp [hfree]), flushAndUnlock_of_within hover]
  · rw [hs, if_neg Bool.false_ne_true]
    exact ⟨rfl, .inl rfl⟩

/-- `FIFO` lets every hit that does not slide an expiry be served under the read lock. -/
theorem getWriteLocked_eq_fifo :
    let cfg : Config ℕ ℕ := { defaultConfig fun _ ↦ 0 with policy := .fifo }
    let c : Cache ℕ ℕ 1 := run cfg (new cfg 1) [(.instant 0, .set 1 5)]
    (c.getLocked cfg (.instant 3) 0 1).1 = .hit 5 ∧ (c.getWriteLocked cfg (.instant 3) 0 1).1 = .hit 5 := by
  intro cfg c
  have hhit : (c.getLocked cfg (.instant 3) 0 1).1 = .hit 5 := by decide +kernel
  exact ⟨hhit, (getWriteLocked_eq ⟨_, rfl⟩ rfl (.instant 3) 0 1).1.trans hhit⟩

/-! ### Keys that nothing stores -/

/-- Anything, but no key like `k` in its shard. -/
def avoiding (n : ℕ) [NeZero n] (cfg : Config K V) (k : K) : Licence K V where
  toPermits := .all
  takes i key := i = (shardFor cfg k : Fin n) → (key == k) = false
  sweep := True

/-- An operation that does not name the key stores nothing under it. -/
theorem moves_step_avoiding (hbare : c.core.Bare (avoiding n cfg k)) (env : Env K) {op : Op K V n}
    (hop : ∀ key ∈ op.keys, (key == k) = false) :
    Moves cfg (avoiding n cfg k) c (Memcache.step cfg env c op) := by
  refine (settles_step (fun key hkey _ ↦ hop key hkey) (Op.permitted_of_permits (fun _ ↦ trivial) c
    fun _ _ ↦ trivial) (fun _ _ ↦ trivial) fun key e he hi ↦ ?_).moves
  -- a read starts loads for keys it finds, and it finds none like `k`
  have hek : (e.key == k) = false := (hbare _).taken e (Table.mem_of_get he) hi
  rw [← hek]
  exact BEq.congr_left (BEq.symm (Table.key_of_get he))

end Reachable

end Cache

end Memcache
