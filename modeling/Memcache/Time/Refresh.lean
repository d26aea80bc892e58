import Memcache.Cache.Lookup
import Memcache.Time.Deadlines

/-!
# Refreshing ahead of expiry

With a refresh-ahead fraction `r`, a hit late enough in an entry's life starts a background load.
Late enough is meant as a fraction of the time between the last write and the deadline; the code
measures from the entry's `inserted` stamp instead, which **an overwrite and a reload leave as the
first insert set it**. A key that is refreshed again and again therefore looks older with each
reload, until a hit right after a reload is late.

The comparison is with a history of the key: writes, loads that come back, and reads in between, each
at an instant no earlier than the one before. The history remembers the instant of the last write.
-/

namespace Memcache

open Cache (shardFor deadline Frame Fades Reads Sheds)

variable {K V : Type*} {n : ℕ}

namespace Cache

/-- Lateness is a matter of the two stamps and the deadline. -/
theorem shouldRefreshAhead_congr {cfg : Config K V} {e e' : Entry K V} (now : ℤ)
    (hi : e'.inserted = e.inserted) (hx : e'.expireAt = e.expireAt) (hn : e'.negative = e.negative) :
    shouldRefreshAhead cfg e' now = shouldRefreshAhead cfg e now := by
  unfold shouldRefreshAhead
  rw [hi, hx, hn]

variable [BEq K] [NeZero n]

/-- A read of the key starts a load in its shard. -/
def Starts (cfg : Config K V) (env : Env K) (c : Cache K V n) (key : K) : Prop :=
  ((c.get cfg env key).2.shards (shardFor cfg key)).flights.nextFlight =
    (c.shards (shardFor cfg key)).flights.nextFlight + 1

variable [PartialEquivBEq K] {cfg : Config K V} {env : Env K} {c : Cache K V n} {key : K}
  {e : Entry K V}

omit [NeZero n] [PartialEquivBEq K] in
theorem nextFlight_ne_of_still {c' : Cache K V n} {i : Fin n} (h : Still c c') :
    ¬ (c'.shards i).flights.nextFlight = (c.shards i).flights.nextFlight + 1 := by
  rw [h.flights i]
  omega

/-- **A hit starts a load exactly when it is late**, if none of the key is in flight. -/
theorem starts_iff (hinv : c.core.Inv) (hread : c.core.ReadInv cfg) (hopen : c.closed = false)
    (hqueue : (c.shards (shardFor cfg key)).pending.get key = none)
    (he : (c.shards (shardFor cfg key)).get key = some e)
    (hlive : entryExpiredLocked cfg e env.now = false) (hneg : e.negative = false)
    (hslide : e.sliding = false)
    (hnone : (c.shards (shardFor cfg key)).flights.inflight.get key = none) :
    c.Starts cfg env key ↔ shouldRefreshAhead cfg e env.now := by
  have hq : asyncReadHit (c.shards (shardFor cfg key)) key env.now = none := by
    rw [asyncReadHit, hqueue]
  have hfast (h : servesUnderReadLock cfg (c.shards (shardFor cfg key)) e env.now) :
      shouldRefreshAhead cfg e env.now = false := by
    simpa using (Bool.and_eq_true_iff.1 h).2
  unfold Starts get
  rw [hopen, if_neg Bool.false_ne_true, hq]
  dsimp only
  split
  · next e' hfree =>
    obtain rfl := Option.some.inj
      ((get_of_tryLockFreeGet_hit (hread _) (hinv.table _) hfree).symm.trans he)
    obtain ⟨-, -, -, -, -, -, hserve⟩ := tryLockFreeGet_eq_hit hfree
    rw [hfast hserve]
    exact iff_of_false (nextFlight_ne_of_still (get_countHit he).1) Bool.false_ne_true
  · next hfree =>
    rw [(get_of_tryLockFreeGet_miss (hread _) hfree).1] at he
    cases he
  · rcases Bool.eq_false_or_eq_true (servesUnderReadLock cfg (c.shards (shardFor cfg key)) e env.now)
      with hserve | hserve
    · rw [hfast hserve]
      refine iff_of_false (nextFlight_ne_of_still ?_) Bool.false_ne_true
      unfold getLocked
      rw [he]
      dsimp only
      rw [if_pos hserve]
      dsimp only
      split_ifs
      · exact (get_countHit he).1.trans (sheds_recordReadMiss _).toStill
      · exact (get_countHit he).1
    · have hlate : shouldRefreshAhead cfg (({ e with hits := e.hits + 1 } : Entry K V).touchAccess
          env.now).1 env.now = shouldRefreshAhead cfg e env.now :=
        shouldRefreshAhead_congr env.now (Entry.Touched.touch (e := e)).inserted_eq
          (Entry.Touched.touch.expireAt_eq hslide) (Entry.Touched.touch (e := e)).negative_eq
      rw [getLocked_of_live he hlive hneg hserve, hlate]
      dsimp only
      rw [((sheds_maybePromoteOnSlowHit _).trans (sheds_flushAndUnlock _)).flights]
      have htouch := (get_touchEntry cfg env he).1
      rcases Bool.eq_false_or_eq_true (shouldRefreshAhead cfg e env.now) with hr | hr
      · -- a late hit has a loader
        have hloader : cfg.hasLoader = true := by
          simp only [shouldRefreshAhead, Bool.and_eq_true] at hr
          exact hr.1.1.1.1.1
        rw [hr, if_pos rfl]
        refine iff_of_true ?_ rfl
        rcases triggerAsyncRefreshLocked_cases cfg (c.touchEntry cfg env (shardFor cfg key) e)
          (shardFor cfg key) key with ⟨-, hno⟩ | ⟨-, -, heq⟩
        · rw [hloader, htouch.flights, hnone] at hno
          simp at hno
        · rw [heq, modify_shards_self]
          show (Flights.startFlight _ key).nextFlight = _
          rw [htouch.flights]
          rfl
      · rw [hr, if_neg Bool.false_ne_true]
        exact iff_of_false (nextFlight_ne_of_still htouch) Bool.false_ne_true

/-! ### The two measures -/

omit [BEq K] [NeZero n] [PartialEquivBEq K] in
/-- Lateness in plain arithmetic, for stamps and a deadline that fit. -/
theorem shouldRefreshAhead_iff (hloader : cfg.hasLoader = true)
    (hr : 0 < cfg.refreshAheadAt ∧ cfg.refreshAheadAt < 1) (hneg : e.negative = false) {now : ℤ}
    (hi : 0 ≤ e.inserted) (hin : e.inserted ≤ now) (hx : now < e.expireAt) (hmax : e.expireAt < 2 ^ 63) :
    shouldRefreshAhead cfg e now ↔
      ⌊cfg.refreshAheadAt * (e.expireAt - e.inserted : ℤ)⌋ ≤ now - e.inserted := by
  have hwt : wrap64 (e.expireAt - e.inserted) = e.expireAt - e.inserted :=
    wrap64_of_mem (by omega) (by omega)
  have hwa : wrap64 (now - e.inserted) = now - e.inserted := wrap64_of_mem (by omega) (by omega)
  unfold shouldRefreshAhead
  rw [hwt, hwa]
  simp only [hloader, hneg, hr, Bool.and_eq_true, decide_eq_true_eq, Bool.not_false, and_self,
    true_and]
  exact ⟨fun h ↦ h.2, fun h ↦ ⟨⟨by omega, by omega⟩, h⟩⟩

/-- **The two measures agree at every instant exactly when they start at the same one** and the
fraction of the life is a whole number of nanoseconds. -/
theorem late_iff {r : ℚ} (hr : 0 < r ∧ r < 1) {inserted written expireAt : ℤ}
    (hiw : inserted ≤ written) (hwx : written < expireAt) :
    (∀ now, written ≤ now → now < expireAt →
      (⌊r * (expireAt - inserted : ℤ)⌋ ≤ now - inserted ↔
        r * (expireAt - written : ℤ) ≤ (now - written : ℤ))) ↔
      inserted = written ∧ ∃ z : ℤ, r * (expireAt - written : ℤ) = z := by
  obtain ⟨hr₀, hr₁⟩ := hr
  have hlife : (0 : ℚ) < (expireAt - written : ℤ) := by exact_mod_cast Int.sub_pos.2 hwx
  constructor
  · intro h
    set t := ⌊r * (expireAt - inserted : ℤ)⌋ with ht
    have hfloor : (t : ℚ) ≤ r * (expireAt - inserted : ℤ) := Int.floor_le _
    -- the code's own threshold, or the write if that is later
    have hlt : inserted + t < expireAt := by
      have hpos : (0 : ℚ) < (expireAt - inserted : ℤ) := by
        exact_mod_cast Int.sub_pos.2 (hiw.trans_lt hwx)
      have hmul : r * (expireAt - inserted : ℤ) < (expireAt - inserted : ℤ) := by nlinarith
      have : (t : ℚ) < (expireAt - inserted : ℤ) := hfloor.trans_lt hmul
      have : t < expireAt - inserted := by exact_mod_cast this
      omega
    rcases le_or_gt (inserted + t) written with hle | hgt
    · have hmet := (h written le_rfl hwx).1 (by omega)
      rw [sub_self, Int.cast_zero] at hmet
      exact absurd (mul_pos hr₀ hlife) (not_lt.2 hmet)
    · have hmet := (h (inserted + t) hgt.le hlt).1 (by omega)
      push_cast at hmet hfloor
      have hwi : (written : ℚ) ≤ inserted := by nlinarith
      have heq : inserted = written := le_antisymm hiw (by exact_mod_cast hwi)
      subst heq
      refine ⟨rfl, t, le_antisymm ?_ ?_⟩
      · push_cast
        linarith
      · push_cast
        linarith
  · rintro ⟨rfl, z, hz⟩ now - -
    rw [hz, Int.floor_intCast]
    exact_mod_cast Iff.rfl

end Cache

/-! ### Histories of a key -/

/-- What happens to a key: it is written, a queued write of it is applied, a load of it starts or
comes back with a value, it is read. -/
inductive KeyEvent (V : Type*) where
  | set (value : V)
  | setWithTTL (value : V) (ttl : ℤ)
  | drain
  | refresh
  | finish (flight : ℕ) (value : V) (ttl : ℤ)
  | get

namespace KeyEvent

variable [BEq K] [NeZero n]

/-- The cache after an event of the key. -/
def apply [Inhabited V] (cfg : Config K V) (env : Env K) (c : Cache K V n) (key : K) :
    KeyEvent V → Cache K V n
  | set value => (c.set cfg env key value).2
  | setWithTTL value ttl => (c.setWithTTL cfg env key value ttl).2
  | drain => c.applyPendingKey cfg env key
  | refresh => c.refresh cfg env key
  | finish id value ttl =>
    match (c.shards (shardFor cfg key)).flights.flight id with
    | none => c
    | some f =>
      if f.key == key then c.finishLoad cfg env (shardFor cfg key) id (.value value ttl) else c
  | get => (c.get cfg env key).2

/-- Whether an event writes the entry of the key. -/
def Writes (cfg : Config K V) (env : Env K) (c : Cache K V n) (key : K) : KeyEvent V → Bool
  | set value => !cfg.asyncWrites && (c.set cfg env key value).1.isOk
  | setWithTTL value ttl => !cfg.asyncWrites && (c.setWithTTL cfg env key value ttl).1.isOk
  | drain => cfg.asyncWrites && ((c.shards (shardFor cfg key)).pending.get key).isSome
  | finish id value _ =>
    ((c.shards (shardFor cfg key)).flights.flight id).any fun f ↦
      f.key == key && !f.superseded && !c.closed && (computeWeight cfg value).isOk
  | refresh | get => false

end KeyEvent

/-- A cache with the instants of the last write of a key and of the last event. -/
structure History (K V : Type*) (n : ℕ) where
  cache : Cache K V n
  written : ℤ
  clock : ℤ

namespace History

variable [BEq K] [NeZero n] [Inhabited V]

/-- One event. -/
def step (cfg : Config K V) (key : K) (h : History K V n) (p : Env K × KeyEvent V) :
    History K V n where
  cache := p.2.apply cfg p.1 h.cache key
  written := if p.2.Writes cfg p.1 h.cache key then p.1.now else h.written
  clock := p.1.now

/-- The clock does not go back. -/
def Onward (h : History K V n) (p : Env K × KeyEvent V) : Prop := h.clock ≤ p.1.now

/-- What a history without sliding expiry keeps: the key's entry was inserted no later than its last
write. -/
structure Tracked (cfg : Config K V) (key : K) (h : History K V n) : Prop where
  reach : Reachable cfg h.cache
  closed : h.cache.closed = false
  sealed : h.cache.sealed = false
  written : 0 ≤ h.written ∧ h.written ≤ h.clock
  entry : ∀ e, h.cache.lookupKey cfg key = some e → e.negative = false ∧ e.sliding = false ∧
    0 ≤ e.inserted ∧ e.inserted ≤ h.written ∧ e.expireAt < 2 ^ 63
  queue : ∀ op, (h.cache.shards (shardFor cfg key)).pending.get key = some op →
    op.kind = .set ∧ op.sliding = false ∧ op.expireAt = 0 ∧ op.key = key

variable {cfg : Config K V} {key : K} {env : Env K} {h : History K V n} {c' : Cache K V n}

theorem step_eq {ev : KeyEvent V} {b : Bool} (hc : ev.apply cfg env h.cache key = c')
    (hb : ev.Writes cfg env h.cache key = b) :
    History.step cfg key h (env, ev) = ⟨c', if b then env.now else h.written, env.now⟩ := by
  rw [History.step, hc, hb]

namespace Tracked

section

variable (ht : Tracked cfg key h) (hon : h.clock ≤ env.now) (hreach : Reachable cfg c')
include ht hon hreach

/-- An event that leaves the entry as it was, but for its hits, or takes it away. -/
theorem of_kept (hframe : Frame h.cache c')
    (hentry : ∀ e, c'.lookupKey cfg key = some e → ∃ e₀, h.cache.lookupKey cfg key = some e₀ ∧ e₀.Touched env.now e) :
    Tracked cfg key ⟨c', h.written, env.now⟩ where
  reach := hreach
  closed := hframe.closed.trans ht.closed
  sealed := hframe.sealed.trans ht.sealed
  written := ⟨ht.written.1, ht.written.2.trans hon⟩
  entry e he := by
    obtain ⟨e₀, he₀, htouch⟩ := hentry e he
    obtain ⟨hneg, hslide, hrest⟩ := ht.entry e₀ he₀
    rw [htouch.negative_eq, htouch.sliding_eq, htouch.inserted_eq, htouch.expireAt_eq hslide]
    exact ⟨hneg, hslide, hrest⟩
  queue op hop := ht.queue op (by rwa [hframe.pending] at hop)

theorem of_fades (hf : Fades h.cache c') : Tracked cfg key ⟨c', h.written, env.now⟩ :=
  ht.of_kept hon hreach hf.toFrame fun e he ↦ ⟨e, hf.get_of_get he, .same⟩

/-- An event that writes the entry. -/
theorem of_written (hclosed : c'.closed = h.cache.closed) (hsealed : c'.sealed = h.cache.sealed)
    (hqueue : ∀ op, (c'.shards (shardFor cfg key)).pending.get key = some op → (h.cache.shards (shardFor cfg key)).pending.get key = some op)
    (hentry : ∀ e, c'.lookupKey cfg key = some e → ∃ value weight ttl rawTTL tags, Cache.Written (h.cache.lookupKey cfg key) value weight env.now (deadline env ttl) false rawTTL tags e) :
    Tracked cfg key ⟨c', env.now, env.now⟩ where
  reach := hreach
  closed := hclosed.trans ht.closed
  sealed := hsealed.trans ht.sealed
  written := ⟨(ht.written.1.trans ht.written.2).trans hon, le_rfl⟩
  entry e he := by
    obtain ⟨value, weight, ttl, rawTTL, tags, e₀, hold, rfl⟩ := hentry e he
    refine ⟨rfl, rfl, ?_⟩
    show 0 ≤ e₀.inserted ∧ e₀.inserted ≤ env.now ∧ deadline env ttl < 2 ^ 63
    have hmax := Cache.deadline_lt env ttl
    rcases hold with hold | ⟨-, hnow⟩
    · obtain ⟨-, -, h₀, h₁, -⟩ := ht.entry e₀ hold
      exact ⟨h₀, h₁.trans (ht.written.2.trans hon), hmax⟩
    · have := ht.written
      exact ⟨by omega, by omega, hmax⟩
  queue op hop := ht.queue op (hqueue op hop)

end

section Events

variable [EquivBEq K]

theorem setTTL (hslide : cfg.slidingTTL = false) (ht : Tracked cfg key h) (hon : h.clock ≤ env.now) (value : V) (ttl : ℤ)
    (hreach : Reachable cfg (h.cache.setTTL cfg env key value ttl).2) :
    Tracked cfg key ⟨(h.cache.setTTL cfg env key value ttl).2,
      if !cfg.asyncWrites && (h.cache.setTTL cfg env key value ttl).1.isOk then env.now else h.written,
      env.now⟩ := by
  rcases Bool.eq_false_or_eq_true cfg.asyncWrites with ha | ha
  · rw [ha, Bool.not_true, Bool.false_and, if_neg Bool.false_ne_true]
    have heq : h.cache.setTTL cfg env key value ttl =
        h.cache.asyncSet cfg env key value ttl cfg.slidingTTL (cfg.autoTags value) := by
      rw [Cache.setTTL]
      exact if_pos ha
    rw [heq] at hreach ⊢
    unfold Cache.asyncSet at hreach ⊢
    split
    · exact ht.of_fades hon ht.reach (.refl _)
    · next weight hcheck =>
      rw [hcheck] at hreach
      refine ⟨hreach, ht.closed, ht.sealed, ⟨ht.written.1, ht.written.2.trans hon⟩, fun e he ↦ ?_,
        fun op hop ↦ ?_⟩
      · refine ht.entry e ?_
        rw [← he]
        simp [Cache.lookupKey, Cache.enqueuePending]
      · rw [Cache.get_enqueuePending _ _ BEq.rfl rfl] at hop
        rw [← Option.some.inj hop]
        exact ⟨rfl, hslide, rfl, rfl⟩
  · rcases Cache.setTTL_cases ha ht.sealed env key value ttl with
      ⟨d, weight, heq, hput⟩ | ⟨err, herr, hsheds⟩
    · rw [heq] at hreach ⊢
      rw [ha]
      have hfade : Fades d (d.enforceGroupBudgets cfg env (cfg.autoTags value)) :=
        Cache.fades_enforceGroupBudgets d _
      refine ht.of_written hon hreach (hfade.closed.trans hput.closed)
        (hfade.sealed.trans hput.sealed) (fun op hop ↦ ?_) fun e he ↦ ?_
      · rwa [hfade.pending, hput.pending] at hop
      · rw [hslide] at hput
        exact ⟨_, _, _, _, _, hput.get e (hfade.get_of_get he)⟩
    · rw [herr, if_neg (by simp [Except.isOk, Except.toBool])]
      exact ht.of_fades hon hreach hsheds.toFades

omit [EquivBEq K] in
/-- Reads, and loads that start, leave the entry. -/
theorem of_reads (ht : Tracked cfg key h) (hon : h.clock ≤ env.now) (hreach : Reachable cfg c')
    (hr : Reads h.cache c' (shardFor cfg key) key env.now) :
    Tracked cfg key ⟨c', h.written, env.now⟩ :=
  ht.of_kept hon hreach hr.toFrame hr.get

theorem drain (ht : Tracked cfg key h) (hon : h.clock ≤ env.now)
    (hreach : Reachable cfg (h.cache.applyPendingKey cfg env key)) :
    Tracked cfg key ⟨h.cache.applyPendingKey cfg env key,
      if cfg.asyncWrites && ((h.cache.shards (shardFor cfg key)).pending.get key).isSome then
        env.now else h.written, env.now⟩ := by
  rcases Bool.eq_false_or_eq_true cfg.asyncWrites with ha | ha
  · rcases hop : (h.cache.shards (shardFor cfg key)).pending.get key with - | op
    · rw [Option.isSome_none, Bool.and_false, if_neg Bool.false_ne_true]
      refine ht.of_fades hon hreach ?_
      unfold Cache.applyPendingKey
      rw [if_pos ha]
      dsimp only
      unfold Cache.applyPendingKeyLocked
      rw [hop]
      exact Cache.fades_unlockAfter _ _
    · obtain ⟨hkind, hs, hexp, hkey⟩ := ht.queue op hop
      obtain ⟨d, hput, hfade⟩ := Cache.applyPendingKey_puts ha ht.sealed env hop hkind hexp hkey
      rw [ha, Option.isSome_some, Bool.and_true, if_pos rfl]
      refine ht.of_written hon hreach (hfade.closed.trans hput.closed)
        (hfade.sealed.trans hput.sealed) (fun op' hop' ↦ ?_) fun e he ↦ ?_
      · -- the write has left the queue
        rw [hfade.pending, hput.pending, Cache.unqueue, Cache.modify_shards_self,
          KeyMap.get_erase_self] at hop'
        cases hop'
      · rw [hs] at hput
        exact ⟨_, _, _, _, _, hput.get e (hfade.get_of_get he)⟩
  · rw [ha, Bool.false_and, if_neg Bool.false_ne_true]
    refine ht.of_fades hon hreach ?_
    rw [Cache.applyPendingKey, ha, if_neg Bool.false_ne_true]
    exact .refl _

/-- A load that comes back writes the entry, unless it was overtaken or its value weighs too much. -/
theorem finish (hslide : cfg.slidingTTL = false) (ht : Tracked cfg key h) (hon : h.clock ≤ env.now)
    {id : ℕ} {f : Flight K}
    (hf : (h.cache.shards (shardFor cfg key)).flights.flight id = some f) (hk : f.key == key)
    (value : V) (ttl : ℤ)
    (hreach : Reachable cfg
      (h.cache.finishLoad cfg env (shardFor cfg key) id (.value value ttl))) :
    Tracked cfg key ⟨h.cache.finishLoad cfg env (shardFor cfg key) id (.value value ttl),
      if f.key == key && !f.superseded && !h.cache.closed && (computeWeight cfg value).isOk then env.now
        else h.written, env.now⟩ := by
  set i : Fin n := shardFor cfg key with hi
  set c₁ := h.cache.endFlight i f with hc₁
  have hframe : Frame h.cache c₁ := Cache.frame_modify i rfl rfl (.of_eq rfl rfl rfl)
  have hsame : (c₁.shards i).get key = (h.cache.shards i).get key := by
    rw [hc₁, Cache.endFlight, Cache.modify_shards_self]
  have heq : h.cache.finishLoad cfg env i id (.value value ttl) =
      (c₁.applyLoadResultLocked cfg env i f (.value value ttl)).flushAndUnlock cfg env i := by
    rw [Cache.finishLoad, hf]
  have hkept (hd : c₁.applyLoadResultLocked cfg env i f (.value value ttl) = c₁) :
      Tracked cfg key ⟨h.cache.finishLoad cfg env i id (.value value ttl), h.written, env.now⟩ := by
    have hsheds : Sheds c₁ (h.cache.finishLoad cfg env i id (.value value ttl)) := by
      rw [heq, hd]
      exact Cache.sheds_flushAndUnlock c₁
    refine ht.of_kept hon hreach (hframe.trans hsheds.toFrame) fun e he ↦ ⟨e, ?_, .same⟩
    exact hsame.symm.trans (hsheds.get_of_get he)
  rcases Bool.eq_false_or_eq_true f.superseded with hsup | hsup
  · rw [hsup, if_neg (by simp)]
    exact hkept (by rw [Cache.applyLoadResultLocked, hsup]; rfl)
  · rcases hw : computeWeight cfg value with err | weight
    · rw [if_neg (by simp [Except.isOk, Except.toBool])]
      refine hkept ?_
      rw [Cache.applyLoadResultLocked, Cache.storeLoadedLocked, hw]
      exact ite_self _
    · have hopen : c₁.closed = false := hframe.closed.trans ht.closed
      rw [hsup, ht.closed, hk, if_pos (by simp [Except.isOk, Except.toBool])]
      obtain ⟨ttl', tags, hput⟩ := Cache.puts_storeLoadedLocked cfg env i f.key
        (hframe.sealed.trans ht.sealed) hw ttl
      have hsheds : Sheds (c₁.storeLoadedLocked cfg env i f.key value ttl)
          (h.cache.finishLoad cfg env i id (.value value ttl)) := by
        rw [heq, Cache.applyLoadResultLocked, hsup, hopen]
        exact Cache.sheds_flushAndUnlock _
      have hput := hput.sheds hsheds
      refine ht.of_written hon hreach (hput.closed.trans hframe.closed)
        (hput.sealed.trans hframe.sealed) (fun op hop ↦ ?_) fun e he ↦ ?_
      · rwa [hput.pending, hframe.pending] at hop
      · rw [Table.get_congr hk, hsame, hslide] at hput
        exact ⟨_, _, _, _, _, hput.get e ((Table.get_congr hk).trans he)⟩

/-- **One event keeps the history tracked.** -/
theorem step (hslide : cfg.slidingTTL = false) (ht : Tracked cfg key h) {p : Env K × KeyEvent V}
    (hon : h.Onward p) : Tracked cfg key (History.step cfg key h p) := by
  obtain ⟨env, ev⟩ := p
  obtain ⟨hinv, hread⟩ := Cache.readInv_of_reachable ht.reach
  rcases ev with value | ⟨value, ttl⟩ | - | - | ⟨id, value, ttl⟩ | -
  · exact ht.setTTL hslide hon value _ (ht.reach.step env (.set key value))
  · by_cases hneg : ttl < 0
    · have heq : h.cache.setWithTTL cfg env key value ttl = (.error .invalidTTL, h.cache) := if_pos hneg
      show Tracked cfg key ⟨(h.cache.setWithTTL cfg env key value ttl).2, if !cfg.asyncWrites &&
        (h.cache.setWithTTL cfg env key value ttl).1.isOk then env.now else h.written, env.now⟩
      rw [heq, if_neg (by simp [Except.isOk, Except.toBool])]
      exact ht.of_fades hon ht.reach (.refl _)
    · have heq : h.cache.setWithTTL cfg env key value ttl = h.cache.setTTL cfg env key value ttl :=
        if_neg hneg
      have hreach := ht.reach.step env (.setWithTTL key value ttl)
      show Tracked cfg key ⟨(h.cache.setWithTTL cfg env key value ttl).2, if !cfg.asyncWrites &&
        (h.cache.setWithTTL cfg env key value ttl).1.isOk then env.now else h.written, env.now⟩
      rw [heq]
      exact ht.setTTL hslide hon value ttl (heq ▸ hreach)
  · exact ht.drain hon (ht.reach.step env (.applyPendingKey key))
  · have hreach := ht.reach.step env (.refresh key)
    refine ht.of_reads hon hreach ?_
    show Reads h.cache (h.cache.refresh cfg env key) _ key env.now
    unfold Cache.refresh
    split_ifs
    · exact .of_sheds (.refl _)
    · exact (Cache.reads_triggerAsyncRefreshLocked cfg h.cache _ key env.now).sheds
        (Cache.sheds_flushAndUnlock _)
  · have hreach := ht.reach.step env (.finishLoad (shardFor cfg key) id (.value value ttl))
    rcases hf : (h.cache.shards (shardFor cfg key)).flights.flight id with - | f
    · rw [step_eq (show _ = h.cache by rw [KeyEvent.apply, hf])
        (show _ = false by rw [KeyEvent.Writes, hf]; rfl)]
      exact ht.of_fades hon ht.reach (.refl _)
    · by_cases hk : f.key == key
      · have happly : (KeyEvent.finish id value ttl).apply cfg env h.cache key =
            h.cache.finishLoad cfg env (shardFor cfg key) id (.value value ttl) := by
          rw [KeyEvent.apply, hf]
          exact if_pos hk
        have hwrites : (KeyEvent.finish id value ttl).Writes cfg env h.cache key =
            (f.key == key && !f.superseded && !h.cache.closed && (computeWeight cfg value).isOk) := by
          rw [KeyEvent.Writes, hf]
          rfl
        rw [step_eq happly hwrites]
        exact ht.finish hslide hon hf hk value ttl hreach
      · rw [step_eq (show _ = h.cache by rw [KeyEvent.apply, hf]; exact if_neg hk)
          (show _ = false by rw [KeyEvent.Writes, hf]; simp [hk])]
        exact ht.of_fades hon ht.reach (.refl _)
  · exact ht.of_reads hon (ht.reach.step env (.get key)) (Cache.reads_get hinv hread env key)

end Events

end Tracked

end History

/-- A cache that refreshes at half of an entry's life. -/
def halfwayConfig : Config ℕ ℕ :=
  { defaultConfig fun _ ↦ 0 with
    ttlJitterExplicit := true
    hasLoader := true
    refreshAheadAt := 1 / 2 }

/-- A key written at instant 0 with a TTL of 100. -/
def firstWrite : List (Env ℕ × KeyEvent ℕ) := [(.instant 0, .setWithTTL 7 100)]

/-- The same, and reloaded at instant 90 with the same TTL. -/
def thenReload : List (Env ℕ × KeyEvent ℕ) :=
  firstWrite ++ [(.instant 90, .refresh), (.instant 90, .finish 0 8 100)]

/-- The state after a history of key 1 in a fresh cache. -/
def historyOf (l : List (Env ℕ × KeyEvent ℕ)) : History ℕ ℕ 1 :=
  l.foldl (History.step halfwayConfig 1) ⟨new halfwayConfig 1, 0, 0⟩

end Memcache
