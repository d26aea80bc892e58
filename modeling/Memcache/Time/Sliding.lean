import Memcache.Cache.Lookup
import Memcache.Time.Deadlines

/-!
# Sliding expiry

A hit on a sliding entry pushes its deadline a whole TTL ahead, but not when it comes within a
quarter of the TTL of the last access recorded. So the deadline is safe as long as **it lies at least
three quarters of the TTL after the last access**: a read half a TTL after another then comes at most
three quarters after that access, and finds the entry. The jitter of the insert leaves this margin,
and so does every push.

A computed value does not. It moves the last access and leaves the deadline, which suppresses the
pushes of the reads that follow; two of them are enough to let an entry expire under a reader that
comes back twice in every TTL.
-/

namespace Memcache

variable {K V : Type*} {n : ℕ}

/-! ### The margin of an entry -/

/-- A sliding entry with TTL `T`, whose deadline keeps its margin after the last access, and whose
last read at `p` was no later than a quarter of the TTL after that access. -/
structure Entry.Slides (e : Entry K V) (T p : ℤ) : Prop where
  sliding : e.sliding = true
  slidingTTL : e.slidingTTL = T
  negative : e.negative = false
  access : 0 ≤ e.lastAccess
  margin : e.lastAccess + (T - T / 4) ≤ e.expireAt
  recent : p ≤ e.lastAccess + (T / 4 - 1)

namespace Entry.Slides

variable {e : Entry K V} {T p now : ℤ}

/-- Half a TTL after the last read the entry is fresh. -/
theorem lt_expireAt (h : e.Slides T p) (hgap : now - p ≤ T / 2) : now < e.expireAt := by
  have := h.margin
  have := h.recent
  omega

/-- A read keeps the margin: it comes soon after the last access, or moves both stamps. -/
theorem touch (h : e.Slides T p) (hT : 4 ≤ T) (hmono : e.lastAccess ≤ now) (hmax : now + T < 2 ^ 63) :
    (({ e with hits := e.hits + 1 } : Entry K V).touchAccess now).1.Slides T now ∧
      (({ e with hits := e.hits + 1 } : Entry K V).touchAccess now).1.lastAccess ≤ now := by
  obtain rfl := h.slidingTTL
  have haccess := h.access
  have hwrap : wrap64 (now - e.lastAccess) = now - e.lastAccess :=
    wrap64_of_mem (by omega) (by omega)
  have hpush : wrap64 (now + e.slidingTTL) = now + e.slidingTTL := wrap64_of_mem (by omega) hmax
  unfold touchAccess
  dsimp only
  rw [if_neg (by rw [h.sliding, Bool.not_true]; simp; omega), hwrap, hpush]
  split_ifs with hsoon
  · exact ⟨⟨h.sliding, rfl, h.negative, haccess, h.margin,
      show now ≤ e.lastAccess + (e.slidingTTL / 4 - 1) by omega⟩, hmono⟩
  · exact ⟨⟨h.sliding, rfl, h.negative, show 0 ≤ now by omega, show now + _ ≤ now + _ by omega,
      show now ≤ now + _ by omega⟩, le_refl now⟩

/-- A computed value keeps the margin when the deadline is far enough ahead of it. -/
theorem replaced (h : e.Slides T p) (hT : 4 ≤ T) (hmono : e.lastAccess ≤ now) (hp : p ≤ now)
    (hfar : now + (T - T / 4) ≤ e.expireAt) (value : V) (weight : ℤ) :
    (Cache.replaced e value weight now).Slides T p where
  sliding := h.sliding
  slidingTTL := h.slidingTTL
  negative := h.negative
  access := h.access.trans hmono
  margin := hfar
  recent := by
    show p ≤ now + (T / 4 - 1)
    omega

end Entry.Slides

/-! ### Runs of reads and computed stores -/

/-- A read of the key, or a call of the `Compute` family that may store a value: `Update`,
`CompareAndSwap` and `Increment` are such calls. -/
inductive SlidingAct (V : Type*) where
  | get
  | store (fn : Option V → Option V)

/-- A cache with the instants of the last read of the key and of the last action. -/
structure SlidingRun (K V : Type*) (n : ℕ) where
  cache : Cache K V n
  lastGet : ℤ
  clock : ℤ

namespace SlidingRun

/-- The function given to `Compute`: store a value, or do nothing. -/
def storeOrKeep (fn : Option V → Option V) (cur : Option V) : Cache.ComputeResult V :=
  match fn cur with
  | some value => .store value
  | none => .noOp

variable [BEq K] [NeZero n]

/-- One action. -/
def step (cfg : Config K V) (key : K) (s : SlidingRun K V n) (p : Env K × SlidingAct V) :
    SlidingRun K V n :=
  match p.2 with
  | .get => ⟨(s.cache.get cfg p.1 key).2, p.1.now, p.1.now⟩
  | .store fn => ⟨s.cache.compute cfg p.1 key (storeOrKeep fn), s.lastGet, p.1.now⟩

/-- The clock does not go back and a TTL from now still fits; reads come at most half a TTL after one
another. -/
def Spaced (T : ℤ) (s : SlidingRun K V n) (p : Env K × SlidingAct V) : Prop :=
  s.clock ≤ p.1.now ∧ p.1.now + T < 2 ^ 63 ∧
    match p.2 with
    | .get => p.1.now - s.lastGet ≤ T / 2
    | .store _ => True

/-- A value that is stored meets the entry with three quarters of the TTL still to go, and does not
push the cache over its byte bound. -/
def Harmless (cfg : Config K V) (key : K) (T : ℤ) (s : SlidingRun K V n) (p : Env K × SlidingAct V) :
    Prop :=
  match p.2 with
  | .get => True
  | .store fn => ∀ e value weight, s.cache.lookupKey cfg key = some e →
      fn ((s.cache.freshEntryLocked cfg p.1 (Cache.shardFor cfg key) key).map Entry.value) =
        some value → computeWeight cfg value = .ok weight →
      p.1.now + (T - T / 4) ≤ e.expireAt ∧
        (s.cache.maxBytes = 0 ∨ s.cache.bytes + (weight - e.weight) ≤ s.cache.maxBytes)

/-- What such a run keeps. -/
structure Live [Inhabited V] (cfg : Config K V) (key : K) (T : ℤ) (s : SlidingRun K V n) : Prop where
  reach : Reachable cfg s.cache
  closed : s.cache.closed = false
  queue : (s.cache.shards (Cache.shardFor cfg key)).pending.get key = none
  lastGet : s.lastGet ≤ s.clock
  entry : ∃ e, s.cache.lookupKey cfg key = some e ∧ e.Slides T s.lastGet ∧ e.lastAccess ≤ s.clock

namespace Live

variable [EquivBEq K] [Inhabited V] {cfg : Config K V} {key : K} {T : ℤ} {s : SlidingRun K V n}
  {env : Env K}

/-- A read half a TTL after the last one hits. -/
theorem get_hit (hs : Live cfg key T s) (hfunc : cfg.expireFunc = none)
    (hgap : env.now - s.lastGet ≤ T / 2) :
    ∃ e, s.cache.lookupKey cfg key = some e ∧ e.Slides T s.lastGet ∧ e.lastAccess ≤ s.clock ∧
      (s.cache.get cfg env key).1 = .hit e.value ∧
      (s.cache.get cfg env key).2.lookupKey cfg key =
        some (({ e with hits := e.hits + 1 } : Entry K V).touchAccess env.now).1 := by
  obtain ⟨e, he, hslides, haccess⟩ := hs.entry
  obtain ⟨hinv, hread⟩ := Cache.readInv_of_reachable hs.reach
  have hfresh : Cache.entryExpiredLocked cfg e env.now = false := by
    have := hslides.lt_expireAt hgap
    simp only [Cache.entryExpiredLocked, hfunc, Bool.or_false, Entry.expired, decide_eq_false_iff_not]
    omega
  obtain ⟨hhit, hget⟩ := Cache.get_of_sliding hinv hread hs.closed
    (Cache.within_of_reachable hs.reach (Table.mem_of_get he)) hs.queue he hfresh hslides.negative
    hslides.sliding
  exact ⟨e, he, hslides, haccess, hhit, hget⟩

theorem get (hs : Live cfg key T s) (hfunc : cfg.expireFunc = none) (hT : 4 ≤ T)
    (hsp : s.Spaced T (env, .get)) : Live cfg key T (step cfg key s (env, .get)) := by
  obtain ⟨hclock, hmax, hgap⟩ := hsp
  obtain ⟨e, -, hslides, haccess, -, hget⟩ := hs.get_hit hfunc hgap
  obtain ⟨hinv, hread⟩ := Cache.readInv_of_reachable hs.reach
  have hframe := (Cache.reads_get hinv hread env key).toFrame
  obtain ⟨htouch, hle⟩ := hslides.touch hT (haccess.trans hclock) hmax
  exact ⟨hs.reach.step env (.get key), hframe.closed.trans hs.closed,
    (congrArg (fun m : KeyMap K (PendingOp K V) ↦ m.get key) (hframe.pending _)).trans hs.queue, le_rfl,
    _, hget, htouch, hle⟩

omit [EquivBEq K] in
/-- The section of a computed store, in a cache that is within its bounds when it ends. -/
theorem of_locked (hs : Live cfg key T s) (hclock : s.clock ≤ env.now)
    {fn : Option V → Option V} {e' : Entry K V} {d : Cache K V n}
    (hd : Cache.computeLocked cfg env key (storeOrKeep fn) s.cache (Cache.shardFor cfg key) = d)
    (hframe : Cache.Frame s.cache d) (hwithin : d.overBudget = false)
    (he' : d.lookupKey cfg key = some e') (hslides : e'.Slides T s.lastGet)
    (haccess : e'.lastAccess ≤ env.now) :
    Live cfg key T (step cfg key s (env, .store fn)) := by
  have heq : s.cache.compute cfg env key (storeOrKeep fn) = d.releaseShard (Cache.shardFor cfg key) := by
    rw [Cache.compute_eq hs.closed env hs.queue, hd]
    exact Cache.shedOverBudget_of_within (c := d.releaseShard _) hwithin _ _
  have hsheds : Cache.Sheds d (d.releaseShard (Cache.shardFor cfg key)) := Cache.sheds_releaseShard d
  have hreach := hs.reach.step env (.compute key (storeOrKeep fn))
  refine ⟨hreach, ?_, ?_, hs.lastGet.trans hclock, e', ?_, hslides, haccess⟩
  · exact (congrArg Cache.closed heq).trans ((hframe.trans hsheds.toFrame).closed.trans hs.closed)
  · show ((s.cache.compute cfg env key (storeOrKeep fn)).shards _).pending.get key = none
    rw [heq, (hframe.trans hsheds.toFrame).pending]
    exact hs.queue
  · show (s.cache.compute cfg env key (storeOrKeep fn)).lookupKey cfg key = some e'
    rw [heq, Cache.lookupKey, Cache.toTable_of_core (Cache.core_releaseShard ..)]
    exact he'

theorem store (hs : Live cfg key T s) (hfunc : cfg.expireFunc = none) (hT : 4 ≤ T)
    {fn : Option V → Option V} (hsp : s.Spaced T (env, .store fn))
    (hharm : s.Harmless cfg key T (env, .store fn)) :
    Live cfg key T (step cfg key s (env, .store fn)) := by
  obtain ⟨hclock, -, -⟩ := hsp
  obtain ⟨e, he, hslides, haccess⟩ := hs.entry
  have hwithin := Cache.within_of_reachable hs.reach (Table.mem_of_get he)
  set cur := (s.cache.freshEntryLocked cfg env (Cache.shardFor cfg key) key).map Entry.value with hcur
  have hsame (hd : Cache.computeLocked cfg env key (storeOrKeep fn) s.cache (Cache.shardFor cfg key) =
      s.cache) : Live cfg key T (step cfg key s (env, .store fn)) :=
    hs.of_locked hclock hd (.refl _) hwithin he hslides (haccess.trans hclock)
  rcases hfn : fn cur with - | value
  · refine hsame ?_
    rw [Cache.computeLocked, ← hcur, storeOrKeep, hfn]
  · have hdo : storeOrKeep fn cur = .store value := by rw [storeOrKeep, hfn]
    rcases hw : computeWeight cfg value with err | weight
    · refine hsame ?_
      rw [Cache.computeLocked, ← hcur, hdo]
      dsimp only
      rw [Cache.computeStoreLocked, hw]
    · obtain ⟨hfar, hbytes⟩ := hharm e value weight he hfn hw
      have hfresh : s.cache.freshEntryLocked cfg env (Cache.shardFor cfg key) key = some e := by
        rw [Cache.freshEntryLocked, show (s.cache.shards _).get key = some e from he]
        have := hslides.negative
        simp only [Option.filter_some, this, Cache.entryExpiredLocked, hfunc, Entry.expired]
        dsimp only at hfar
        simp
        omega
      obtain ⟨hstill, hget⟩ := Cache.get_replaceValueLocked cfg env he value weight
      refine hs.of_locked hclock ?_
        ((Cache.fades_supersedeFlight s.cache key).toFrame.trans hstill.toFrame) ?_ hget
        (hslides.replaced hT (haccess.trans hclock) (hs.lastGet.trans hclock) hfar value weight) le_rfl
      · rw [Cache.computeLocked, ← hcur, hdo]
        dsimp only
        rw [Cache.computeStoreLocked, hw]
        dsimp only
        rw [Cache.storeComputedLocked, hfresh]
      · rw [Cache.overBudget_replaceValueLocked]
        have hwithin := of_decide_eq_false hwithin
        refine decide_eq_false ?_
        dsimp only [Cache.addCounters]
        omega

/-- **One action keeps the entry live.** -/
theorem step (hs : Live cfg key T s) (hfunc : cfg.expireFunc = none) (hT : 4 ≤ T)
    {p : Env K × SlidingAct V} (hsp : s.Spaced T p) (hharm : s.Harmless cfg key T p) :
    Live cfg key T (SlidingRun.step cfg key s p) := by
  obtain ⟨env, act⟩ := p
  rcases act with - | fn
  · exact hs.get hfunc hT hsp
  · exact hs.store hfunc hT hsp hharm

end Live

/-- **A sliding entry that is read twice in every TTL does not expire** under stores that meet it with
three quarters of its TTL to go. The run begins at the insert, whose jitter took at most a quarter. -/
theorem every_get_hits [EquivBEq K] [Inhabited V] (cfg : Config K V) (key : K)
    (hfunc : cfg.expireFunc = none) {T : ℤ} (hT : 4 ≤ T) {c : Cache K V n} (hc : Reachable cfg c)
    (hclosed : c.closed = false)
    (hqueue : (c.shards (Cache.shardFor cfg key)).pending.get key = none) {e : Entry K V}
    (he : c.lookupKey cfg key = some e) (hslide : e.sliding = true) (hTTL : e.slidingTTL = T)
    (hneg : e.negative = false) (ht : 0 ≤ e.lastAccess)
    (hjitter : e.lastAccess + (T - T / 4) ≤ e.expireAt) {l : List (Env K × SlidingAct V)}
    (hl : Runs.Along (step cfg key) (fun s p ↦ s.Spaced T p ∧ s.Harmless cfg key T p)
      ⟨c, e.lastAccess, e.lastAccess⟩ l) :
    Runs.Along (step cfg key) (fun s p ↦ p.2 = .get →
      ∃ value, (s.cache.get cfg p.1 key).1 = .hit value) ⟨c, e.lastAccess, e.lastAccess⟩ l := by
  have hstart : Live cfg key T (⟨c, e.lastAccess, e.lastAccess⟩ : SlidingRun K V n) :=
    ⟨hc, hclosed, hqueue, le_rfl, e, he, ⟨hslide, hTTL, hneg, ht, hjitter, by dsimp only; omega⟩, le_rfl⟩
  refine hl.of_invariant (I := Live cfg key T) (fun s p hp hs ↦ hs.step hfunc hT hp.1 hp.2) ?_ hstart
  rintro s ⟨env, act⟩ ⟨⟨-, -, hgap⟩, -⟩ hs rfl
  obtain ⟨b, -, -, -, hhit, -⟩ := hs.get_hit hfunc hgap
  exact ⟨b.value, hhit⟩

end SlidingRun

/-- Entries slide with a TTL of 100. -/
def slidingConfig : Config ℕ ℕ :=
  { defaultConfig fun _ ↦ 0 with
    ttlJitterExplicit := true
    slidingTTL := true
    defaultTTL := 100 }

/-- Key 1 inserted at instant 0. -/
def slidingStart : SlidingRun ℕ ℕ 1 where
  cache := (Cache.set slidingConfig (.instant 0) (new slidingConfig 1) 1 7).2
  lastGet := 0
  clock := 0

/-- Reads at 50 and at 100, each a nanosecond after a computed store. -/
def storesThenReads : List (Env ℕ × SlidingAct ℕ) :=
  [(.instant 49, .store fun _ ↦ some 8), (.instant 50, .get), (.instant 99, .store fun _ ↦ some 9)]

/-- A store early in the TTL, and a read. -/
def storeAndRead : List (Env ℕ × SlidingAct ℕ) :=
  [(.instant 20, .store fun _ ↦ some 8), (.instant 50, .get)]

/-- The entry of key 1 at instant 0. -/
def slidingEntry : Entry ℕ ℕ :=
  { minuteEntry with expireAt := 100, lastAccess := 0, inserted := 0, slidingTTL := 100, sliding := true }

theorem every_get_hits_storeAndRead :
    Runs.Along (SlidingRun.step slidingConfig 1) (fun s p ↦ p.2 = .get →
      ∃ value, (s.cache.get slidingConfig p.1 1).1 = .hit value) slidingStart storeAndRead := by
  refine SlidingRun.every_get_hits slidingConfig 1 rfl (T := 100) (by decide)
    (c := slidingStart.cache) ⟨[(.instant 0, .set 1 7)], rfl⟩ (by decide +kernel) (by decide +kernel)
    (e := slidingEntry) (by decide +kernel) rfl rfl rfl (by decide) (by decide) ?_
  refine ⟨⟨⟨by decide, by decide, trivial⟩, ?_⟩, ⟨⟨by decide, by decide, by decide⟩, trivial⟩, trivial⟩
  intro e value weight he _ _
  have hentry : slidingStart.cache.lookupKey slidingConfig 1 = some slidingEntry := by decide +kernel
  obtain rfl := Option.some.inj (hentry.symm.trans he)
  exact ⟨by decide, .inl (by decide +kernel)⟩

/-- **The entry expires under its reader**: the reads at 50 and at 100 are half a TTL apart, and the
second misses. -/
theorem get_absent_storesThenReads :
    Runs.Along (SlidingRun.step slidingConfig 1) (SlidingRun.Spaced 100) slidingStart
        (storesThenReads ++ [(.instant 100, .get)]) ∧
      ((storesThenReads.foldl (SlidingRun.step slidingConfig 1) slidingStart).cache.get slidingConfig
        (.instant 100) 1).1 = .absent := by
  refine ⟨⟨⟨by decide, by decide, trivial⟩, ⟨by decide, by decide, by decide⟩,
    ⟨by decide, by decide, trivial⟩, ⟨by decide, by decide, by decide⟩, trivial⟩, ?_⟩
  decide +kernel

end Memcache
