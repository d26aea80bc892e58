import Memcache.Cache.Tend
import Memcache.Time.Deadlines

/-!
# Serving stale entries

An entry past its deadline may be served for a while longer, as its key is loaded again in the
background. `Get` and `GetOrLoad` know of this window. The janitor and `GetWithExpiry` do not: they
remove an entry as soon as it has expired, and a read that comes later in the window misses.

Whoever else reads, and whatever else the janitor sweeps, **the window holds when neither of the two
falls into it**: no other read and no other sweep takes the entry away.
-/

namespace Memcache

open Cache (entryExpiredLocked shouldServeStale shardFor Names Tends)

variable {K V : Type*} {n : ℕ}

namespace Cache

variable [BEq K] [NeZero n]

variable [PartialEquivBEq K] {cfg : Config K V} {env : Env K} {c : Cache K V n} {key k : K}
  {e : Entry K V}

/-! ### Hits on stale entries -/

/-- **An expired entry inside its window is a hit of `Get`.** -/
theorem get_of_stale (hinv : c.core.Inv) (hread : c.core.ReadInv cfg) (hopen : c.closed = false)
    (hqueue : (c.shards (shardFor cfg key)).pending.get key = none)
    (he : c.lookupKey cfg key = some e) (hexp : entryExpiredLocked cfg e env.now = true)
    (hneg : e.negative = false) (hstale : shouldServeStale cfg e env.now = true) :
    (c.get cfg env key).1 = .hit e.value := by
  have hserve : servesUnderReadLock cfg (c.shards (shardFor cfg key)) e env.now = false := by
    simp [servesUnderReadLock, hexp]
  have hget : (c.shards (shardFor cfg key)).get key = some e := he
  rw [get_eq_getLocked hinv hread hopen hqueue he hserve]
  unfold getLocked
  rw [hget]
  dsimp only
  rw [hserve, if_neg Bool.false_ne_true, if_pos hexp, if_pos (by simp [hneg, hstale])]

/-- **A live entry, or an expired one inside its window, is a hit of `GetOrLoad`.** -/
theorem loadOrJoin_eq_hit (hinv : c.core.Inv) (hwithin : c.overBudget = false)
    (hqueue : (c.shards (shardFor cfg key)).pending.get key = none)
    (he : c.lookupKey cfg key = some e) (hneg : e.negative = false)
    (h : entryExpiredLocked cfg e env.now = false ∨ shouldServeStale cfg e env.now = true)
    (allow : Bool) : (c.loadOrJoin cfg env key allow).1 = .hit e.value := by
  obtain ⟨hcalm, -⟩ := calm_applyPendingKey env hinv hqueue
  have he' : ((c.applyPendingKey cfg env key).shards (shardFor cfg key)).get key = some e := by
    rw [Table.get, hcalm.storage hwithin]
    exact he
  have hserve : ∃ d, (c.applyPendingKey cfg env key).serveLoadHitLocked cfg env (shardFor cfg key) key =
      some (e.value, d) := by
    unfold serveLoadHitLocked
    rw [he']
    dsimp only
    rw [if_neg (by simp [hneg])]
    rcases Bool.eq_false_or_eq_true (entryExpiredLocked cfg e env.now) with hexp | hexp
    · rw [if_neg (by simp [hexp]), if_pos (h.resolve_left (by simp [hexp]))]
      exact ⟨_, rfl⟩
    · rw [if_pos (by simp [hexp])]
      exact ⟨_, rfl⟩
  obtain ⟨d, hd⟩ := hserve
  unfold loadOrJoin loadOrJoinLocked
  dsimp only
  rw [hd]

end Cache

/-- Inside the window an entry that expired by its deadline is served. -/
theorem shouldServeStale_of_window {cfg : Config K V} {e : Entry K V} {now : ℤ}
    (hloader : cfg.hasLoader = true) (hmax : cfg.swrStaleFor < 2 ^ 63) (hneg : e.negative = false)
    (hexp : e.expired now = true) (hlt : now < e.expireAt + cfg.swrStaleFor) :
    shouldServeStale cfg e now = true := by
  obtain ⟨hne, hle⟩ := of_decide_eq_true hexp
  have hwrap : wrap64 (now - e.expireAt) = now - e.expireAt := wrap64_of_mem (by omega) (by omega)
  simp only [shouldServeStale, hloader, hneg, hwrap, Bool.and_eq_true, decide_eq_true_eq,
    Bool.true_and, Bool.not_false]
  exact ⟨⟨⟨by omega, trivial⟩, hne, hle⟩, by omega⟩

/-! ### Runs of reads and sweeps -/

/-- A read of some key, or the janitor's tick in some shard. -/
inductive ReadAct (K : Type*) (n : ℕ) where
  | get (key : K)
  | getOrLoad (key : K) (allow : Bool)
  | getWithExpiry (key : K)
  | peek (key : K)
  | has (key : K)
  | tick (shard : Fin n)

/-- A cache with the expiry that the key's entry has, or had last, and the instant of the last
action. -/
structure StaleRun (K V : Type*) (n : ℕ) where
  cache : Cache K V n
  expireAt : ℤ
  clock : ℤ

namespace StaleRun

variable [BEq K] [NeZero n]

section

variable (cfg : Config K V)

/-- The cache after one action. -/
def act (env : Env K) (c : Cache K V n) : ReadAct K n → Cache K V n
  | .get k => (c.get cfg env k).2
  | .getOrLoad k allow => c.getOrLoad cfg env k allow
  | .getWithExpiry k => c.getWithExpiry cfg env k
  | .peek k => (c.peek cfg env k).2
  | .has k => (c.has cfg env k).2
  | .tick i => c.sweep cfg env i

def step (key : K) (s : StaleRun K V n) (p : Env K × ReadAct K n) : StaleRun K V n :=
  let c := act cfg p.1 s.cache p.2
  ⟨c, ((c.lookupKey cfg key).map Entry.expireAt).getD s.expireAt, p.1.now⟩

/-- The entry has expired at `now` and may still be served. -/
def InWindow (s : StaleRun K V n) (now : ℤ) : Prop :=
  s.expireAt ≤ now ∧ now < s.expireAt + cfg.swrStaleFor

/-- The key's entry expires by its deadline, and not by an `ExpireFunc` ahead of it. -/
def ByDeadline (key : K) (s : StaleRun K V n) (now : ℤ) : Prop :=
  ∀ e, s.cache.lookupKey cfg key = some e → entryExpiredLocked cfg e now = true →
    e.expired now = true

/-- The clock does not go back. -/
def Onward (s : StaleRun K V n) (p : Env K × ReadAct K n) : Prop := s.clock ≤ p.1.now

/-- No tick of the key's shard and no `GetWithExpiry` of the key falls into the window. -/
def Respects (key : K) (s : StaleRun K V n) (p : Env K × ReadAct K n) : Prop :=
  match p.2 with
  | .get k | .getOrLoad k _ => Names n cfg key k → s.ByDeadline cfg key p.1.now
  | .getWithExpiry k => Names n cfg key k →
      s.ByDeadline cfg key p.1.now ∧ ¬ s.InWindow cfg p.1.now
  | .tick i => i = shardFor cfg key → ¬ s.InWindow cfg p.1.now
  | .peek _ | .has _ => True

/-- A read of the key inside the window hits. -/
def Hits (key : K) (value : V) (s : StaleRun K V n) (p : Env K × ReadAct K n) : Prop :=
  match p.2 with
  | .get k => Names n cfg key k → (s.cache.get cfg p.1 k).1 = .hit value
  | .getOrLoad k allow =>
      Names n cfg key k → (s.cache.loadOrJoin cfg p.1 k allow).1 = .hit value
  | _ => True

/-- Inside the window reads hit, and before its end the entry stays. -/
def Serves (key : K) (value : V) (s : StaleRun K V n) (p : Env K × ReadAct K n) : Prop :=
  (s.InWindow cfg p.1.now → s.Hits cfg key value p) ∧
    (p.1.now < s.expireAt + cfg.swrStaleFor →
      ∃ e, (step cfg key s p).cache.lookupKey cfg key = some e ∧ e.value = value)

end

/-- What such a run keeps: the entry is there, or its window is over. -/
structure Open [Inhabited V] (cfg : Config K V) (key : K) (value : V) (s : StaleRun K V n) : Prop where
  reach : Reachable cfg s.cache
  closed : s.cache.closed = false
  queue : ∀ i k, (s.cache.shards i).pending.get k = none
  entry : (∃ e, s.cache.lookupKey cfg key = some e ∧ e.value = value ∧ e.negative = false ∧
      e.expireAt = s.expireAt) ∨
    s.cache.lookupKey cfg key = none ∧ s.expireAt + cfg.swrStaleFor ≤ s.clock

section Act

variable [Inhabited V] {cfg : Config K V} {c : Cache K V n} (hreach : Reachable cfg c) (p : Env K × ReadAct K n)

include hreach

/-- What an action may remove, by its kind. -/
theorem tends_act [EquivBEq K] (hqueue : ∀ i k, (c.shards i).pending.get k = none)
    {doomed : Fin n → Entry K V → Prop}
    (hget : ∀ k e, p.2 = .get k → c.lookupKey cfg k = some e →
      entryExpiredLocked cfg e p.1.now = true →
      (!e.negative && shouldServeStale cfg e p.1.now) = false → doomed (shardFor cfg k) e)
    (hexpiry : ∀ k e, p.2 = .getWithExpiry k → c.lookupKey cfg k = some e →
      entryExpiredLocked cfg e p.1.now = true → doomed (shardFor cfg k) e)
    (htick : ∀ i, p.2 = .tick i → ∀ e ∈ (c.shards i).storage, e.expireAt ≤ p.1.now → doomed i e) :
    Tends doomed p.1.now c (act cfg p.1 c p.2) := by
  obtain ⟨hinv, hread⟩ := Cache.readInv_of_reachable hreach
  obtain ⟨env, a⟩ := p
  cases a with
  | get k => exact Cache.tends_get hinv hread env k fun e ↦ hget k e rfl
  | getOrLoad k allow => exact Cache.tends_getOrLoad hinv env k allow (hqueue _ _)
  | getWithExpiry k =>
    exact Cache.tends_getWithExpiry hinv env k (hqueue _ _) fun e ↦ hexpiry k e rfl
  | peek k => exact .of_calm (.refl c)
  | has k => exact .of_calm (.refl c)
  | tick i => exact Cache.tends_sweep hinv (Cache.timely_of_reachable hreach) env i (htick i rfl)

theorem reachable_act : Reachable cfg (act cfg p.1 c p.2) := by
  obtain ⟨env, a⟩ := p
  cases a with
  | get k => exact hreach.step env (.get k)
  | getOrLoad k allow => exact hreach.step env (.getOrLoad k allow)
  | getWithExpiry k => exact hreach.step env (.getWithExpiry k)
  | peek k => exact hreach
  | has k => exact hreach
  | tick i => exact hreach.step env (.sweep i)

end Act

namespace Open

variable [EquivBEq K] [Inhabited V] {cfg : Config K V} {key : K} {value : V} {s : StaleRun K V n}
  {p : Env K × ReadAct K n}

variable (hs : Open cfg key value s) (hloader : cfg.hasLoader = true)
  (hmax : cfg.swrStaleFor < 2 ^ 63)
include hs hloader hmax

/-- **No action that respects the window removes the entry before its end.** -/
theorem tends_of_respects (hresp : s.Respects cfg key p) {e : Entry K V}
    (he : s.cache.lookupKey cfg key = some e) (hneg : e.negative = false)
    (hexp : e.expireAt = s.expireAt) (hlt : p.1.now < s.expireAt + cfg.swrStaleFor) :
    Tends (fun i e' ↦ ¬ (i = shardFor cfg key ∧ e' = e)) p.1.now s.cache
      (act cfg p.1 s.cache p.2) := by
  unfold Respects at hresp
  refine tends_act hs.reach p hs.queue ?_ ?_ ?_
  · rintro k b hp hb hexpired hno ⟨hshard, rfl⟩
    rw [hp] at hresp
    have hdeadline := hresp (Cache.names_of_lookup he hb hshard) b he hexpired
    simp [hneg, shouldServeStale_of_window hloader hmax hneg hdeadline (hexp ▸ hlt)] at hno
  · rintro k b hp hb hexpired ⟨hshard, rfl⟩
    rw [hp] at hresp
    obtain ⟨hby, hout⟩ := hresp (Cache.names_of_lookup he hb hshard)
    exact hout ⟨hexp ▸ (of_decide_eq_true (hby b he hexpired)).2, hlt⟩
  · rintro i hp b - hle ⟨hshard, rfl⟩
    rw [hp] at hresp
    exact hresp hshard ⟨hexp ▸ hle, hlt⟩

/-- Before the end of the window the entry is there after the action. -/
theorem kept (hon : s.Onward p) (hresp : s.Respects cfg key p)
    (hreach : Reachable cfg (act cfg p.1 s.cache p.2))
    (hlt : p.1.now < s.expireAt + cfg.swrStaleFor) :
    ∃ e, (act cfg p.1 s.cache p.2).lookupKey cfg key = some e ∧ e.value = value := by
  rcases hs.entry with ⟨e, he, rfl, hneg, hexp⟩ | ⟨-, hover⟩
  · have htends := hs.tends_of_respects hloader hmax hresp he hneg hexp hlt
    have hwithin := Cache.within_of_reachable hs.reach (Table.mem_of_get he)
    obtain ⟨e', hmem, ht⟩ := htends.kept hwithin (Table.mem_of_get he) fun h ↦ h ⟨rfl, rfl⟩
    have hinv := (Cache.readInv_of_reachable hreach).1
    exact ⟨e', (hinv.table _).get_eq hmem (ht.key_eq ▸ Table.key_of_get he), ht.value_eq⟩
  · have hon : s.clock ≤ p.1.now := hon
    omega

/-- One step keeps the entry, or its window is over. -/
theorem step (hon : s.Onward p) (hresp : s.Respects cfg key p) :
    Open cfg key value (step cfg key s p) := by
  have htends : Tends (fun _ _ ↦ True) p.1.now s.cache (act cfg p.1 s.cache p.2) :=
    tends_act hs.reach p hs.queue (fun _ _ _ _ _ _ ↦ trivial) (fun _ _ _ _ _ ↦ trivial) fun _ _ _ _ _ ↦ trivial
  refine ⟨(reachable_act hs.reach p), htends.closed.trans hs.closed, fun i k ↦ ?_, ?_⟩
  · show ((act cfg p.1 s.cache p.2).shards i).pending.get k = none
    rw [htends.pending]
    exact hs.queue i k
  · show (∃ e, (act cfg p.1 s.cache p.2).lookupKey cfg key = some e ∧ _) ∨
      (act cfg p.1 s.cache p.2).lookupKey cfg key = none ∧ _
    rcases hfind : (act cfg p.1 s.cache p.2).lookupKey cfg key with - | e'
    · refine .inr ⟨rfl, ?_⟩
      by_contra hlt
      have hstep : (StaleRun.step cfg key s p).expireAt = s.expireAt := by
        simp [StaleRun.step, hfind]
      rw [hstep] at hlt
      obtain ⟨e, he, -⟩ := hs.kept hloader hmax hon hresp (reachable_act hs.reach p) (not_le.1 hlt)
      cases hfind.symm.trans he
    · obtain ⟨e, he, ht⟩ := htends.found hfind
      rcases hs.entry with ⟨b, hb, rfl, hneg, -⟩ | ⟨hnone, -⟩
      · obtain rfl := Option.some.inj (hb.symm.trans he)
        refine .inl ⟨e', rfl, ht.value_eq, ht.negative_eq.trans hneg, ?_⟩
        simp [StaleRun.step, hfind]
      · cases hnone.symm.trans he

/-- Inside the window a read of the key hits. -/
theorem hits (hon : s.Onward p) (hresp : s.Respects cfg key p) (hin : s.InWindow cfg p.1.now) :
    s.Hits cfg key value p := by
  have hon : s.clock ≤ p.1.now := hon
  rcases hs.entry with ⟨e, he, rfl, hneg, hexp⟩ | ⟨-, hover⟩
  swap
  · exact absurd (hover.trans hon) (not_le.2 hin.2)
  obtain ⟨hinv, hread⟩ := Cache.readInv_of_reachable hs.reach
  have hwithin := Cache.within_of_reachable hs.reach (Table.mem_of_get he)
  -- an entry of the key is live, or expired by its deadline and so to be served
  have hserve (hby : s.ByDeadline cfg key p.1.now) :
      entryExpiredLocked cfg e p.1.now = false ∨ shouldServeStale cfg e p.1.now = true := by
    rcases Bool.eq_false_or_eq_true (entryExpiredLocked cfg e p.1.now) with hx | hx
    · exact .inr (shouldServeStale_of_window hloader hmax hneg (hby e he hx) (hexp ▸ hin.2))
    · exact .inl hx
  unfold Hits
  unfold Respects at hresp
  obtain ⟨env, a⟩ := p
  cases a with
  | get k =>
    intro hnames
    have hk := (hnames.lookupKey s.cache).trans he
    rcases Bool.eq_false_or_eq_true (entryExpiredLocked cfg e env.now) with hx | hx
    · exact Cache.get_of_stale hinv hread hs.closed (hs.queue _ _) hk hx hneg
        ((hserve (hresp hnames)).resolve_left (by simp [hx]))
    · exact Cache.get_eq_hit hinv hread hs.closed (hs.queue _ _) hk hx hneg
  | getOrLoad k allow =>
    intro hnames
    exact Cache.loadOrJoin_eq_hit hinv hwithin (hs.queue _ _) ((hnames.lookupKey s.cache).trans he)
      hneg (hserve (hresp hnames)) allow
  | _ => trivial

end Open

/-- **Stale entries are served to the end of their window** in every run of reads and janitor ticks,
of any keys and shards, that respects the window. The run begins with the entry stored and no write
queued. -/
theorem every_read_serves [EquivBEq K] [Inhabited V] (cfg : Config K V) (key : K)
    (hloader : cfg.hasLoader = true) (hmax : cfg.swrStaleFor < 2 ^ 63) {c : Cache K V n}
    (hc : Reachable cfg c) (hclosed : c.closed = false)
    (hqueue : ∀ i k, (c.shards i).pending.get k = none) {e : Entry K V}
    (he : c.lookupKey cfg key = some e) (hneg : e.negative = false) (clock : ℤ)
    {l : List (Env K × ReadAct K n)}
    (hl : Runs.Along (step cfg key) (fun s p ↦ s.Onward p ∧ s.Respects cfg key p)
      ⟨c, e.expireAt, clock⟩ l) :
    Runs.Along (step cfg key) (fun s p ↦ s.Serves cfg key e.value p) ⟨c, e.expireAt, clock⟩ l := by
  have hstart : Open cfg key e.value (⟨c, e.expireAt, clock⟩ : StaleRun K V n) :=
    ⟨hc, hclosed, hqueue, .inl ⟨e, he, rfl, hneg, rfl⟩⟩
  refine hl.of_invariant (I := Open cfg key e.value) ?_ ?_ hstart
  · intro s p hp hs
    exact hs.step hloader hmax hp.1 hp.2
  · intro s p hp hs
    exact ⟨hs.hits hloader hmax hp.1 hp.2, hs.kept hloader hmax hp.1 hp.2 (reachable_act hs.reach p)⟩

end StaleRun

/-- Entries live for 100 and may be served for another 100. -/
def staleConfig : Config ℕ ℕ :=
  { defaultConfig fun _ ↦ 0 with
    ttlJitterExplicit := true
    defaultTTL := 100
    hasLoader := true
    swrStaleFor := 100 }

/-- Key 1 written at instant 0. -/
def staleStart : StaleRun ℕ ℕ 1 where
  cache := (Cache.set staleConfig (.instant 0) (new staleConfig 1) 1 7).2
  expireAt := 100
  clock := 0

/-- The entry of key 1 at instant 0. -/
def staleEntry : Entry ℕ ℕ :=
  { minuteEntry with expireAt := 100, lastAccess := 0, inserted := 0 }

/-- A tick before the deadline, reads after it. -/
def tickAndReads : List (Env ℕ × ReadAct ℕ 1) :=
  [(.instant 90, .tick 0), (.instant 150, .get 1), (.instant 199, .getOrLoad 1 true)]

theorem every_read_serves_tickAndReads :
    Runs.Along (StaleRun.step staleConfig 1) (fun s p ↦ s.Serves staleConfig 1 7 p) staleStart
      tickAndReads := by
  refine StaleRun.every_read_serves staleConfig 1 rfl (by decide) (c := staleStart.cache)
    ⟨[(.instant 0, .set 1 7)], rfl⟩ (by decide +kernel) (fun i k ↦ ?_) (e := staleEntry)
    (by decide +kernel) rfl 0 ?_
  · obtain rfl : i = 0 := Subsingleton.elim i 0
    have hempty : (staleStart.cache.shards 0).pending = .empty := by decide +kernel
    rw [hempty]
    rfl
  · have hby (s : StaleRun ℕ ℕ 1) (now : ℤ) : s.ByDeadline staleConfig 1 now := by
      intro e _ hexp
      simpa [Cache.entryExpiredLocked, staleConfig, defaultConfig] using hexp
    refine ⟨⟨show (0 : ℤ) ≤ 90 by decide, fun _ h ↦ ?_⟩, ⟨show (90 : ℤ) ≤ 150 by decide, fun _ ↦ hby _ _⟩,
      ⟨show (150 : ℤ) ≤ 199 by decide, fun _ ↦ hby _ _⟩, trivial⟩
    exact absurd h.1 (by decide)

/-- **A tick or a `GetWithExpiry` inside the window takes the stale entry away**: the read at 150
misses, though it comes before the end of the window at 200. -/
theorem get_absent_in_window :
    staleStart.InWindow staleConfig 120 ∧ staleStart.InWindow staleConfig 150 ∧
      ((staleStart.step staleConfig 1 (.instant 120, .tick 0)).cache.get staleConfig
        (.instant 150) 1).1 = .absent ∧
      ((staleStart.step staleConfig 1 (.instant 120, .getWithExpiry 1)).cache.get staleConfig
        (.instant 150) 1).1 = .absent := by
  refine ⟨by constructor <;> decide, by constructor <;> decide, ?_, ?_⟩ <;> decide +kernel

end Memcache
