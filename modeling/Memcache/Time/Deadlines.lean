import Memcache.Cache.Put
import Memcache.Cache.OpSteps

/-!
# Deadlines

An entry's deadline is the clock reading plus a jittered TTL, formed in 64-bit arithmetic. The jitter
is at most a quarter of the TTL, so the TTL stays positive; but the sum of a late clock and a long
TTL need not fit. **A sum past the largest instant wraps to a negative one**, and an entry with a
negative deadline has expired before it was written. A write notices one overflow by accident: when
the jitter alone lifts the TTL out of range, the wrapped TTL is negative, which the write paths read
as "no expiry". A touch asks for the sign of the TTL it was given and does not notice even that.
-/

namespace Memcache

variable {K V : Type*} {n : ℕ}

/-! ### Arithmetic -/

/-- A sum in range is what it is. -/
theorem wrap64_of_mem {x : ℤ} (h₁ : -2 ^ 63 ≤ x) (h₂ : x < 2 ^ 63) : wrap64 x = x := by
  unfold wrap64
  apply Int.bmod_eq_of_le <;> omega

/-- A sum past the largest instant becomes an early one. -/
theorem wrap64_of_le {x : ℤ} (h₁ : 2 ^ 63 ≤ x) (h₂ : x < 2 ^ 64 + 2 ^ 63) :
    wrap64 x = x - 2 ^ 64 := by
  unfold wrap64
  rw [← Int.sub_bmod_right x (2 ^ 64), show ((2 ^ 64 : ℕ) : ℤ) = 2 ^ 64 by norm_num]
  apply Int.bmod_eq_of_le <;> omega

theorem wrap64_lt (x : ℤ) : wrap64 x < 2 ^ 63 := by
  have := Int.bmod_lt (x := x) (m := 2 ^ 64) (by norm_num)
  unfold wrap64
  omega

theorem Cache.deadline_lt (env : Env K) (effectiveTTL : ℤ) :
    Cache.deadline env effectiveTTL < 2 ^ 63 := by
  unfold Cache.deadline
  split_ifs
  · exact wrap64_lt _
  · norm_num

/-- How far jitter may move a TTL: the window, but no more than a quarter of the TTL. -/
def jitterBound (ttl j : ℤ) : ℤ := max 0 (min j (ttl / 4))

/-- A TTL with its jitter, before it is put into 64 bits. -/
def jittered (draw : ℕ) (ttl j : ℤ) : ℤ :=
  ttl + ((draw : ℤ) % (2 * jitterBound ttl j + 1) - jitterBound ttl j)

theorem abs_jittered_sub_le (draw : ℕ) (ttl j : ℤ) :
    |jittered draw ttl j - ttl| ≤ jitterBound ttl j := by
  have h₀ : 0 ≤ jitterBound ttl j := le_max_left ..
  have h₁ := Int.emod_nonneg (draw : ℤ) (show 2 * jitterBound ttl j + 1 ≠ 0 by omega)
  have h₂ := Int.emod_lt_of_pos (draw : ℤ) (show 0 < 2 * jitterBound ttl j + 1 by omega)
  rw [abs_le, jittered]
  omega

/-- A positive TTL stays positive, and grows by a quarter at most. -/
theorem jittered_bounds (draw : ℕ) {ttl : ℤ} (h : 1 ≤ ttl) (j : ℤ) :
    1 ≤ jittered draw ttl j ∧ jittered draw ttl j ≤ ttl + ttl / 4 := by
  obtain ⟨hl, hu⟩ := abs_le.1 (abs_jittered_sub_le draw ttl j)
  have hb : jitterBound ttl j ≤ ttl / 4 := by
    unfold jitterBound
    omega
  omega

/-- The code's jitter is this one in 64 bits. -/
theorem applyJitter_eq (draw : ℕ) {ttl : ℤ} (h₁ : 1 ≤ ttl) (h₂ : ttl < 2 ^ 63) (j : ℤ) :
    applyJitter draw ttl j = wrap64 (jittered draw ttl j) := by
  have hself : wrap64 ttl = ttl := wrap64_of_mem (by omega) h₂
  by_cases hj : j ≤ 0 ∨ min j (ttl / 4) ≤ 0
  · have hb : jitterBound ttl j = 0 := by
      unfold jitterBound
      omega
    have : jittered draw ttl j = ttl := by simp [jittered, hb]
    rw [this, hself]
    unfold applyJitter
    split_ifs <;> first | rfl | omega
  · have hb : jitterBound ttl j = min j (ttl / 4) := by
      unfold jitterBound
      omega
    unfold applyJitter
    rw [if_neg (by omega), if_neg (by omega), jittered, hb]

/-! ### Deadlines of the write paths and of a touch -/

/-- A positive TTL takes effect as its jittered form, in 64 bits. -/
theorem Config.effectiveTTL_eq (cfg : Config K V) (env : Env K) {ttl : ℤ} (h₁ : 1 ≤ ttl)
    (h₂ : ttl < 2 ^ 63) :
    cfg.effectiveTTL env ttl = wrap64 (jittered env.draw ttl (cfg.resolveJitter ttl)) := by
  rw [Config.effectiveTTL, if_neg (by omega), applyJitter_eq env.draw h₁ h₂]

/-- Fresh at an instant, to expire later or never. -/
def Entry.FreshAt (e : Entry K V) (now : ℤ) : Prop :=
  e.expired now = false ∧ (e.expireAt = 0 ∨ now < e.expireAt)

theorem Entry.freshAt_iff {e : Entry K V} {now : ℤ} :
    e.FreshAt now ↔ e.expireAt = 0 ∨ now < e.expireAt := by
  unfold FreshAt expired
  simp only [ne_eq, decide_eq_false_iff_not, not_and, not_le, and_iff_right_iff_imp]
  rintro (h | h) h₀
  · exact absurd h h₀
  · exact h

section Range

variable {env : Env K} {x : ℤ} {e : Entry K V}

/-- The write paths: an overflow of the sum is fatal, one of the TTL alone is not. -/
theorem freshAt_deadline (h₀ : 0 ≤ env.now) (h₁ : env.now ≤ 2 ^ 62) (hx : 1 ≤ x)
    (hx' : x < 2 ^ 63 + 2 ^ 61) (he : e.expireAt = Cache.deadline env (wrap64 x)) :
    e.FreshAt env.now ↔ env.now + x < 2 ^ 63 ∨ 2 ^ 63 ≤ x := by
  rw [Entry.freshAt_iff, he, Cache.deadline]
  rcases lt_or_ge x (2 ^ 63) with hlt | hge
  · rw [wrap64_of_mem (by omega) hlt, if_pos (by omega)]
    rcases lt_or_ge (env.now + x) (2 ^ 63) with hsum | hsum
    · rw [wrap64_of_mem (by omega) hsum]
      omega
    · rw [wrap64_of_le hsum (by omega)]
      omega
  · -- the wrapped TTL is negative and reads as no expiry
    rw [wrap64_of_le hge (by omega), if_neg (by omega)]
    omega

/-- A touch: any overflow is fatal. -/
theorem freshAt_refreshed (h₀ : 0 ≤ env.now) (h₁ : env.now ≤ 2 ^ 62) (hx : 1 ≤ x)
    (hx' : x < 2 ^ 63 + 2 ^ 61) (he : e.expireAt = wrap64 (env.now + wrap64 x)) :
    e.FreshAt env.now ↔ env.now + x < 2 ^ 63 := by
  have hsum : wrap64 (env.now + wrap64 x) = wrap64 (env.now + x) := by
    unfold wrap64
    rw [Int.add_bmod_bmod]
  rw [Entry.freshAt_iff, he, hsum]
  rcases lt_or_ge (env.now + x) (2 ^ 63) with hlt | hge
  · rw [wrap64_of_mem (by omega) hlt]
    omega
  · rw [wrap64_of_le hge (by omega)]
    omega

end Range

/-! ### The calls that set a TTL -/

/-- A call that gives the entry of a key a TTL. -/
inductive TimedCall (V : Type*) where
  | set (value : V)
  | setWithTTL (value : V) (ttl : ℤ)
  | setWithOptions (value : V) (opts : List SetOption)
  | touchWithTTL (ttl : ℤ)

namespace TimedCall

/-- The TTL a call asks for. -/
def ttl (cfg : Config K V) : TimedCall V → ℤ
  | set value => (cfg.valueTTL value).getD cfg.defaultTTL
  | setWithTTL _ ttl => ttl
  | setWithOptions value opts => (resolveOptions cfg value opts).ttl
  | touchWithTTL ttl => ttl

/-- The TTL with its jitter, before it is put into 64 bits. -/
def drawn (cfg : Config K V) (env : Env K) (call : TimedCall V) : ℤ :=
  jittered env.draw (call.ttl cfg) (cfg.resolveJitter (call.ttl cfg))

/-- Whether the deadline of a call fits: the sum does, or the TTL alone already does not and the call
is one that takes this for no expiry. -/
def Fits (cfg : Config K V) (env : Env K) : TimedCall V → Prop
  | touchWithTTL ttl => env.now + drawn cfg env (touchWithTTL ttl) < 2 ^ 63
  | call => env.now + call.drawn cfg env < 2 ^ 63 ∨ 2 ^ 63 ≤ call.drawn cfg env

variable [BEq K] [NeZero n]

/-- The state after a call and, under asynchronous writes, the draining of what it queued. -/
def run (cfg : Config K V) (env : Env K) (c : Cache K V n) (key : K) : TimedCall V → Cache K V n
  | set value => (c.set cfg env key value).2.applyPendingKey cfg env key
  | setWithTTL value ttl => (c.setWithTTL cfg env key value ttl).2.applyPendingKey cfg env key
  | setWithOptions value opts =>
    (c.setWithOptions cfg env key value opts true).2.applyPendingKey cfg env key
  | touchWithTTL ttl => c.touch cfg env key (some ttl)

/-- Whether a call does what it was called for: a write is accepted and gives no absolute expiry, a
touch finds a fresh entry. -/
def Accepted (cfg : Config K V) (env : Env K) (c : Cache K V n) (key : K) : TimedCall V → Prop
  | set value => c.sealed = false ∧ (c.set cfg env key value).1 = .ok ()
  | setWithTTL value ttl => c.sealed = false ∧ (c.setWithTTL cfg env key value ttl).1 = .ok ()
  | setWithOptions value opts => c.sealed = false ∧
      (c.setWithOptions cfg env key value opts true).1 = .ok () ∧
      (resolveOptions cfg value opts).hasExpiry = false
  | touchWithTTL _ => c.closed = false ∧
      ((c.applyPendingKey cfg env key).freshEntryLocked cfg env (Cache.shardFor cfg key) key).isSome

variable {cfg : Config K V} {env : Env K} {c : Cache K V n} {key : K} {value : V} {e : Entry K V}

section Deadline

variable [PartialEquivBEq K]

/-- The deadline of a written entry. -/
theorem expireAt_upsertLocked (hopen : c.sealed = false) {weight effectiveTTL rawTTL : ℤ}
    {sliding : Bool} {tags : List String}
    (he : (c.upsertLocked cfg env (Cache.shardFor cfg key) key value weight effectiveTTL sliding
      rawTTL tags).lookupKey cfg key = some e) : e.expireAt = Cache.deadline env effectiveTTL := by
  obtain ⟨e₀, -, rfl⟩ :=
    (Cache.puts_upsertLocked cfg env _ key hopen value weight effectiveTTL sliding rawTTL tags).get e he
  rfl

/-- The deadline of a queued entry, once it is applied. -/
theorem expireAt_applyPendingKey (ha : cfg.asyncWrites) (hopen : c.sealed = false)
    {op : PendingOp K V} (hop : (c.shards (Cache.shardFor cfg key)).pending.get key = some op)
    (hkind : op.kind = .set) (hexpire : op.expireAt = 0) (hkey : op.key = key)
    (he : (c.applyPendingKey cfg env key).lookupKey cfg key = some e) :
    e.expireAt = Cache.deadline env op.effectiveTTL := by
  obtain ⟨d, hput, hfade⟩ := Cache.applyPendingKey_puts ha hopen env hop hkind hexpire hkey
  obtain ⟨e₀, -, rfl⟩ := hput.get e (hfade.get_of_get he)
  rfl

theorem expireAt_asyncSet (ha : cfg.asyncWrites) (hopen : c.sealed = false) {ttl : ℤ} {sliding : Bool}
    {tags : List String} (hok : (c.asyncSet cfg env key value ttl sliding tags).1 = .ok ())
    (he : ((c.asyncSet cfg env key value ttl sliding tags).2.applyPendingKey cfg env key).lookupKey cfg
      key = some e) : e.expireAt = Cache.deadline env (cfg.effectiveTTL env ttl) := by
  have hkey : key == key := Cache.beq_self_of_get he
  unfold Cache.asyncSet at hok he
  split at he
  · next herr => simp [herr] at hok
  · next weight _ =>
    refine expireAt_applyPendingKey ha ?_ (Cache.get_enqueuePending c _ hkey rfl) rfl rfl rfl he
    exact hopen

/-- A write with a TTL gives its entry the deadline of that TTL, queued or not. -/
theorem expireAt_setTTL (hopen : c.sealed = false) {ttl : ℤ}
    (hok : (c.setTTL cfg env key value ttl).1 = .ok ())
    (he : ((c.setTTL cfg env key value ttl).2.applyPendingKey cfg env key).lookupKey cfg key =
      some e) : e.expireAt = Cache.deadline env (cfg.effectiveTTL env ttl) := by
  unfold Cache.setTTL at hok he
  dsimp only at hok he
  rcases Bool.eq_false_or_eq_true cfg.asyncWrites with ha | ha
  · rw [if_pos ha] at hok he
    exact expireAt_asyncSet ha hopen hok he
  · rw [ha, if_neg Bool.false_ne_true] at hok he
    split at he
    · next herr => simp [herr] at hok
    · rw [Cache.applyPendingKey, ha, if_neg Bool.false_ne_true] at he
      have he := (Cache.fades_enforceGroupBudgets _ _).get_of_get he
      exact expireAt_upsertLocked hopen ((Cache.sheds_flushAndUnlock _).get_of_get he)

theorem expireAt_setWithOptions (hopen : c.sealed = false) {opts : List SetOption}
    (hexpire : (resolveOptions cfg value opts).hasExpiry = false)
    (hok : (c.setWithOptions cfg env key value opts true).1 = .ok ())
    (he : ((c.setWithOptions cfg env key value opts true).2.applyPendingKey cfg env key).lookupKey cfg
      key = some e) :
    e.expireAt = Cache.deadline env (cfg.effectiveTTL env (resolveOptions cfg value opts).ttl) := by
  unfold Cache.setWithOptions at hok he
  dsimp only at hok he
  split at he
  · next herr => simp [herr] at hok
  · next weight hcheck =>
    rw [hcheck] at hok
    dsimp only at hok
    rcases Bool.eq_false_or_eq_true cfg.asyncWrites with ha | ha
    · rw [if_pos ha] at hok he
      unfold Cache.asyncSetOptions at hok he
      rw [hexpire] at hok he
      exact expireAt_asyncSet ha hopen hok he
    · rw [ha, if_neg Bool.false_ne_true] at hok he
      rw [Cache.applyPendingKey, ha, if_neg Bool.false_ne_true] at he
      have he := (Cache.fades_enforceGroupBudgets _ _).get_of_get he
      have he := (Cache.sheds_flushAndUnlock _).get_of_get he
      unfold Cache.upsertOptionsLocked at he
      rw [hexpire] at he
      exact expireAt_upsertLocked hopen he

/-- A touch gives the entry it finds the deadline of its TTL. -/
theorem expireAt_touch (hopen : c.closed = false) {ttl : ℤ} (h₁ : 1 ≤ ttl)
    (hfresh : ((c.applyPendingKey cfg env key).freshEntryLocked cfg env (Cache.shardFor cfg key)
      key).isSome)
    (he : (c.touch cfg env key (some ttl)).lookupKey cfg key = some e) :
    e.expireAt = wrap64 (env.now + cfg.effectiveTTL env ttl) := by
  obtain ⟨e₀, he₀⟩ := Option.isSome_iff_exists.1 hfresh
  unfold Cache.touch Cache.onKey at he
  rw [if_neg (by simpa using (by omega : (0 : ℤ) ≤ ttl)), hopen, if_neg Bool.false_ne_true] at he
  have he := (Cache.sheds_flushAndUnlock _).get_of_get he
  dsimp only at he
  rw [he₀] at he
  have hget := (Cache.freshEntryLocked_eq_some _ _ he₀).1
  have hnew := (Cache.get_refreshExpiryLocked cfg env hget ttl).2
  rw [← Option.some.inj (hnew.symm.trans he), if_pos (by omega)]

end Deadline

/-- **The deadline of an accepted call.** Its TTL takes effect in 64 bits with a jitter within the
window and within a quarter, and what a lookup finds afterwards is fresh exactly when the deadline
fits. -/
theorem freshAt_iff_fits [PartialEquivBEq K] (cfg : Config K V) (env : Env K) (c : Cache K V n)
    (key : K) (call : TimedCall V) (hnow : 0 ≤ env.now)
    (hnow' : env.now ≤ 2 ^ 62) (h₁ : 1 ≤ call.ttl cfg) (h₂ : call.ttl cfg < 2 ^ 63)
    (hacc : call.Accepted cfg env c key) (he : (call.run cfg env c key).lookupKey cfg key = some e) :
    cfg.effectiveTTL env (call.ttl cfg) = wrap64 (call.drawn cfg env) ∧
      |call.drawn cfg env - call.ttl cfg| ≤
        jitterBound (call.ttl cfg) (cfg.resolveJitter (call.ttl cfg)) ∧
      (e.FreshAt env.now ↔ call.Fits cfg env) := by
  have heff := cfg.effectiveTTL_eq env h₁ h₂
  refine ⟨heff, abs_jittered_sub_le .., ?_⟩
  obtain ⟨hx, hx'⟩ := jittered_bounds env.draw h₁ (cfg.resolveJitter (call.ttl cfg))
  have hx' : call.drawn cfg env < 2 ^ 63 + 2 ^ 61 := by
    unfold drawn
    omega
  rcases call with value | ⟨value, ttl⟩ | ⟨value, opts⟩ | ttl
  · refine freshAt_deadline hnow hnow' hx hx' ?_
    exact (expireAt_setTTL hacc.1 hacc.2 he).trans (congrArg _ heff)
  · have hneg : ¬ ttl < 0 := fun h ↦ absurd (show 1 ≤ ttl from h₁) (by omega)
    obtain ⟨hopen, hok⟩ := hacc
    rw [run] at he
    rw [Cache.setWithTTL, if_neg hneg] at hok he
    refine freshAt_deadline hnow hnow' hx hx' ?_
    exact (expireAt_setTTL hopen hok he).trans (congrArg _ heff)
  · obtain ⟨hopen, hok, hexpire⟩ := hacc
    refine freshAt_deadline hnow hnow' hx hx' ?_
    exact (expireAt_setWithOptions hopen hexpire hok he).trans (congrArg _ heff)
  · refine freshAt_refreshed hnow hnow' hx hx' ?_
    exact (expireAt_touch hacc.1 h₁ hacc.2 he).trans (congrArg (fun x ↦ wrap64 (env.now + x)) heff)

end TimedCall

/-- A cache of one shard without jitter. -/
def plainConfig : Config ℕ ℕ :=
  { defaultConfig fun _ ↦ 0 with ttlJitterExplicit := true }

/-- What a write of a minute's TTL at instant 5 leaves. -/
def minuteEntry : Entry ℕ ℕ where
  id := 0
  key := 1
  value := 7
  expireAt := 60000000005
  lastAccess := 5
  inserted := 5
  hits := 0
  weight := 1
  slidingTTL := 0
  tags := []
  sliding := false
  negative := false

theorem freshAt_minute : minuteEntry.FreshAt 5 :=
  (TimedCall.freshAt_iff_fits plainConfig (.instant 5) (new plainConfig 1) 1
    (.setWithTTL 7 60000000000) (by decide) (by decide) (by decide) (by decide) ⟨rfl, rfl⟩
    (by decide +kernel)).2.2.2 (show _ ∨ _ from .inl (by decide))

/-- A write of the longest TTL at instant 1 leaves an entry that has expired. -/
theorem expired_longest_ttl : ∃ e : Entry ℕ ℕ,
    ((TimedCall.setWithTTL 7 (2 ^ 63 - 1)).run plainConfig (.instant 1) (new plainConfig 1) 1).lookupKey
        plainConfig 1 = some e ∧
      e.expired 1 = true :=
  ⟨{ minuteEntry with expireAt := -2 ^ 63, lastAccess := 1, inserted := 1 }, by decide +kernel,
    by decide⟩

end Memcache
