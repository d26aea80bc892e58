import Memcache.Time.Stale

/-!
# Promotions of records that expire

A value promoted from a `TTLStore` takes the expiry of its record when that comes before the default
TTL, and the default TTL otherwise. The comparison is made **before the jitter and without the
sliding flag**: the default TTL may be drawn longer than the record has left, and a copy with a
sliding TTL moves its expiry on with every read. In both cases memory serves the value after its
record has expired.

The bound holds when the deadline that is set is one that keeps it, at the promotion and at every read
that pushes the expiry: the copy never moves otherwise (`PromotedRun.every_read_endsBy`).
-/

namespace Memcache

open Cache (entryExpiredLocked deadline shardFor Names)

variable {K V : Type*} {n : ℕ}

/-! ### Bounds of a deadline -/

/-- An instant that fits into 64 bits. -/
def InRange (now : ℤ) : Prop := -2 ^ 63 ≤ now ∧ now < 2 ^ 63

/-- The entry expires, by `bound`. -/
def Entry.EndsBy (e : Entry K V) (bound : ℤ) : Prop := e.expireAt ≠ 0 ∧ e.expireAt ≤ bound

/-- A deadline `ttl` after `now` comes by `bound`: it is no later, or it wraps around to an early one. -/
def SumEndsBy (now ttl bound : ℤ) : Prop :=
  now + ttl ≠ 0 ∧ (now + ttl ≤ bound ∨ 2 ^ 63 ≤ now + ttl)

theorem wrap64_add_endsBy {now ttl bound : ℤ} (hnow : InRange now) (h₁ : 1 ≤ ttl) (h₂ : ttl < 2 ^ 63)
    (hb : now < bound) :
    wrap64 (now + ttl) ≠ 0 ∧ wrap64 (now + ttl) ≤ bound ↔ SumEndsBy now ttl bound := by
  unfold SumEndsBy
  obtain ⟨hl, hu⟩ := hnow
  rcases lt_or_ge (now + ttl) (2 ^ 63) with hlt | hge
  · rw [wrap64_of_mem (by omega) hlt]
    omega
  · rw [wrap64_of_le hge (by omega)]
    omega

/-- The expiry of an entry that ends by a bound has passed at the bound. -/
theorem Entry.EndsBy.expired {e : Entry K V} {bound now : ℤ} (h : e.EndsBy bound) (hle : bound ≤ now) :
    e.expired now = true :=
  decide_eq_true ⟨h.1, h.2.trans hle⟩

/-- Before an entry's expiry lies what is live. -/
theorem Entry.EndsBy.lt_of_live {cfg : Config K V} {e : Entry K V} {bound now : ℤ} (h : e.EndsBy bound)
    (hlive : entryExpiredLocked cfg e now = false) : now < bound := by
  by_contra hle
  rw [entryExpiredLocked, h.expired (not_lt.1 hle), Bool.true_or] at hlive
  cases hlive

/-! ### The deadline of a promotion -/

/-- The expiry of the record is the one that is used: it is known, and comes before the default TTL.
The time that is left wraps around when it does not fit. -/
def RecordFirst (cfg : Config K V) (now record : ℤ) : Prop :=
  0 < record ∧ record < 2 ^ 63 ∧
    (cfg.defaultTTL ≤ 0 ∨ record - now < cfg.defaultTTL ∨ 2 ^ 63 ≤ record - now)

instance (cfg : Config K V) (now record : ℤ) : Decidable (RecordFirst cfg now record) :=
  inferInstanceAs (Decidable (_ ∧ _))

/-- The default TTL with its jitter, before it is put into 64 bits. -/
def drawnDefault (cfg : Config K V) (env : Env K) : ℤ :=
  jittered env.draw cfg.defaultTTL (cfg.resolveJitter cfg.defaultTTL)

/-- The latest a copy may expire: with its record, or right after the promotion. -/
def promotionBound (now record : ℤ) : ℤ := max record (now + 1)

/-- **When a promotion keeps the bound.** With the record's expiry it does, but for one instant whose
successor reads as "no expiry". With the default TTL, the drawn one has to. -/
def PromotesInTime (cfg : Config K V) (env : Env K) (record : ℤ) : Prop :=
  if RecordFirst cfg env.now record then ¬ (env.now = -1 ∧ record = 2 ^ 63 - 1)
  else 0 < cfg.defaultTTL ∧ drawnDefault cfg env < 2 ^ 63 ∧
    SumEndsBy env.now (drawnDefault cfg env) (promotionBound env.now record)

/-- The deadline of a promotion's copy. -/
def promotedDeadline (cfg : Config K V) (env : Env K) (record : ℤ) : ℤ :=
  if RecordFirst cfg env.now record then
    deadline env (max (wrap64 (wrap64 record - env.now)) 1)
  else deadline env (cfg.effectiveTTL env cfg.defaultTTL)

section Deadline

variable {cfg : Config K V} {env : Env K} {record : ℤ}

/-- With the record's expiry: the time left, or the shortest there is. -/
theorem deadline_record_endsBy (hnow : InRange env.now) (h₀ : 0 < record) (h₁ : record < 2 ^ 63) :
    deadline env (max (wrap64 (wrap64 record - env.now)) 1) ≠ 0 ∧
        deadline env (max (wrap64 (wrap64 record - env.now)) 1) ≤
          promotionBound env.now record ↔
      ¬ (env.now = -1 ∧ record = 2 ^ 63 - 1) := by
  obtain ⟨hl, hu⟩ := hnow
  have hpos : (0 : ℤ) < max (wrap64 (record - env.now)) 1 := by omega
  rw [wrap64_of_mem (by omega) h₁, deadline, if_pos hpos, promotionBound]
  rcases lt_or_ge (record - env.now) (2 ^ 63) with hlt | hge
  · rw [wrap64_of_mem (by omega) hlt]
    rcases lt_or_ge (env.now + max (record - env.now) 1) (2 ^ 63) with hsum | hsum
    · rw [wrap64_of_mem (by omega) hsum]
      omega
    · rw [wrap64_of_le hsum (by omega)]
      omega
  · -- an early clock: what is left wraps around to less than nothing
    rw [wrap64_of_le hge (by omega), max_eq_right (by omega), wrap64_of_mem (by omega) (by omega)]
    omega

variable (hnow : InRange env.now) (hmax : cfg.defaultTTL < 2 ^ 63)
include hnow hmax

/-- With the default TTL. -/
theorem deadline_default_endsBy :
    deadline env (cfg.effectiveTTL env cfg.defaultTTL) ≠ 0 ∧
        deadline env (cfg.effectiveTTL env cfg.defaultTTL) ≤ promotionBound env.now record ↔
      0 < cfg.defaultTTL ∧ drawnDefault cfg env < 2 ^ 63 ∧
        SumEndsBy env.now (drawnDefault cfg env) (promotionBound env.now record) := by
  have hb : env.now < promotionBound env.now record := by
    unfold promotionBound
    omega
  rcases lt_or_ge 0 cfg.defaultTTL with hd | hd
  · obtain ⟨hx, hx'⟩ := jittered_bounds env.draw (show 1 ≤ cfg.defaultTTL by omega)
      (cfg.resolveJitter cfg.defaultTTL)
    rw [cfg.effectiveTTL_eq env (by omega) hmax, ← drawnDefault, deadline]
    rw [← drawnDefault] at hx hx'
    rcases lt_or_ge (drawnDefault cfg env) (2 ^ 63) with hlt | hge
    · rw [wrap64_of_mem (by omega) hlt, if_pos (by omega), wrap64_add_endsBy hnow hx hlt hb]
      exact ⟨fun h ↦ ⟨hd, hlt, h⟩, fun h ↦ h.2.2⟩
    · rw [wrap64_of_le hge (by omega), if_neg (by omega)]
      omega
  · rw [Config.effectiveTTL, if_pos hd, deadline, if_neg (by omega)]
    omega

theorem promotedDeadline_endsBy :
    promotedDeadline cfg env record ≠ 0 ∧
        promotedDeadline cfg env record ≤ promotionBound env.now record ↔
      PromotesInTime cfg env record := by
  unfold promotedDeadline PromotesInTime
  split_ifs with hfirst
  · exact deadline_record_endsBy hnow hfirst.1 hfirst.2.1
  · exact deadline_default_endsBy hnow hmax

/-- The code's comparison is the one of the record's expiry in 64 bits. -/
theorem recordFirst_iff (h₁ : -2 ^ 63 ≤ record) (h₂ : record < 2 ^ 64) :
    0 < wrap64 record ∧
        (cfg.defaultTTL ≤ 0 ∨ wrap64 (wrap64 record - env.now) < cfg.defaultTTL) ↔
      RecordFirst cfg env.now record := by
  unfold RecordFirst
  obtain ⟨hl, hu⟩ := hnow
  rcases lt_or_ge record (2 ^ 63) with hlt | hge
  · rw [wrap64_of_mem h₁ hlt]
    rcases lt_or_ge (record - env.now) (2 ^ 63) with hleft | hleft
    · by_cases hpos : 0 < record
      · rw [wrap64_of_mem (by omega) hleft]
        omega
      · simp only [hpos, false_and]
    · rw [wrap64_of_le hleft (by omega)]
      omega
  · rw [wrap64_of_le hge (by omega)]
    omega

end Deadline

namespace Cache

variable [BEq K] [PartialEquivBEq K] [NeZero n] {cfg : Config K V} {env : Env K} {c c' c'' : Cache K V n}
  {i : Fin n} {key : K} {e : Entry K V}

/-! ### The copy -/

/-- What a promotion makes of a record. -/
structure IsCopy (cfg : Config K V) (env : Env K) (value : V) (record : ℤ) (e : Entry K V) : Prop where
  expireAt : e.expireAt = promotedDeadline cfg env record
  value : e.value = value
  slidingTTL : e.slidingTTL ≤ max 0 cfg.defaultTTL

section Promote

variable {value : V} {at₀ ttl weight : ℤ}

omit [NeZero n] in
theorem puts_upsertPromoted (hsealed : c.sealed = false) {record : ℤ} (hnow : InRange env.now)
    (hmax : cfg.defaultTTL < 2 ^ 63) (h₁ : -2 ^ 63 ≤ record) (h₂ : record < 2 ^ 64) (weight : ℤ) :
    Puts c (c.upsertPromoted cfg env i key value weight (wrap64 record)) i key
      (IsCopy cfg env value record) := by
  unfold upsertPromoted
  simp only [recordFirst_iff hnow hmax h₁ h₂]
  split_ifs with hfirst
  · refine (puts_upsertLocked cfg env i key hsealed value weight _ _ _ _).mono fun e hw ↦ ?_
    obtain ⟨e₀, -, rfl⟩ := hw
    exact ⟨(if_pos hfirst).symm, rfl, le_max_left ..⟩
  · refine (puts_upsertLocked cfg env i key hsealed value weight _ _ _ _).mono fun e hw ↦ ?_
    obtain ⟨e₀, -, rfl⟩ := hw
    refine ⟨(if_neg hfirst).symm, rfl, ?_⟩
    show (if cfg.slidingTTL then cfg.defaultTTL else 0) ≤ _
    split_ifs
    · exact le_max_right ..
    · exact le_max_left ..

/-- **What a promotion leaves**: a copy of the record under its key, or nothing there. -/
theorem promote_copy (hopen : c.closed = false) (hsealed : c.sealed = false)
    (hnone : c.freshEntryLocked cfg env (shardFor cfg key) key = none) (hat : InRange at₀)
    (hnow : InRange env.now) (hmax : cfg.defaultTTL < 2 ^ 63) (h₀ : 0 < ttl) (h₁ : ttl < 2 ^ 63)
    (hok : c.preparePromotion cfg key value (storeExpireAt at₀ (some (.found ttl))) = .ok weight) :
    (∀ e, (c.promote cfg env key value (storeExpireAt at₀ (some (.found ttl)))).lookupKey cfg key =
        some e → IsCopy cfg env value (at₀ + ttl) e) ∧
      (∀ j, ((c.promote cfg env key value (storeExpireAt at₀ (some (.found ttl)))).shards j).pending =
        (c.shards j).pending) ∧
      (c.promote cfg env key value (storeExpireAt at₀ (some (.found ttl)))).closed = false := by
  have hexpire : storeExpireAt at₀ (some (.found ttl)) = wrap64 (at₀ + ttl) := if_pos h₀
  obtain ⟨hl, hu⟩ := hat
  rw [hexpire] at hok ⊢
  set i : Fin n := shardFor cfg key with hi
  have hhide : (c.hideWatch i key).sealed = false := hsealed
  have hput : Puts (c.hideWatch i key)
      ((c.hideWatch i key).upsertPromoted cfg env i key value weight (wrap64 (at₀ + ttl))) i key
      (IsCopy cfg env value (at₀ + ttl)) :=
    puts_upsertPromoted hhide hnow hmax (by omega) (by omega) weight
  have heq : c.promote cfg env key value (wrap64 (at₀ + ttl)) =
      (((c.hideWatch i key).upsertPromoted cfg env i key value weight
        (wrap64 (at₀ + ttl))).restoreWatch i key ((c.shards i).flights.watches.get key)).flushAndUnlock
          cfg env i := by
    unfold promote
    dsimp only
    rw [← hi, hnone, if_pos Option.isNone_none, hok, promoteLocked, if_neg (by simp [hopen])]
  rw [heq]
  set d := (c.hideWatch i key).upsertPromoted cfg env i key value weight (wrap64 (at₀ + ttl))
  have hrest := d.restoreWatch_shards i key ((c.shards i).flights.watches.get key)
  have hflush : Sheds (d.restoreWatch i key ((c.shards i).flights.watches.get key))
      ((d.restoreWatch i key ((c.shards i).flights.watches.get key)).flushAndUnlock cfg env i) :=
    sheds_flushAndUnlock _
  refine ⟨fun e he ↦ ?_, fun j ↦ ?_, ?_⟩
  · have hget := hflush.get_of_get he
    rw [(hrest i).1] at hget
    exact hput.get e hget
  · rw [hflush.pending, (hrest j).2, hput.pending]
    rcases eq_or_ne j i with rfl | hj
    · rw [hideWatch, modify_shards_self]
    · rw [hideWatch, modify_shards_of_ne _ _ hj]
  · rw [hflush.closed]
    have hclosed : (d.restoreWatch i key ((c.shards i).flights.watches.get key)).closed = d.closed := by
      rcases (c.shards i).flights.watches.get key with - | w <;> rfl
    rw [hclosed, hput.closed]
    exact hopen

end Promote

/-! ### Which entries a read pushes -/

/-- What a lookup finds in `c'` it found in `c`, with the expiry it had then, unless it was `due`. -/
structure Pushes (due : Fin n → Entry K V → Prop) (now : ℤ) (c c' : Cache K V n) : Prop where
  found : ∀ {j key e'}, (c'.shards j).get key = some e' →
    ∃ e, (c.shards j).get key = some e ∧ e.Touched now e' ∧ (due j e ∨ e'.expireAt = e.expireAt)

namespace Pushes

variable {due : Fin n → Entry K V → Prop} {now : ℤ}

omit [PartialEquivBEq K] [NeZero n] in
theorem of_found (h : ∀ {j key e}, (c'.shards j).get key = some e → (c.shards j).get key = some e) :
    Pushes due now c c' :=
  ⟨fun he ↦ ⟨_, h he, .same, .inr rfl⟩⟩

omit [PartialEquivBEq K] [NeZero n] in
theorem calm (h : Pushes due now c c') (h' : Calm c' c'') : Pushes due now c c'' :=
  ⟨fun he ↦ h.found (h'.get_of_get he)⟩

omit [PartialEquivBEq K] [NeZero n] in
theorem calm_left (h : Calm c c') (h' : Pushes due now c' c'') : Pushes due now c c'' where
  found he' := by
    obtain ⟨e, he, ht, hd⟩ := h'.found he'
    exact ⟨e, h.get_of_get he, ht, hd⟩

omit [NeZero n] in
theorem put {b : Entry K V} {f : Table K V → Table K V} {nextId : ℕ}
    (hok : TableOk (c.shards i).toTable nextId) (hmem : e ∈ (c.shards i).storage)
    (ht : e.Touched now b) (hd : due i e ∨ b.expireAt = e.expireAt)
    (hf : ∀ t, (f t).storage = (t.put b).storage) : Pushes due now c (c.modifyTable i f) where
  found {_ _ a} ha := by
    rcases get_of_get_put hok hmem ht.key_eq hf ha with ⟨rfl, rfl, he⟩ | ha
    · exact ⟨e, he, ht, hd⟩
    · exact ⟨a, ha, .same, .inr rfl⟩

end Pushes

/-- The entries a read of a key touches. -/
def Due (cfg : Config K V) (c : Cache K V n) (now : ℤ) (k : K) (j : Fin n) (e : Entry K V) : Prop :=
  j = shardFor cfg k ∧ c.lookupKey cfg k = some e ∧ entryExpiredLocked cfg e now = false

section Reads

variable {due : Fin n → Entry K V → Prop} {nextId : ℕ}

variable (ht : TableOk (c.shards i).toTable nextId) (he : (c.shards i).get key = some e)
include ht he

omit [NeZero n] in
theorem pushes_countHit (now : ℤ) : Pushes due now c (c.countHit i e) :=
  .put (b := { e with hits := e.hits + 1 }) ht (Table.mem_of_get he) .hit (.inr rfl) fun _ ↦ rfl

omit [NeZero n] in
theorem pushes_staleHit (now : ℤ) : Pushes due now c (c.staleHit cfg i e) :=
  .put (b := { e with hits := e.hits + 1 }) ht (Table.mem_of_get he) .hit (.inr rfl) fun _ ↦ rfl

omit [NeZero n] in
theorem pushes_touchEntry (hd : due i e) : Pushes due env.now c (c.touchEntry cfg env i e) := by
  unfold touchEntry
  exact .put ht (Table.mem_of_get he) .touch (.inl hd) fun _ ↦ rfl

end Reads

/-- **A `Get` pushes the expiry of its key's entry, if that is live.** -/
theorem pushes_get (hinv : c.core.Inv) (hread : c.core.ReadInv cfg) (env : Env K) (k : K) :
    Pushes (Due cfg c env.now k) env.now c (c.get cfg env k).2 := by
  unfold get
  dsimp only
  split_ifs
  · exact .of_found id
  split
  · exact .of_found id
  split
  · next e hfast =>
    exact pushes_countHit (hinv.table _) (get_of_tryLockFreeGet_hit (hread _) (hinv.table _) hfast) _
  · exact .of_found id
  -- under the lock
  set i : Fin n := shardFor cfg k with hi
  have ht := hinv.table i
  unfold getLocked
  split
  · exact .of_found (calm_flushAndUnlock c i).get_of_get
  next e he =>
  split_ifs with hserve hfree hexp hstale hneg
  · exact (pushes_countHit ht he _).calm (calm_recordReadMiss _ i k)
  · exact pushes_countHit ht he _
  · have hcalm : Calm c (c.triggerAsyncRefreshLocked cfg i k) :=
      calm_triggerAsyncRefreshLocked c i k
    have htable : ((c.triggerAsyncRefreshLocked cfg i k).shards i).toTable = (c.shards i).toTable :=
      toTable_triggerAsyncRefreshLocked c i k
    have ht' : TableOk ((c.triggerAsyncRefreshLocked cfg i k).shards i).toTable c.core.nextId :=
      htable ▸ ht
    exact (Pushes.calm_left hcalm (pushes_staleHit ht' (htable ▸ he) _)).calm (calm_flushAndUnlock _ i)
  · have hgone : Pushes (Due cfg c env.now k) env.now c
        (c.removeLocked cfg env i e (expiryReason e env.now)).countExpiration :=
      .of_found (fades_removeLocked c e _).get_of_get
    exact hgone.calm (calm_flushAndUnlock _ i)
  · exact .of_found (calm_flushAndUnlock c i).get_of_get
  · have hdue : Due cfg c env.now k i e := ⟨hi, he, by simpa using hexp⟩
    have hlate (late : Bool) : Calm (c.touchEntry cfg env i e) (if late then
        (c.touchEntry cfg env i e).triggerAsyncRefreshLocked cfg i k
      else c.touchEntry cfg env i e) := by
      split_ifs
      · exact calm_triggerAsyncRefreshLocked _ i k
      · exact .refl _
    exact ((pushes_touchEntry ht he hdue).calm ((hlate _).trans (calm_maybePromoteOnSlowHit _ i k))).calm
      (calm_flushAndUnlock _ i)

/-- So does `GetOrLoad`. -/
theorem pushes_getOrLoad (hinv : c.core.Inv) (env : Env K) (k : K) (allow : Bool)
    (hqueue : (c.shards (shardFor cfg k)).pending.get k = none) :
    Pushes (Due cfg c env.now k) env.now c (c.getOrLoad cfg env k allow) := by
  unfold getOrLoad loadOrJoin
  split_ifs
  · exact .of_found id
  obtain ⟨hcalm, hinv'⟩ := calm_applyPendingKey env hinv hqueue
  refine (Pushes.calm_left hcalm ?_).calm (calm_flushAndUnlock _ _)
  set i : Fin n := shardFor cfg k with hi
  have hdue {e : Entry K V} (he : ((c.applyPendingKey cfg env k).shards i).get k = some e)
      (hlive : entryExpiredLocked cfg e env.now = false) : Due cfg c env.now k i e :=
    ⟨hi, hcalm.get_of_get he, hlive⟩
  generalize c.applyPendingKey cfg env k = d at hinv' hdue ⊢
  unfold loadOrJoinLocked
  split
  · next value d' h =>
    unfold serveLoadHitLocked at h
    split at h
    · cases h
    next e he =>
    have hstart := calm_startRefreshLocked d i k
    have htable := toTable_startRefreshLocked d i k
    have hok : TableOk ((d.startRefreshLocked i k).shards i).toTable d.core.nextId := by
      rw [htable]
      exact hinv'.table i
    have he' : ((d.startRefreshLocked i k).shards i).get k = some e := by
      rw [htable]
      exact he
    split_ifs at h with hneg hlive
    · obtain rfl := (Prod.mk.inj (Option.some.inj h)).2
      have hd := hdue he (by simpa using hlive)
      split_ifs
      · exact .calm_left hstart (pushes_touchEntry hok he' hd)
      · exact pushes_touchEntry (hinv'.table i) he hd
    · obtain rfl := (Prod.mk.inj (Option.some.inj h)).2
      exact .calm_left hstart (pushes_staleHit hok he' _)
  split_ifs
  · exact .of_found id
  split
  · exact .of_found id
  · have hdrop : Calm d (d.dropCachedError cfg i k) := by
      unfold dropCachedError
      split_ifs
      · exact .modify d i fun _ ↦ ⟨rfl, rfl⟩
      · exact .refl d
    exact .of_found (hdrop.trans (calm_joinOrStart _ i k allow)).get_of_get

/-- And so does `GetWithExpiry`. -/
theorem pushes_getWithExpiry (hinv : c.core.Inv) (env : Env K) (k : K)
    (hqueue : (c.shards (shardFor cfg k)).pending.get k = none) :
    Pushes (Due cfg c env.now k) env.now c (c.getWithExpiry cfg env k) := by
  unfold getWithExpiry onKey
  split_ifs
  · exact .of_found id
  obtain ⟨hcalm, hinv'⟩ := calm_applyPendingKey env hinv hqueue
  refine (Pushes.calm_left hcalm ?_).calm (calm_flushAndUnlock _ _)
  dsimp only
  split
  · exact .of_found id
  next e he =>
  split_ifs with hexp hneg
  · exact .of_found (fades_removeLocked _ e _).get_of_get
  · exact .of_found id
  · exact pushes_touchEntry (hinv'.table _) he ⟨rfl, hcalm.get_of_get he, by simpa using hexp⟩

/-! ### What a read serves -/

/-- An entry that a read serves at an instant: live, or stale within its window. -/
def Servable (cfg : Config K V) (e : Entry K V) (now : ℤ) : Prop :=
  entryExpiredLocked cfg e now = false ∨ shouldServeStale cfg e now = true

theorem servable_of_get (hinv : c.core.Inv) (hread : c.core.ReadInv cfg)
    (hqueue : (c.shards (shardFor cfg key)).pending.get key = none) {value : V}
    (h : (c.get cfg env key).1 = .hit value) :
    ∃ e, c.lookupKey cfg key = some e ∧ Servable cfg e env.now := by
  obtain ⟨e, he, -, -, hserve⟩ := lookup_of_hit hinv hread hqueue h
  exact ⟨e, he, hserve⟩

theorem servable_of_loadOrJoin (hinv : c.core.Inv)
    (hqueue : (c.shards (shardFor cfg key)).pending.get key = none) {value : V} {allow : Bool}
    (h : (c.loadOrJoin cfg env key allow).1 = .hit value) :
    ∃ e, c.lookupKey cfg key = some e ∧ Servable cfg e env.now := by
  obtain ⟨hcalm, -⟩ := calm_applyPendingKey env hinv hqueue
  unfold loadOrJoin at h
  dsimp only at h
  unfold loadOrJoinLocked at h
  split at h
  · next value d' hserve =>
    unfold serveLoadHitLocked at hserve
    split at hserve
    · cases hserve
    next e he =>
    refine ⟨e, hcalm.get_of_get he, ?_⟩
    split_ifs at hserve with hneg hlive hstale
    · exact .inl (by simpa using hlive)
    · exact .inr hstale
  · split_ifs at h
    split at h
    · cases h
    · unfold joinOrStart at h
      split at h
      · cases h
      · split_ifs at h

end Cache

/-! ### Reads after a promotion -/

namespace ReadAct

variable [BEq K] [NeZero n]

/-- The action is a read of the key. -/
def Of (cfg : Config K V) (key : K) : ReadAct K n → Prop
  | get k | getOrLoad k _ | getWithExpiry k | peek k | has k => Names n cfg key k
  | tick _ => False

/-- Whether a read answers with a value that is in memory. -/
def served (cfg : Config K V) (env : Env K) (c : Cache K V n) : ReadAct K n → Bool
  | get k => (c.get cfg env k).1.value.isSome
  | getOrLoad k allow =>
    match (c.loadOrJoin cfg env k allow).1 with
    | .hit _ => !c.closed
    | _ => false
  | getWithExpiry k => !c.closed &&
    ((c.applyPendingKey cfg env k).freshEntryLocked cfg env (shardFor cfg k) k).isSome
  | peek k => (c.peek cfg env k).1.isSome
  | has k => (c.has cfg env k).1
  | tick _ => false

end ReadAct

namespace PromotedRun

variable [BEq K] [NeZero n]

/-- If a read at `now` pushes the expiry of a live entry, then to an instant by `bound`. -/
def PushesInTime (cfg : Config K V) (bound now : ℤ) (e : Entry K V) : Prop :=
  entryExpiredLocked cfg e now = false → (e.touchAccess now).2 = true →
    SumEndsBy now e.slidingTTL bound

/-- **When a read keeps the bound**: it does not push the expiry of the key's entry past it, and past
the bound it does not find the entry in the window in which stale ones are served. -/
def ReadsInTime (cfg : Config K V) (key : K) (bound : ℤ) (c : Cache K V n) (p : Env K × ReadAct K n) :
    Prop :=
  match p.2 with
  | .get k | .getOrLoad k _ => Names n cfg key k → ∀ e, c.lookupKey cfg key = some e →
      PushesInTime cfg bound p.1.now e ∧
        (bound ≤ p.1.now → Cache.shouldServeStale cfg e p.1.now = false)
  | .getWithExpiry k => Names n cfg key k → ∀ e, c.lookupKey cfg key = some e →
      PushesInTime cfg bound p.1.now e
  | .peek _ | .has _ | .tick _ => True

/-- The state after an action. -/
def step (cfg : Config K V) (c : Cache K V n) (p : Env K × ReadAct K n) : Cache K V n :=
  StaleRun.act cfg p.1 c p.2

/-- What such a run keeps: the key's entry, if there is one, expires by the bound. -/
structure Bounded [Inhabited V] (cfg : Config K V) (key : K) (bound : ℤ) (c : Cache K V n) : Prop where
  reach : Reachable cfg c
  closed : c.closed = false
  queue : ∀ i k, (c.shards i).pending.get k = none
  endsBy : ∀ e, c.lookupKey cfg key = some e → e.EndsBy bound ∧ e.slidingTTL < 2 ^ 63

omit [BEq K] in
/-- A touch leaves the expiry, or pushes it a whole sliding TTL ahead. -/
theorem expireAt_touchAccess (e : Entry K V) (now : ℤ) :
    (e.touchAccess now).1.expireAt = e.expireAt ∨
      (e.touchAccess now).2 = true ∧ 1 ≤ e.slidingTTL ∧
        (e.touchAccess now).1.expireAt = wrap64 (now + e.slidingTTL) := by
  unfold Entry.touchAccess
  split_ifs with h₁ h₂
  · exact .inl rfl
  · exact .inl rfl
  · exact .inr ⟨rfl, by omega, rfl⟩

omit [BEq K] in
/-- What a read makes of an entry that ends by the bound ends by it, if a push does. -/
theorem endsBy_of_touched {cfg : Config K V} {e e' : Entry K V} {bound now : ℤ} (hnow : InRange now)
    (hends : e.EndsBy bound) (hmax : e.slidingTTL < 2 ^ 63) (ht : e.Touched now e')
    (hlive : entryExpiredLocked cfg e now = false) (hpush : PushesInTime cfg bound now e) :
    e'.EndsBy bound := by
  cases ht with
  | touch =>
    -- the hit count has no part in it
    have hsame : (({ e with hits := e.hits + 1 } : Entry K V).touchAccess now).1.expireAt =
        (e.touchAccess now).1.expireAt := by
      unfold Entry.touchAccess
      split_ifs <;> rfl
    unfold Entry.EndsBy
    rw [hsame]
    rcases expireAt_touchAccess e now with heq | ⟨hpushed, hone, heq⟩
    · rw [heq]
      exact hends
    · rw [heq, wrap64_add_endsBy hnow hone hmax (hends.lt_of_live hlive)]
      exact hpush hlive hpushed
  | _ => exact hends

namespace Bounded

variable [EquivBEq K] [Inhabited V] {cfg : Config K V} {key : K} {bound : ℤ} {c : Cache K V n}
  {p : Env K × ReadAct K n}

/-- What an action does to the expiries. -/
theorem pushes (hc : Bounded cfg key bound c) (hread : ReadsInTime cfg key bound c p) :
    Cache.Pushes (fun j e ↦ (j = shardFor cfg key → c.lookupKey cfg key = some e →
      entryExpiredLocked cfg e p.1.now = false ∧ PushesInTime cfg bound p.1.now e)) p.1.now c
      (step cfg c p) := by
  obtain ⟨hinv, hr⟩ := Cache.readInv_of_reachable hc.reach
  obtain ⟨env, a⟩ := p
  -- an entry that is due is the key's only if the read is one of the key
  have hdue {k : K} (hk : Names n cfg key k → ∀ e, c.lookupKey cfg key = some e →
      PushesInTime cfg bound env.now e) {c' : Cache K V n}
      (h : Cache.Pushes (Cache.Due cfg c env.now k) env.now c c') :
      Cache.Pushes (fun j e ↦ (j = shardFor cfg key → c.lookupKey cfg key = some e →
        entryExpiredLocked cfg e env.now = false ∧ PushesInTime cfg bound env.now e)) env.now c
        c' := by
    refine ⟨fun he' ↦ ?_⟩
    obtain ⟨e, he, ht, hd⟩ := h.found he'
    refine ⟨e, he, ht, hd.imp_left ?_⟩
    rintro ⟨hj, hlook, hlive⟩ hj' hkey
    exact ⟨hlive, hk (Cache.names_of_lookup hkey hlook (hj.symm.trans hj')) e hkey⟩
  rcases a with k | ⟨k, allow⟩ | k | k | k | i
  · exact hdue (fun hn e he ↦ (hread hn e he).1) (Cache.pushes_get hinv hr env k)
  · exact hdue (fun hn e he ↦ (hread hn e he).1)
      (Cache.pushes_getOrLoad hinv env k allow (hc.queue _ _))
  · exact hdue hread (Cache.pushes_getWithExpiry hinv env k (hc.queue _ _))
  · exact .of_found id
  · exact .of_found id
  · exact .of_found (Cache.sheds_sweep c).get_of_get

/-- One step keeps the bound. -/
theorem step (hc : Bounded cfg key bound c) (hnow : InRange p.1.now)
    (hread : ReadsInTime cfg key bound c p) : Bounded cfg key bound (step cfg c p) := by
  have htends : Cache.Tends (fun _ _ ↦ True) p.1.now c (StaleRun.act cfg p.1 c p.2) :=
    StaleRun.tends_act hc.reach p hc.queue (fun _ _ _ _ _ _ ↦ trivial) (fun _ _ _ _ _ ↦ trivial)
      fun _ _ _ _ _ ↦ trivial
  refine ⟨StaleRun.reachable_act hc.reach p, htends.closed.trans hc.closed, fun i k ↦ ?_, ?_⟩
  · show ((StaleRun.act cfg p.1 c p.2).shards i).pending.get k = none
    rw [htends.pending]
    exact hc.queue i k
  · intro e' he'
    obtain ⟨e, he, ht, hd⟩ := (hc.pushes hread).found he'
    obtain ⟨hends, hmax⟩ := hc.endsBy e he
    refine ⟨?_, ht.fields.2.2.2.1 ▸ hmax⟩
    rcases hd with hd | hsame
    · obtain ⟨hlive, hpush⟩ := hd rfl he
      exact endsBy_of_touched hnow hends hmax ht hlive hpush
    · exact ⟨hsame ▸ hends.1, hsame ▸ hends.2⟩

/-- **Past the bound no read is served from memory.** -/
theorem served_eq_false (hc : Bounded cfg key bound c) (hread : ReadsInTime cfg key bound c p)
    (hle : bound ≤ p.1.now) (hof : p.2.Of cfg key) : p.2.served cfg p.1 c = false := by
  obtain ⟨hinv, hr⟩ := Cache.readInv_of_reachable hc.reach
  obtain ⟨env, a⟩ := p
  -- the key's entry has expired
  have hexp {k : K} (hk : Names n cfg key k) {e : Entry K V} (he : c.lookupKey cfg k = some e) :
      c.lookupKey cfg key = some e ∧ entryExpiredLocked cfg e env.now = true := by
    have hkey := (hk.lookupKey c).symm.trans he
    refine ⟨hkey, ?_⟩
    rw [entryExpiredLocked, (hc.endsBy e hkey).1.expired hle, Bool.true_or]
  have hstale {k : K} (hk : Names n cfg key k)
      (hwin : ∀ e, c.lookupKey cfg key = some e → Cache.shouldServeStale cfg e env.now = false) :
      ¬ ∃ e, c.lookupKey cfg k = some e ∧ Cache.Servable cfg e env.now := by
    rintro ⟨e, he, hlive | hs⟩
    · rw [(hexp hk he).2] at hlive
      cases hlive
    · rw [hwin e (hexp hk he).1] at hs
      cases hs
  have hpeek {k : K} (hk : Names n cfg key k) : (c.peek cfg env k).1 = none := by
    have hq : Cache.asyncReadHit (c.shards (shardFor cfg k)) k env.now = none := by
      rw [Cache.asyncReadHit, hc.queue]
    unfold Cache.peek
    rw [hq, hc.closed, if_neg Bool.false_ne_true]
    dsimp only
    split
    · rfl
    · next e he => rw [(hexp hk he).2, Bool.true_or, if_pos rfl]
  rcases a with k | ⟨k, allow⟩ | k | k | k | i
  · by_contra hserved
    rw [Bool.not_eq_false, ReadAct.served, Option.isSome_iff_exists] at hserved
    obtain ⟨value, hv⟩ := hserved
    rcases hget : (c.get cfg env k).1 with v | - | -
    · exact hstale hof (fun e he ↦ (hread hof e he).2 hle)
        (Cache.servable_of_get hinv hr (hc.queue _ _) hget)
    · rw [hget] at hv
      cases hv
    · rw [hget] at hv
      cases hv
  · show (match (c.loadOrJoin cfg env k allow).1 with
      | .hit _ => !c.closed
      | _ => false) = false
    split
    · next v hload =>
      exact absurd (Cache.servable_of_loadOrJoin hinv (hc.queue _ _) hload)
        (hstale hof fun e he ↦ (hread hof e he).2 hle)
    · rfl
  · have hcalm : Cache.Calm c (c.applyPendingKey cfg env k) :=
      (Cache.calm_applyPendingKey env hinv (hc.queue _ _)).1
    rcases hfresh : (c.applyPendingKey cfg env k).freshEntryLocked cfg env (shardFor cfg k) k
      with - | e
    · simp only [ReadAct.served, hfresh, Option.isSome_none, Bool.and_false]
    · obtain ⟨hget, hlive⟩ := Cache.freshEntryLocked_eq_some _ _ hfresh
      rw [(hexp hof (hcalm.get_of_get hget)).2] at hlive
      simp at hlive
  · rw [ReadAct.served, hpeek hof, Option.isSome_none]
  · rw [ReadAct.served, Cache.has, hpeek hof, Option.isSome_none]
  · exact hof.elim

end Bounded

/-- **A promoted copy expires with its record** in every run of reads and janitor ticks, of any keys
and shards, that begins with a promotion in time and whose reads are all in time; no read of the key is
served from memory once the bound has passed. Right after the promotion the bound holds exactly when
the promotion is in time. The record is one of which the Store said at `at₀` that it has `ttl` left. -/
theorem every_read_endsBy [EquivBEq K] [Inhabited V] (cfg : Config K V) (hmax : cfg.defaultTTL < 2 ^ 63)
    (env : Env K) (hnow : InRange env.now) {c : Cache K V n} (hc : Reachable cfg c)
    (hopen : c.closed = false) (hsealed : c.sealed = false)
    (hqueue : ∀ i k, (c.shards i).pending.get k = none) (key : K) (value : V)
    (hnone : c.freshEntryLocked cfg env (Cache.shardFor cfg key) key = none) {at₀ ttl weight : ℤ}
    (hat : InRange at₀) (h₀ : 0 < ttl) (h₁ : ttl < 2 ^ 63)
    (hok : c.preparePromotion cfg key value (Cache.storeExpireAt at₀ (some (.found ttl))) =
      .ok weight) :
    (∀ e, (c.promote cfg env key value (Cache.storeExpireAt at₀ (some (.found ttl)))).lookupKey cfg
        key = some e →
      (e.EndsBy (promotionBound env.now (at₀ + ttl)) ↔ PromotesInTime cfg env (at₀ + ttl))) ∧
    (PromotesInTime cfg env (at₀ + ttl) → ∀ l : List (Env K × ReadAct K n),
      Runs.Along (step cfg) (fun c p ↦ InRange p.1.now ∧
          ReadsInTime cfg key (promotionBound env.now (at₀ + ttl)) c p)
        (c.promote cfg env key value (Cache.storeExpireAt at₀ (some (.found ttl)))) l →
      Runs.Along (step cfg) (fun c p ↦
          (∀ e, (step cfg c p).lookupKey cfg key = some e →
            e.EndsBy (promotionBound env.now (at₀ + ttl))) ∧
          (promotionBound env.now (at₀ + ttl) ≤ p.1.now → p.2.Of cfg key →
            p.2.served cfg p.1 c = false))
        (c.promote cfg env key value (Cache.storeExpireAt at₀ (some (.found ttl)))) l) := by
  obtain ⟨hcopy, hpending, hclosed⟩ :=
    Cache.promote_copy hopen hsealed hnone hat hnow hmax h₀ h₁ hok
  have hiff : _ ↔ PromotesInTime cfg env (at₀ + ttl) := promotedDeadline_endsBy hnow hmax
  refine ⟨fun e he ↦ ?_, fun hprom l hl ↦ ?_⟩
  · unfold Entry.EndsBy
    rw [(hcopy e he).expireAt]
    exact hiff
  · have hstart : Bounded cfg key (promotionBound env.now (at₀ + ttl))
        (c.promote cfg env key value (Cache.storeExpireAt at₀ (some (.found ttl)))) := by
      refine ⟨hc.step env (.promote key value _), hclosed, fun i k ↦ ?_, fun e he ↦ ⟨?_, ?_⟩⟩
      · rw [hpending]
        exact hqueue i k
      · unfold Entry.EndsBy
        rw [(hcopy e he).expireAt]
        exact hiff.2 hprom
      · exact (hcopy e he).slidingTTL.trans_lt (by omega)
    refine hl.of_invariant (I := Bounded cfg key (promotionBound env.now (at₀ + ttl))) ?_ ?_ hstart
    · intro d p hp hd
      exact hd.step hp.1 hp.2
    · intro d p hp hd
      exact ⟨fun e he ↦ ((hd.step hp.1 hp.2).endsBy e he).1, hd.served_eq_false hp.2⟩

end PromotedRun

/-- A default TTL of 100, with the jitter every cache has unless it is told otherwise. -/
def promotingConfig : Config ℕ ℕ :=
  { defaultConfig fun _ ↦ 0 with defaultTTL := 100 }

/-- A sliding default TTL of 100, without jitter. -/
def slidingPromotingConfig : Config ℕ ℕ :=
  { promotingConfig with
    ttlJitterExplicit := true
    slidingTTL := true }

/-- The copy at instant 0 of a record with 90 left. -/
def promotedEntry : Entry ℕ ℕ :=
  { minuteEntry with expireAt := 90, lastAccess := 0, inserted := 0 }

/-- Reads of that copy half way through and when its record has expired. -/
theorem PromotedRun.every_read_endsBy_ninety :
    Runs.Along (PromotedRun.step slidingPromotingConfig) (fun c p ↦
        (∀ e, (PromotedRun.step slidingPromotingConfig c p).lookupKey slidingPromotingConfig 1 =
          some e → e.EndsBy 90) ∧
        (90 ≤ p.1.now → p.2.Of slidingPromotingConfig 1 →
          p.2.served slidingPromotingConfig p.1 c = false))
      ((new slidingPromotingConfig 1).promote slidingPromotingConfig (.instant 0) 1 7 90)
      [(.instant 50, .get 1), (.instant 90, .get 1)] := by
  refine (PromotedRun.every_read_endsBy slidingPromotingConfig (by decide) (.instant 0) (by constructor <;> decide)
    (c := new slidingPromotingConfig 1) ⟨[], rfl⟩ rfl rfl (fun _ _ ↦ rfl) 1 7 rfl
    (show InRange 0 by constructor <;> decide) (show (0 : ℤ) < 90 by decide) (by decide) rfl).2 ?_ _ ?_
  · unfold PromotesInTime
    rw [if_pos (by decide)]
    decide
  · have hstill (now : ℤ) (e : Entry ℕ ℕ) (hs : e.sliding = false) :
        PromotedRun.PushesInTime slidingPromotingConfig 90 now e := by
      intro _ hpush
      rw [Entry.touchAccess, if_pos (Or.inl (by simp [hs]))] at hpush
      cases hpush
    refine ⟨⟨by constructor <;> decide, fun _ e he ↦ ?_⟩, ⟨by constructor <;> decide, fun _ e he ↦ ?_⟩,
      trivial⟩
    · have hcopy : ((new slidingPromotingConfig 1).promote slidingPromotingConfig (.instant 0) 1 7
          90).lookupKey slidingPromotingConfig 1 = some promotedEntry := by decide +kernel
      obtain rfl := Option.some.inj (hcopy.symm.trans he)
      exact ⟨hstill 50 _ rfl, fun _ ↦ rfl⟩
    · have hread : (PromotedRun.step slidingPromotingConfig
          ((new slidingPromotingConfig 1).promote slidingPromotingConfig (.instant 0) 1 7 90)
          (.instant 50, .get 1)).lookupKey slidingPromotingConfig 1 =
            some { promotedEntry with lastAccess := 50, hits := 1 } := by decide +kernel
      obtain rfl := Option.some.inj (hread.symm.trans he)
      exact ⟨hstill 90 _ rfl, fun _ ↦ rfl⟩

/-- **A copy outlives its record.** Drawn longer by the jitter, a default TTL of 100 gives the copy of a
record with 100 left the expiry 105; under a sliding one a read at 50 moves the expiry on to 150. In
both cases memory serves the value after the record's last instant. -/
theorem served_after_record_expired :
    (((new promotingConfig 1).promote promotingConfig { Env.instant 0 with draw := 10 } 1 7
          (Cache.storeExpireAt 0 (some (.found 100)))).lookupKey promotingConfig 1).map
        Entry.expireAt = some 105 ∧
      (ReadAct.get 1 : ReadAct ℕ 1).served promotingConfig (.instant 104)
        ((new promotingConfig 1).promote promotingConfig { Env.instant 0 with draw := 10 } 1 7
          (Cache.storeExpireAt 0 (some (.found 100)))) = true ∧
      ((PromotedRun.step slidingPromotingConfig
          ((new slidingPromotingConfig 1).promote slidingPromotingConfig (.instant 0) 1 7
            (Cache.storeExpireAt 0 (some (.found 100)))) (.instant 50, .get 1)).lookupKey
        slidingPromotingConfig 1).map Entry.expireAt = some 150 ∧
      (ReadAct.get 1 : ReadAct ℕ 1).served slidingPromotingConfig (.instant 149)
        (PromotedRun.step slidingPromotingConfig
          ((new slidingPromotingConfig 1).promote slidingPromotingConfig (.instant 0) 1 7
            (Cache.storeExpireAt 0 (some (.found 100)))) (.instant 50, .get 1)) = true := by
  refine ⟨?_, ?_, ?_, ?_⟩ <;> decide +kernel

end Memcache
