import Memcache.Cache.Lookup
import Memcache.Cache.Timely

/-!
# What a read or a sweep may remove

Reads and the janitor take entries away for one reason only, which is that they have expired; but
they do not agree on when that is. In a cache within its bounds, **an entry that a read or a sweep
does not hold for expired is still stored afterwards**, with at most another hit count, last access
and expiry (`Tends`). The entries that may go are named:

* `Get` removes the entry of its key when it has expired and may not be served stale;
* `GetWithExpiry` removes the entry of its key when it has expired, stale or not;
* `GetOrLoad` removes nothing, and `Peek` and `Has` change nothing at all;
* a sweep removes whatever of its shard has expired, stale or not.
-/

namespace Memcache

variable {K V : Type*} {n : ℕ}

namespace Cache

variable [BEq K]

/-! ### Reads that change nothing -/

/-- `Peek`. -/
def peek [NeZero n] (cfg : Config K V) (env : Env K) (c : Cache K V n) (key : K) :
    Option V × Cache K V n :=
  (if c.closed then none
    else
      match asyncReadHit (c.shards (shardFor cfg key)) key env.now with
      | some r => r.value
      | none =>
        match c.lookupKey cfg key with
        | none => none
        | some e => if entryExpiredLocked cfg e env.now || e.negative then none else some e.value, c)

/-- `Has`, of a cache without a Store. -/
def has [NeZero n] (cfg : Config K V) (env : Env K) (c : Cache K V n) (key : K) : Bool × Cache K V n :=
  ((c.peek cfg env key).1.isSome, c)

/-! ### Sections that remove nothing -/

/-- The tables stay as they are, unless the cache has to shed. -/
structure Calm (c c' : Cache K V n) : Prop where
  pending : ∀ j, (c'.shards j).pending = (c.shards j).pending
  closed : c'.closed = c.closed
  get : ∀ j key, (c'.shards j).get key = (c.shards j).get key ∨ (c'.shards j).get key = none
  storage : c.overBudget = false → ∀ j, (c'.shards j).storage = (c.shards j).storage
  within : c.overBudget = false → c'.overBudget = false

variable {cfg : Config K V} {env : Env K} {c c' c'' : Cache K V n} {i : Fin n} {key : K}

namespace Calm

theorem refl (c : Cache K V n) : Calm c c :=
  ⟨fun _ ↦ rfl, rfl, fun _ _ ↦ .inl rfl, fun _ _ ↦ rfl, fun h ↦ h⟩

theorem get_of_get (h : Calm c c') {j : Fin n} {key : K} {e : Entry K V}
    (he : (c'.shards j).get key = some e) : (c.shards j).get key = some e := by
  rcases h.get j key with h' | h'
  · exact h'.symm.trans he
  · cases h'.symm.trans he

theorem trans (h : Calm c c') (h' : Calm c' c'') : Calm c c'' where
  pending j := (h'.pending j).trans (h.pending j)
  closed := h'.closed.trans h.closed
  get j key := by
    rcases h'.get j key with h₁ | h₁
    · rw [h₁]
      exact h.get j key
    · exact .inr h₁
  storage hw j := (h'.storage (h.within hw) j).trans (h.storage hw j)
  within hw := h'.within (h.within hw)

/-- A change of a shard outside its entries and its queue. -/
theorem modify (c : Cache K V n) (i : Fin n) {f : Shard K V → Shard K V}
    (h : ∀ s, (f s).storage = s.storage ∧ (f s).pending = s.pending) : Calm c (c.modify i f) := by
  have hstorage (j : Fin n) : ((c.modify i f).shards j).storage = (c.shards j).storage :=
    modify_cases j (h _).1 fun _ _ ↦ rfl
  refine ⟨fun j ↦ ?_, rfl, fun j key ↦ .inl ?_, fun _ j ↦ ?_, fun hw ↦ hw⟩
  · exact modify_cases j (h _).2 fun _ _ ↦ rfl
  · rw [Table.get, hstorage]
    rfl
  · rw [hstorage]

/-- What sheds nothing unless it has to. -/
theorem of_sheds (h : Sheds c c') (hsame : c.overBudget = false → c' = c) : Calm c c' where
  pending := h.pending
  closed := h.closed
  get := h.get
  storage hw j := by rw [hsame hw]
  within hw := by rw [hsame hw, hw]

theorem releaseShard (c : Cache K V n) (i : Fin n) : Calm c (c.releaseShard i) :=
  have h : Calm c (c.modify i fun s ↦ { s with pendingCallbacks := [] }) :=
    .modify c i fun _ ↦ ⟨rfl, rfl⟩
  ⟨h.pending, rfl, h.get, h.storage, fun hw ↦ hw⟩

end Calm

theorem calm_countReadMiss (c : Cache K V n) (i : Fin n) : Calm c (c.modify i countReadMiss) := by
  refine .modify c i fun s ↦ ⟨by rw [toTable_countReadMiss], ?_⟩
  unfold countReadMiss promoteReadMapLocked
  split_ifs
  · split
    · rfl
    · split_ifs <;> rfl
  · rfl

variable [PartialEquivBEq K]

theorem calm_shedOverBudget [NeZero n] (c : Cache K V n) (reason : EvictionReason)
    (hreason : supersedesFlight reason = false) (last : Option (Fin n)) :
    Calm c (c.shedOverBudget cfg env reason last) :=
  .of_sheds (sheds_shedOverBudget c hreason last) fun hw ↦ shedOverBudget_of_within hw reason last

theorem calm_flushAndUnlock [NeZero n] (c : Cache K V n) (i : Fin n) :
    Calm c (c.flushAndUnlock cfg env i) :=
  (Calm.releaseShard c i).trans (calm_shedOverBudget _ .capacity rfl _)

/-! ### Sections that remove what has expired -/

/-- The entries that are not `doomed` are still stored as they were, unless the cache has to shed. -/
structure Spares (doomed : Fin n → Entry K V → Prop) (c c' : Cache K V n) : Prop where
  pending : ∀ j, (c'.shards j).pending = (c.shards j).pending
  closed : c'.closed = c.closed
  found : ∀ {j key e}, (c'.shards j).get key = some e → (c.shards j).get key = some e
  kept : c.overBudget = false → ∀ {j e}, e ∈ (c.shards j).storage → ¬ doomed j e →
    e ∈ (c'.shards j).storage
  within : c.overBudget = false → c'.overBudget = false

section

variable {doomed : Fin n → Entry K V → Prop}

omit [PartialEquivBEq K] in
theorem Spares.of_calm (h : Calm c c') : Spares doomed c c' where
  pending := h.pending
  closed := h.closed
  found := h.get_of_get
  kept hw j _ he _ := (h.storage hw j).symm ▸ he
  within := h.within

omit [PartialEquivBEq K] in
theorem Spares.trans (h : Spares doomed c c') (h' : Spares doomed c' c'') :
    Spares doomed c c'' where
  pending j := (h'.pending j).trans (h.pending j)
  closed := h'.closed.trans h.closed
  found he := h.found (h'.found he)
  kept hw _ _ he hd := h'.kept (h.within hw) (h.kept hw he hd) hd
  within hw := h'.within (h.within hw)

omit [PartialEquivBEq K] in
theorem Spares.countExpiration (h : Spares doomed c c') : Spares doomed c c'.countExpiration :=
  ⟨h.pending, h.closed, h.found, h.kept, h.within⟩

/-- A doomed entry goes. -/
theorem spares_removeLocked {e : Entry K V} {nextId : ℕ} (ht : TableOk (c.shards i).toTable nextId)
    (hmem : e ∈ (c.shards i).storage) (hd : doomed i e) (reason : EvictionReason) :
    Spares doomed c (c.removeLocked cfg env i e reason) where
  pending := (fades_removeLocked c e reason).pending
  closed := (fades_removeLocked c e reason).closed
  found := (fades_removeLocked c e reason).get_of_get
  kept hw j a ha had := by
    obtain ⟨s, hcore, hs, -⟩ := core_removeLocked cfg env c i e reason
    show a ∈ ((c.removeLocked cfg env i e reason).core.shards j).storage
    rw [hcore, Core.add_shards]
    rcases eq_or_ne j i with rfl | hj
    · rw [Core.set_shards_self, hs]
      refine List.mem_filter.2 ⟨ha, ?_⟩
      by_contra hk
      exact had (ht.eq_of_key ha hmem (by simpa using hk) ▸ hd)
    · rw [Core.set_shards_of_ne _ _ hj]
      exact ha
  within hw := by
    obtain ⟨s, hcore, -, -⟩ := core_removeLocked cfg env c i e reason
    have hone := (ht.weight e hmem).1
    have hentries : (c.removeLocked cfg env i e reason).entries = c.entries + -1 :=
      congrArg Core.entries hcore
    have hbytes : (c.removeLocked cfg env i e reason).bytes = c.bytes + -e.weight :=
      congrArg Core.bytes hcore
    have hmaxEntries : (c.removeLocked cfg env i e reason).maxEntries = c.maxEntries :=
      congrArg Core.maxEntries hcore
    have hmaxBytes : (c.removeLocked cfg env i e reason).maxBytes = c.maxBytes :=
      congrArg Core.maxBytes hcore
    have hw := of_decide_eq_false hw
    refine decide_eq_false ?_
    show ¬ (0 < (c.removeLocked cfg env i e reason).maxEntries ∧
        ((c.removeLocked cfg env i e reason).maxEntries : ℤ) < (c.removeLocked cfg env i e reason).entries ∨
      0 < (c.removeLocked cfg env i e reason).maxBytes ∧
        ((c.removeLocked cfg env i e reason).maxBytes : ℤ) < (c.removeLocked cfg env i e reason).bytes)
    rw [hentries, hbytes, hmaxEntries, hmaxBytes]
    omega

end

/-- The entries that are not `doomed` are still stored, perhaps touched, unless the cache has to
shed. -/
structure Tends (doomed : Fin n → Entry K V → Prop) (now : ℤ) (c c' : Cache K V n) : Prop where
  pending : ∀ j, (c'.shards j).pending = (c.shards j).pending
  closed : c'.closed = c.closed
  found : ∀ {j key e'}, (c'.shards j).get key = some e' →
    ∃ e, (c.shards j).get key = some e ∧ e.Touched now e'
  kept : c.overBudget = false → ∀ {j e}, e ∈ (c.shards j).storage → ¬ doomed j e →
    ∃ e' ∈ (c'.shards j).storage, e.Touched now e'
  within : c.overBudget = false → c'.overBudget = false

/-- After an entry was put in its place anew, a lookup finds that entry, or what it found before. -/
theorem get_of_get_put {e b a : Entry K V} {f : Table K V → Table K V} {nextId : ℕ} {j : Fin n}
    (hok : TableOk (c.shards i).toTable nextId) (hmem : e ∈ (c.shards i).storage)
    (hkey : b.key = e.key) (hf : ∀ t, (f t).storage = (t.put b).storage)
    (ha : ((c.modifyTable i f).shards j).get key = some a) :
    j = i ∧ a = b ∧ (c.shards j).get key = some e ∨ (c.shards j).get key = some a := by
  rcases eq_or_ne j i with rfl | hj
  · rw [modifyTable_toTable] at ha
    have hmema := Table.mem_of_get ha
    have hkeya := Table.key_of_get ha
    rw [hf] at hmema
    rcases NodeList.mem_replace hmema with rfl | ⟨hold, -⟩
    · exact .inl ⟨rfl, rfl, hok.get_eq hmem (hkey ▸ hkeya)⟩
    · exact .inr (hok.get_eq hold hkeya)
  · rw [modifyTable, modify_shards_of_ne _ _ hj] at ha
    exact .inr ha

namespace Tends

variable {doomed : Fin n → Entry K V → Prop} {now : ℤ} {e : Entry K V}

omit [PartialEquivBEq K] in
theorem of_calm (h : Calm c c') : Tends doomed now c c' where
  pending := h.pending
  closed := h.closed
  found he := ⟨_, h.get_of_get he, .same⟩
  kept hw j e he _ := ⟨e, (h.storage hw j).symm ▸ he, .same⟩
  within := h.within

omit [PartialEquivBEq K] in
theorem calm (h : Tends doomed now c c') (h' : Calm c' c'') : Tends doomed now c c'' where
  pending j := (h'.pending j).trans (h.pending j)
  closed := h'.closed.trans h.closed
  found he := h.found (h'.get_of_get he)
  kept hw j e he hd := by
    obtain ⟨e', he', ht⟩ := h.kept hw he hd
    exact ⟨e', (h'.storage (h.within hw) j).symm ▸ he', ht⟩
  within hw := h'.within (h.within hw)

omit [PartialEquivBEq K] in
theorem calm_left (h : Calm c c') (h' : Tends doomed now c' c'') : Tends doomed now c c'' where
  pending j := (h'.pending j).trans (h.pending j)
  closed := h'.closed.trans h.closed
  found he := by
    obtain ⟨e, he, ht⟩ := h'.found he
    exact ⟨e, h.get_of_get he, ht⟩
  kept hw j _ he hd := h'.kept (h.within hw) ((h.storage hw j).symm ▸ he) hd
  within hw := h'.within (h.within hw)

/-- An entry is rewritten as a read does. -/
theorem put {b : Entry K V} {f : Table K V → Table K V} {nextId : ℕ}
    (hok : TableOk (c.shards i).toTable nextId) (hmem : e ∈ (c.shards i).storage) (hid : b.id = e.id) (ht : e.Touched now b)
    (hf : ∀ t, (f t).storage = (t.put b).storage) : Tends doomed now c (c.modifyTable i f) where
  pending j := modify_cases j rfl fun _ _ ↦ rfl
  closed := rfl
  found := by
    intro j key a ha
    rcases get_of_get_put hok hmem ht.key_eq hf ha with ⟨-, rfl, he⟩ | ha
    · exact ⟨e, he, ht⟩
    · exact ⟨a, ha, .same⟩
  kept hw j a ha hd := by
    rcases eq_or_ne j i with rfl | hj
    · rw [modifyTable_toTable, hf]
      rcases eq_or_ne a.id b.id with heq | hne
      · obtain rfl := hok.distinct.eq_of_ident ha hmem (heq.trans hid)
        exact ⟨b, NodeList.mem_replace_self ha heq, ht⟩
      · exact ⟨a, NodeList.mem_replace_of_ne ha hne, .same⟩
    · rw [modifyTable, modify_shards_of_ne _ _ hj]
      exact ⟨a, ha, .same⟩
  within hw := hw

omit [PartialEquivBEq K] in
theorem of_spares (h : Spares doomed c c') : Tends doomed now c c' where
  pending := h.pending
  closed := h.closed
  found he := ⟨_, h.found he, .same⟩
  kept hw _ e he hd := ⟨e, h.kept hw he hd, .same⟩
  within := h.within

end Tends

/-! ### The reads -/

section

variable (c : Cache K V n) (i : Fin n) (key : K)

omit [PartialEquivBEq K] in
theorem calm_startRefreshLocked : Calm c (c.startRefreshLocked i key) := by
  unfold startRefreshLocked
  split_ifs
  · exact .refl c
  · exact .modify c i fun _ ↦ ⟨rfl, rfl⟩

omit [PartialEquivBEq K] in
theorem calm_triggerAsyncRefreshLocked : Calm c (c.triggerAsyncRefreshLocked cfg i key) := by
  unfold triggerAsyncRefreshLocked
  split_ifs
  · exact calm_startRefreshLocked c i key
  · exact .refl c

omit [PartialEquivBEq K] in
theorem calm_recordReadMiss : Calm c (c.recordReadMiss i key) := by
  unfold recordReadMiss
  split_ifs
  · exact .refl c
  · exact calm_countReadMiss c i

omit [PartialEquivBEq K] in
theorem calm_maybePromoteOnSlowHit : Calm c (c.maybePromoteOnSlowHit cfg i key) := by
  unfold maybePromoteOnSlowHit
  split_ifs
  · exact .refl c
  · exact calm_countReadMiss c i

end

variable {doomed : Fin n → Entry K V → Prop} {e : Entry K V} [NeZero n]

section Put

variable {nextId : ℕ} (ht : TableOk (c.shards i).toTable nextId) (he : (c.shards i).get key = some e)

include ht he

omit [NeZero n]

theorem tends_countHit (now : ℤ) : Tends doomed now c (c.countHit i e) :=
  .put (b := { e with hits := e.hits + 1 }) ht (Table.mem_of_get he) rfl .hit fun _ ↦ rfl

theorem tends_staleHit (now : ℤ) : Tends doomed now c (c.staleHit cfg i e) :=
  .put (b := { e with hits := e.hits + 1 }) ht (Table.mem_of_get he) rfl .hit fun _ ↦ rfl

theorem tends_touchEntry : Tends doomed env.now c (c.touchEntry cfg env i e) := by
  unfold touchEntry
  exact .put ht (Table.mem_of_get he) (Rewrite.touch e env.now).id_eq .touch fun _ ↦ rfl

end Put

/-- **A `Get` removes the expired entry of its key, if it may not be served stale.** -/
theorem tends_getLocked (hinv : c.core.Inv)
    (hdoom : ∀ e, (c.shards i).get key = some e → entryExpiredLocked cfg e env.now = true →
      (!e.negative && shouldServeStale cfg e env.now) = false → doomed i e) :
    Tends doomed env.now c (c.getLocked cfg env i key).2 := by
  unfold getLocked
  split
  · exact .of_calm (calm_flushAndUnlock c i)
  · next e he =>
    have ht := hinv.table i
    split_ifs with hserve hfree hexp hstale hneg
    · exact (tends_countHit ht he _).calm (calm_recordReadMiss _ i key)
    · exact tends_countHit ht he _
    · have hcalm : Calm c (c.triggerAsyncRefreshLocked cfg i key) :=
        calm_triggerAsyncRefreshLocked c i key
      have htable : ((c.triggerAsyncRefreshLocked cfg i key).shards i).toTable =
          (c.shards i).toTable := toTable_triggerAsyncRefreshLocked c i key
      have ht' : TableOk ((c.triggerAsyncRefreshLocked cfg i key).shards i).toTable c.core.nextId :=
        htable ▸ ht
      have he' : ((c.triggerAsyncRefreshLocked cfg i key).shards i).get key = some e :=
        htable ▸ he
      exact (Tends.calm_left hcalm (tends_staleHit ht' he' _)).calm (calm_flushAndUnlock _ i)
    · exact (Tends.of_spares (spares_removeLocked ht (Table.mem_of_get he)
        (hdoom e he hexp (by simpa using hstale)) _).countExpiration).calm (calm_flushAndUnlock _ i)
    · exact .of_calm (calm_flushAndUnlock c i)
    · have hlate (late : Bool) : Calm (c.touchEntry cfg env i e) (if late then
          (c.touchEntry cfg env i e).triggerAsyncRefreshLocked cfg i key
        else c.touchEntry cfg env i e) := by
        split_ifs
        · exact calm_triggerAsyncRefreshLocked _ i key
        · exact .refl _
      exact ((tends_touchEntry ht he).calm ((hlate _).trans (calm_maybePromoteOnSlowHit _ i key))).calm
        (calm_flushAndUnlock _ i)

theorem tends_get (hinv : c.core.Inv) (hread : c.core.ReadInv cfg) (env : Env K) (key : K)
    (hdoom : ∀ e, c.lookupKey cfg key = some e → entryExpiredLocked cfg e env.now = true →
      (!e.negative && shouldServeStale cfg e env.now) = false → doomed (shardFor cfg key) e) :
    Tends doomed env.now c (c.get cfg env key).2 := by
  unfold get
  dsimp only
  split_ifs
  · exact .of_calm (.refl c)
  · split
    · exact .of_calm (.refl c)
    · split
      · next e hfast =>
        exact tends_countHit (hinv.table _) (get_of_tryLockFreeGet_hit (hread _) (hinv.table _) hfast) _
      · exact .of_calm (.refl c)
      · exact tends_getLocked hinv hdoom

omit [NeZero n] in
theorem tends_serveLoadHitLocked (hinv : c.core.Inv) {value : V}
    (h : c.serveLoadHitLocked cfg env i key = some (value, c')) : Tends doomed env.now c c' := by
  unfold serveLoadHitLocked at h
  split at h
  · cases h
  · next e he =>
    have hstart := calm_startRefreshLocked c i key
    have htable := toTable_startRefreshLocked c i key
    have hok : TableOk ((c.startRefreshLocked i key).shards i).toTable c.core.nextId := by
      rw [htable]
      exact hinv.table i
    have he' : ((c.startRefreshLocked i key).shards i).get key = some e := by
      rw [htable]
      exact he
    split_ifs at h
    · obtain rfl := (Prod.mk.inj (Option.some.inj h)).2
      split_ifs
      · exact .calm_left hstart (tends_touchEntry hok he')
      · exact tends_touchEntry (hinv.table i) he
    · obtain rfl := (Prod.mk.inj (Option.some.inj h)).2
      exact .calm_left hstart (tends_staleHit hok he' _)

omit [PartialEquivBEq K] [NeZero n] in
theorem calm_joinOrStart (c : Cache K V n) (i : Fin n) (key : K) (allow : Bool) :
    Calm c (c.joinOrStart i key allow).2 := by
  have hflights (f : Flights K → Flights K) :
      Calm c (c.modify i fun s ↦ { s with flights := f s.flights }) :=
    .modify c i fun _ ↦ ⟨rfl, rfl⟩
  unfold joinOrStart
  split
  · next id _ => exact hflights (·.join id)
  · split_ifs
    · exact hflights (·.startFlight key)
    · exact .refl c

omit [NeZero n] in
theorem tends_loadOrJoinLocked (hinv : c.core.Inv) (allow : Bool) :
    Tends doomed env.now c (c.loadOrJoinLocked cfg env i key allow).2 := by
  unfold loadOrJoinLocked
  split
  · next h => exact tends_serveLoadHitLocked hinv h
  · split_ifs
    · exact .of_calm (.refl c)
    · split
      · exact .of_calm (.refl c)
      · have hdrop : Calm c (c.dropCachedError cfg i key) := by
          unfold dropCachedError
          split_ifs
          · exact .modify c i fun _ ↦ ⟨rfl, rfl⟩
          · exact .refl c
        exact .of_calm (hdrop.trans (calm_joinOrStart _ i key allow))

/-- A section that finds no queued write of its key to apply. -/
theorem calm_applyPendingKey (env : Env K) (hinv : c.core.Inv)
    (hqueue : (c.shards (shardFor cfg key)).pending.get key = none) :
    Calm c (c.applyPendingKey cfg env key) ∧ (c.applyPendingKey cfg env key).core.Inv := by
  unfold applyPendingKey applyPendingKeyLocked
  split_ifs
  · dsimp only
    rw [hqueue]
    refine ⟨(Calm.releaseShard c _).trans (calm_shedOverBudget _ .capacity rfl _), ?_⟩
    exact inv_of_steps (T := .all) (Steps.trans (.of_eq (core_releaseShard ..))
      (steps_shedOverBudget ..)) hinv
  · exact ⟨.refl c, hinv⟩

/-- **`GetWithExpiry` removes the expired entry of its key.** -/
theorem tends_getWithExpiry (hinv : c.core.Inv) (env : Env K) (key : K)
    (hqueue : (c.shards (shardFor cfg key)).pending.get key = none)
    (hdoom : ∀ e, c.lookupKey cfg key = some e → entryExpiredLocked cfg e env.now = true →
      doomed (shardFor cfg key) e) :
    Tends doomed env.now c (c.getWithExpiry cfg env key) := by
  unfold getWithExpiry onKey
  split_ifs
  · exact .of_calm (.refl c)
  · obtain ⟨hcalm, hinv'⟩ := calm_applyPendingKey env hinv hqueue
    refine (Tends.calm_left hcalm ?_).calm (calm_flushAndUnlock _ _)
    dsimp only
    split
    · exact .of_calm (.refl _)
    · next e he =>
      have ht := hinv'.table (shardFor cfg key)
      split_ifs with hexp hneg
      · exact .of_spares (spares_removeLocked ht (Table.mem_of_get he)
          (hdoom e (hcalm.get_of_get he) hexp) _).countExpiration
      · exact .of_calm (.refl _)
      · exact tends_touchEntry ht he

/-- **`GetOrLoad` removes nothing.** -/
theorem tends_getOrLoad (hinv : c.core.Inv) (env : Env K) (key : K) (allow : Bool)
    (hqueue : (c.shards (shardFor cfg key)).pending.get key = none) :
    Tends doomed env.now c (c.getOrLoad cfg env key allow) := by
  unfold getOrLoad loadOrJoin
  split_ifs
  · exact .of_calm (.refl c)
  · obtain ⟨hcalm, hinv'⟩ := calm_applyPendingKey env hinv hqueue
    refine (Tends.calm_left hcalm ?_).calm (calm_flushAndUnlock _ _)
    exact tends_loadOrJoinLocked hinv' allow

/-! ### The janitor -/

omit [NeZero n] in
/-- The entries a sweep was told of go, one after another. -/
theorem spares_removeExpired (hinv : c.core.Inv) {ids : List ℕ}
    (hdoom : ∀ e ∈ (c.shards i).storage, e.id ∈ ids → doomed i e) :
    Spares doomed c (removeExpired cfg env i ids c) := by
  induction ids generalizing c with
  | nil => exact .of_calm (.refl c)
  | cons id ids ih =>
    unfold removeExpired
    split
    · exact ih hinv fun e he hid ↦ hdoom e he (List.mem_cons_of_mem _ hid)
    · next e he =>
      have hmem : e ∈ (c.shards i).storage := Table.mem_of_byId he
      have hid : e.id = id := Table.id_of_byId he
      refine (spares_removeLocked (hinv.table i) hmem (hdoom e hmem (hid ▸ List.mem_cons_self ..))
        .expired).countExpiration.trans (ih ?_ fun a ha hida ↦ ?_)
      · exact inv_of_steps (T := .all) (c := c) ((steps_removeLocked c i hmem .expired).frame rfl) hinv
      · have ha : a ∈ ((c.removeLocked cfg env i e .expired).shards i).storage := ha
        rw [toTable_removeLocked] at ha
        exact hdoom a (List.mem_filter.1 ha).1 (List.mem_cons_of_mem _ hida)

/-- **A sweep removes what has expired in its shard.** -/
theorem tends_sweep (hinv : c.core.Inv) (htimely : c.core.Timely) (env : Env K) (i : Fin n)
    (hdoom : ∀ e ∈ (c.shards i).storage, e.expireAt ≤ env.now → doomed i e) :
    Tends doomed env.now c (c.sweep cfg env i) := by
  have hswept : Calm c (c.modifyTable i fun t ↦ { t with ttl := (t.ttl.sweep env.now).2 }) :=
    .modify c i fun _ ↦ ⟨rfl, rfl⟩
  have hsteps : Steps cfg .all c (c.modifyTable i fun t ↦ { t with ttl := (t.ttl.sweep env.now).2 }) :=
    .of_step (.ttl c.core i env.now trivial) (c.core_modifyTable i _)
  refine (Tends.of_spares ((Spares.of_calm hswept).trans (spares_removeExpired (inv_of_steps hsteps hinv)
    fun e he hid ↦ ?_))).calm (calm_flushAndUnlock _ i)
  rw [modifyTable_toTable] at he
  exact hdoom e he ((htimely i).expired_of_mem_sweep (hinv.table i).ttl he hid)

end Cache

end Memcache
