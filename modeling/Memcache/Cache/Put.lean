import Memcache.Cache.Fade

/-!
# What a write leaves behind

One lemma for each write path under a shard's lock, against the frame of `Memcache.Cache.Fade`. A
write **puts**: under its key a lookup finds an entry with the data that was written, or nothing, and
**every load and watch of the key is superseded**. Evictions on the way in only take entries away, so
nothing has to be said about them again.

Three paths differ from the rest on purpose. A value that weighs too much is not stored and
supersedes nothing; a tombstone supersedes nothing either, since only a load that was not overtaken
writes one; and a promotion hides the key's watch from the upsert, so the watch stands.
-/

namespace Memcache

namespace Cache

variable {K V : Type*} {n : ℕ} [BEq K] {cfg : Config K V} {env : Env K} {c c' c'' : Cache K V n}
  {i : Fin n} {key : K}

/-! ### Writes of a key -/

/-- `c'` is `c` after a write of the key: whatever is under the key now satisfies `P`, and the loads
and watches of the key are superseded. -/
structure Puts (c c' : Cache K V n) (i : Fin n) (key : K) (P : Entry K V → Prop) : Prop
    extends Frame c c' where
  get : ∀ e, (c'.shards i).get key = some e → P e
  flights : (c'.shards i).flights = (c.shards i).flights.supersedeFlight key

namespace Puts

variable {P Q : Entry K V → Prop}

theorem mono (h : Puts c c' i key P) (hPQ : ∀ e, P e → Q e) : Puts c c' i key Q :=
  { h with get := fun e he ↦ hPQ e (h.get e he) }

/-- What is taken away after a write does not matter. -/
theorem sheds (h : Puts c c' i key P) (h' : Sheds c' c'') : Puts c c'' i key P where
  toFrame := h.toFrame.trans h'.toFrame
  get e he := h.get e (h'.get_of_get he)
  flights := (h'.flights i).trans h.flights

/-- A change of the entry after the marks are set. -/
theorem of_still [PartialEquivBEq K] (h : Still (c.supersedeFlight i key) c')
    (hget : ∀ e, (c'.shards i).get key = some e → P e) : Puts c c' i key P where
  toFrame := (fades_supersedeFlight c key).toFrame.trans h.toFrame
  get := hget
  flights := (h.flights i).trans (by simp [supersedeFlight])

theorem of_sheds [PartialEquivBEq K] (h : Sheds (c.supersedeFlight i key) c')
    (hget : (c'.shards i).get key = none) : Puts c c' i key P :=
  of_still h.toStill fun e he ↦ absurd (hget ▸ he) (by simp)

end Puts

/-- What a write makes of the entry stored before, or of nothing. -/
def Written (old : Option (Entry K V)) (value : V) (weight now expireAt : ℤ) (sliding : Bool)
    (rawTTL : ℤ) (tags : List String) (e : Entry K V) : Prop :=
  ∃ e₀, (old = some e₀ ∨ old = none ∧ e₀.inserted = now) ∧
    e = overwritten e₀ value weight now expireAt sliding rawTTL tags

variable {e : Entry K V}

omit [BEq K] in
theorem Written.value_eq {old : Option (Entry K V)} {value : V} {weight now expireAt : ℤ}
    {sliding : Bool} {rawTTL : ℤ} {tags : List String}
    (h : Written old value weight now expireAt sliding rawTTL tags e) : e.value = value := by
  obtain ⟨e₀, -, rfl⟩ := h
  rfl

omit [BEq K] in
theorem Written.tags_eq {old : Option (Entry K V)} {value : V} {weight now expireAt : ℤ}
    {sliding : Bool} {rawTTL : ℤ} {tags : List String}
    (h : Written old value weight now expireAt sliding rawTTL tags e) : e.tags = tags := by
  obtain ⟨e₀, -, rfl⟩ := h
  rfl

theorem still_modifyTable (c : Cache K V n) (i : Fin n) (f : Table K V → Table K V) :
    Still c (c.modifyTable i f) where
  toFrame := frame_modify i rfl rfl (.refl _)
  flights j := modify_cases j rfl fun _ _ ↦ rfl

theorem Still.of_shards (hs : c'.shards = c.shards) (hc : c'.closed = c.closed)
    (hl : c'.sealed = c.sealed) : Still c c' :=
  ⟨⟨fun j ↦ by rw [hs], fun j ↦ by rw [hs], hc, hl, fun j ↦ hs ▸ .refl _⟩, fun j ↦ by rw [hs]⟩

/-- A watch put back shows in no lookup. -/
theorem restoreWatch_shards (c : Cache K V n) (i : Fin n) (k : K) (w : Option ℕ) (j : Fin n) :
    ((c.restoreWatch i k w).shards j).toTable = (c.shards j).toTable ∧
      ((c.restoreWatch i k w).shards j).pending = (c.shards j).pending := by
  rcases w with - | w
  · exact ⟨rfl, rfl⟩
  · unfold restoreWatch
    exact modify_cases j ⟨rfl, rfl⟩ fun _ _ ↦ ⟨rfl, rfl⟩

/-! ### Touching -/

/-- An entry rewritten in place is what a lookup finds. -/
theorem get_modifyTable_put {e e' : Entry K V} (he : (c.shards i).get key = some e)
    {f : Table K V → Table K V} (hf : ∀ t, (f t).storage = (t.put e').storage) (hid : e'.id = e.id)
    (hkey : e'.key = e.key) : ((c.modifyTable i f).shards i).get key = some e' := by
  rw [modifyTable_toTable]
  show (f _).storage.find? _ = _
  rw [hf]
  exact Table.get_put he hid hkey

variable (cfg) (env)

theorem get_refreshExpiryLocked (he : (c.shards i).get key = some e) (ttl : ℤ) :
    Still c (c.refreshExpiryLocked cfg env i e ttl) ∧
    ((c.refreshExpiryLocked cfg env i e ttl).shards i).get key = some { e with
      expireAt := if 0 < ttl then wrap64 (env.now + cfg.effectiveTTL env ttl) else 0
      lastAccess := env.now } := by
  refine ⟨(still_modifyTable c i _).trans (sheds_startJanitorFor _ _).toStill, ?_⟩
  unfold refreshExpiryLocked
  dsimp only
  rw [toTable_of_core (core_startJanitorFor ..)]
  exact get_modifyTable_put he (fun _ ↦ rfl) rfl rfl

theorem still_touchEntry (c : Cache K V n) (i : Fin n) (e : Entry K V) :
    Still c (c.touchEntry cfg env i e) := by
  unfold touchEntry
  exact still_modifyTable c i _

section

variable {e : Entry K V} (he : (c.shards i).get key = some e)
include he

/-- A hit in the table is what a lookup finds from then on. -/
theorem get_touchEntry :
    Still c (c.touchEntry cfg env i e) ∧
    ((c.touchEntry cfg env i e).shards i).get key =
      some (({ e with hits := e.hits + 1 } : Entry K V).touchAccess env.now).1 := by
  refine ⟨still_touchEntry cfg env c i e, ?_⟩
  unfold touchEntry
  dsimp only
  refine get_modifyTable_put he (fun _ ↦ rfl) ?_ ?_
  · exact (Rewrite.touch e env.now).id_eq
  · exact (Rewrite.touch e env.now).key_eq

theorem get_staleHit :
    Still c (c.staleHit cfg i e) ∧
    ((c.staleHit cfg i e).shards i).get key = some { e with hits := e.hits + 1 } :=
  ⟨still_modifyTable c i _, get_modifyTable_put he (fun _ ↦ rfl) rfl rfl⟩

theorem get_countHit :
    Still c (c.countHit i e) ∧
    ((c.countHit i e).shards i).get key = some { e with hits := e.hits + 1 } :=
  ⟨still_modifyTable c i _, get_modifyTable_put he (fun _ ↦ rfl) rfl rfl⟩

/-! ### Overwriting -/

/-- An overwrite in place. -/
theorem get_overwriteLocked (value : V) (weight expireAt : ℤ) (sliding : Bool) (rawTTL : ℤ)
    (tags : List String) :
    Still c (c.overwriteLocked cfg env i key e value weight expireAt sliding rawTTL tags) ∧
    ((c.overwriteLocked cfg env i key e value weight expireAt sliding rawTTL tags).shards i).get key =
      some (overwritten e value weight env.now expireAt sliding rawTTL tags) := by
  set e' := overwritten e value weight env.now expireAt sliding rawTTL tags with he'
  set c₁ := (c.addCounters 0 (-e.weight + weight)).retagLocked key e.tags tags with hc₁
  set c₂ := (c₁.modifyTable i fun t ↦ rewriteEntry cfg.hash t e').countUpdate with hc₂
  have hold : Still c c₁ := .of_shards rfl rfl rfl
  have hnew : Still c₁ c₂ :=
    (still_modifyTable c₁ i fun t ↦ rewriteEntry cfg.hash t e').trans (.of_shards rfl rfl rfl)
  have hjan : Sheds c₂ (c₂.startJanitorFor cfg i expireAt) := sheds_startJanitorFor c₂ expireAt
  refine ⟨(hold.trans hnew).trans hjan.toStill, ?_⟩
  show Table.get ((c₂.startJanitorFor cfg i expireAt).shards i).toTable key = some e'
  rw [toTable_of_core (core_startJanitorFor ..)]
  show Table.get ((c₁.modifyTable i fun t ↦ rewriteEntry cfg.hash t e').shards i).toTable key = _
  rw [modifyTable_toTable]
  exact Table.get_put he rfl rfl

end

/-! ### Inserting -/

theorem still_storeEntry (c : Cache K V n) (i : Fin n) (e : Entry K V) :
    Still c (c.storeEntry cfg i e) :=
  ((still_modifyTable c i _).trans (sheds_markAmended _).toStill).trans (.of_shards rfl rfl rfl)

/-- A new entry is found under its key. -/
theorem get_storeEntry (habsent : (c.shards i).get e.key = none) :
    Still c (c.storeEntry cfg i e) ∧
    ∀ e', ((c.storeEntry cfg i e).shards i).get e.key = some e' →
      e' = { e with id := c.nextId } := by
  refine ⟨still_storeEntry cfg c i e, fun e' he' ↦ ?_⟩
  rw [toTable_storeEntry] at he'
  by_cases hk : e.key == e.key
  · exact (Option.some.inj ((Table.get_concat (e := { e with id := c.nextId }) habsent hk).symm.trans
      he')).symm
  · -- a key that does not equal itself is not found even now
    exfalso
    have hmem := Table.mem_of_get he'
    rcases List.mem_append.1 hmem with h | h
    · have := List.find?_eq_none.1 (show (c.shards i).storage.find? (fun a ↦ a.key == e.key) = none
        from habsent) e' h
      exact this (Table.key_of_get he')
    · have hkey : (e'.key == e.key) = true := Table.key_of_get he'
      rw [List.mem_singleton.1 h] at hkey
      exact hk hkey

section Write

variable [PartialEquivBEq K]

theorem get_insertLocked (habsent : (c.shards i).get e.key = none) :
    Still c (c.insertLocked cfg env i e) ∧
    ∀ e', ((c.insertLocked cfg env i e).shards i).get e.key = some e' →
      e' = { e with id := c.nextId } := by
  have hcount : Sheds (c.storeEntry cfg i e) (c.storeEntry cfg i e).countInsert :=
    sheds_of_shards rfl rfl rfl
  have hrest : Sheds (c.storeEntry cfg i e) (c.insertLocked cfg env i e) :=
    (hcount.trans (sheds_startJanitorFor _ e.expireAt)).trans (sheds_evictRounds _ rfl 1 _)
  obtain ⟨hstill, hget⟩ := get_storeEntry cfg habsent
  exact ⟨hstill.trans hrest.toStill, fun e' he' ↦ hget e' (hrest.get_of_get he')⟩

/-! ### The upserts -/

/-- An upsert puts its data, unless the cache is sealed. -/
theorem puts_upsertLocked (i : Fin n) (key : K) (hopen : c.sealed = false) (value : V)
    (weight effectiveTTL : ℤ) (sliding : Bool) (rawTTL : ℤ) (tags : List String) :
    Puts c (c.upsertLocked cfg env i key value weight effectiveTTL sliding rawTTL tags) i key
      (Written ((c.shards i).get key) value weight env.now (deadline env effectiveTTL) sliding rawTTL
        tags) := by
  have hget : ((c.supersedeFlight i key).shards i).get key = (c.shards i).get key := by
    simp [supersedeFlight]
  unfold upsertLocked
  dsimp only
  rw [show (c.supersedeFlight i key).sealed = false from hopen, if_neg Bool.false_ne_true]
  rcases hold : ((c.supersedeFlight i key).shards i).get key with - | e₀
  · dsimp only
    rw [hget] at hold
    split_ifs
    · exact .of_sheds (sheds_of_shards rfl rfl rfl) (hget.trans hold)
    · set c₁ := (c.supersedeFlight i key).recordHashCollisionLocked cfg i key with hc₁
      have hhash : Sheds (c.supersedeFlight i key) c₁ := sheds_recordHashCollisionLocked _ key
      have habsent : (c₁.shards i).get key = none := hhash.get_eq_none (hget.trans hold)
      obtain ⟨hstill, hnew⟩ := get_insertLocked cfg env (i := i)
        (e := newEntry key value weight env.now (deadline env effectiveTTL) sliding rawTTL tags) habsent
      refine Puts.sheds (.of_still (hhash.toStill.trans hstill) fun e he ↦ ?_) (sheds_publish _ _)
      exact ⟨e, .inr ⟨hold, by rw [hnew e he]; rfl⟩, by rw [hnew e he]; rfl⟩
  · obtain ⟨hstill, hnew⟩ := get_overwriteLocked cfg env hold value weight (deadline env effectiveTTL)
      sliding rawTTL tags
    refine Puts.sheds (.of_still hstill fun e he ↦ ?_) (sheds_publish _ _)
    exact ⟨e₀, .inl (hget.symm.trans hold), Option.some.inj (he.symm.trans hnew)⟩

theorem puts_upsertWithAbsoluteExpiryLocked (i : Fin n) (key : K) (hopen : c.sealed = false)
    (value : V) (weight expireAt : ℤ) (tags : List String) :
    Puts c (c.upsertWithAbsoluteExpiryLocked cfg env i key value weight expireAt tags) i key
      (Written ((c.shards i).get key) value weight env.now expireAt false 0 tags) := by
  have hget : ((c.supersedeFlight i key).shards i).get key = (c.shards i).get key := by
    simp [supersedeFlight]
  unfold upsertWithAbsoluteExpiryLocked
  dsimp only
  rw [show (c.supersedeFlight i key).sealed = false from hopen, if_neg Bool.false_ne_true]
  rcases hold : ((c.supersedeFlight i key).shards i).get key with - | e₀
  · obtain ⟨hstill, hnew⟩ := get_insertLocked cfg env (i := i)
      (e := newEntry key value weight env.now expireAt false 0 tags) hold
    refine .of_still hstill fun e he ↦ ?_
    exact ⟨e, .inr ⟨hget.symm.trans hold, by rw [hnew e he]; rfl⟩, by rw [hnew e he]; rfl⟩
  · obtain ⟨hstill, hnew⟩ := get_overwriteLocked cfg env hold value weight expireAt false 0 tags
    refine .of_still hstill fun e he ↦ ?_
    exact ⟨e₀, .inl (hget.symm.trans hold), Option.some.inj (he.symm.trans hnew)⟩

theorem puts_upsertOptionsLocked (i : Fin n) (key : K) (hopen : c.sealed = false) (value : V)
    (weight : ℤ) (sc : SetConfig) :
    Puts c (c.upsertOptionsLocked cfg env i key value weight sc) i key
      fun e ↦ e.value = value ∧ e.tags = sc.tags := by
  unfold upsertOptionsLocked
  split_ifs
  · exact (puts_upsertWithAbsoluteExpiryLocked cfg env i key hopen value weight _ _).mono
      fun e he ↦ ⟨he.value_eq, he.tags_eq⟩
  · exact (puts_upsertLocked cfg env i key hopen value weight _ _ _ _).mono
      fun e he ↦ ⟨he.value_eq, he.tags_eq⟩

/-! ### Computed and loaded values -/

/-- What a computed value makes of a live entry: its expiry stays, its last access moves. -/
def replaced (e : Entry K V) (value : V) (weight now : ℤ) : Entry K V :=
  { e with value := value, weight := weight, lastAccess := now, hits := 0 }

theorem get_replaceValueLocked (he : (c.shards i).get key = some e) (value : V) (weight : ℤ) :
    Still (c.supersedeFlight i key) (c.replaceValueLocked cfg env i e value weight) ∧
    ((c.replaceValueLocked cfg env i e value weight).shards i).get key =
      some (replaced e value weight env.now) := by
  have hsup : c.supersedeFlight i e.key = c.supersedeFlight i key :=
    supersedeFlight_congr c i (Table.key_of_get he)
  unfold replaceValueLocked
  dsimp only
  rw [hsup]
  set c₁ := (c.supersedeFlight i key).addCounters 0 (weight - e.weight) with hc₁
  have hold : (c₁.shards i).get key = some e := by
    rw [← he]
    simp [hc₁, addCounters, supersedeFlight]
  set c₂ := c₁.modifyTable i fun t ↦ { t.put (replaced e value weight env.now) with
    policy := t.policy.onUpdate cfg.hash e.id } with hc₂
  have hnew : (c₂.shards i).get key = some (replaced e value weight env.now) :=
    get_modifyTable_put hold (fun _ ↦ rfl) rfl rfl
  have hadd : Still (c.supersedeFlight i key) c₁ := .of_shards rfl rfl rfl
  have hcount : Sheds c₂ c₂.countUpdate := sheds_of_shards rfl rfl rfl
  refine ⟨(hadd.trans (still_modifyTable c₁ i _)).trans
    (hcount.trans (sheds_publish _ _)).toStill, ?_⟩
  rw [toTable_of_core (core_publish ..)]
  exact hnew

omit [PartialEquivBEq K] in
theorem overBudget_replaceValueLocked (c : Cache K V n) (i : Fin n) (e : Entry K V) (value : V)
    (weight : ℤ) :
    (c.replaceValueLocked cfg env i e value weight).overBudget =
      (c.addCounters 0 (weight - e.weight)).overBudget := by
  unfold replaceValueLocked publish
  split_ifs <;> rfl

theorem puts_replaceValueLocked (he : (c.shards i).get key = some e) (value : V) (weight : ℤ) :
    Puts c (c.replaceValueLocked cfg env i e value weight) i key
      fun e' ↦ e' = replaced e value weight env.now := by
  obtain ⟨hstill, hget⟩ := get_replaceValueLocked cfg env he value weight
  exact .of_still hstill fun e' he' ↦ Option.some.inj (he'.symm.trans hget)

/-- A computed value is put, in place or as a new entry. -/
theorem puts_storeComputedLocked (i : Fin n) (key : K) (hopen : c.sealed = false) (value : V)
    (weight : ℤ) :
    Puts c (c.storeComputedLocked cfg env i key value weight) i key fun e ↦ e.value = value := by
  unfold storeComputedLocked
  split
  · next e he =>
    refine (puts_replaceValueLocked cfg env (freshEntryLocked_eq_some c i he).1 value weight).mono ?_
    rintro e' rfl
    rfl
  · exact (puts_upsertLocked cfg env i key hopen value weight _ _ _ _).mono fun e he ↦ he.value_eq

/-- A loaded value within the limits is put. -/
theorem puts_storeLoadedLocked (i : Fin n) (key : K) (hopen : c.sealed = false) {value : V}
    {weight : ℤ} (hw : computeWeight cfg value = .ok weight) (ttl : ℤ) :
    ∃ ttl' tags, Puts c (c.storeLoadedLocked cfg env i key value ttl) i key
      (Written ((c.shards i).get key) value weight env.now (deadline env (cfg.effectiveTTL env ttl'))
        cfg.slidingTTL ttl' tags) := by
  unfold storeLoadedLocked
  rw [hw]
  exact ⟨_, _, puts_upsertLocked cfg env i key hopen value weight _ _ _ _⟩

/-! ### Removals that replace a key's data -/

theorem puts_removeLocked (hk : e.key == key) {reason : EvictionReason}
    (h : supersedesFlight reason) :
    Puts c (c.removeLocked cfg env i e reason) i key fun _ ↦ False := by
  have hsup : c.supersedeFlight i e.key = c.supersedeFlight i key := supersedeFlight_congr c i hk
  have hnone : ((c.removeLocked cfg env i e reason).shards i).get key = none := by
    rw [toTable_removeLocked]
    exact get_dropEntry hk
  refine .of_sheds ?_ hnone
  unfold removeLocked
  rw [if_pos h, hsup]
  exact sheds_dropLocked _ e reason

omit [PartialEquivBEq K] in
/-- What is superseded once is superseded. -/
theorem supersedeFlight_supersedeFlight (c : Cache K V n) (i : Fin n) (key : K) :
    (c.supersedeFlight i key).supersedeFlight i key = c.supersedeFlight i key := by
  simp [supersedeFlight, modify_modify, Flights.supersedeFlight_supersedeFlight]

theorem puts_removeKeyLocked (i : Fin n) (key : K) (reason : EvictionReason) :
    Puts c (c.removeKeyLocked cfg env i key reason) i key fun _ ↦ False := by
  unfold removeKeyLocked
  dsimp only
  split
  · next hnone => exact .of_sheds (.refl _) hnone
  · next e he =>
    have hk : e.key == key := Table.key_of_get he
    have hdrop : Sheds (c.supersedeFlight i key)
        ((c.supersedeFlight i key).removeLocked cfg env i e reason) := by
      unfold removeLocked
      rw [supersedeFlight_congr _ i hk, supersedeFlight_supersedeFlight, ite_self]
      exact sheds_dropLocked _ e reason
    have hnone : (((c.supersedeFlight i key).removeLocked cfg env i e reason).shards i).get key =
        none := by
      rw [toTable_removeLocked]
      exact get_dropEntry hk
    have hput : Puts c ((c.supersedeFlight i key).removeLocked cfg env i e reason) i key
      fun _ ↦ False := .of_sheds hdrop hnone
    split_ifs
    · exact hput
    · exact hput.sheds (sheds_of_shards rfl rfl rfl)

/-! ### Queued writes -/

variable {cfg} {env} {op : PendingOp K V}

theorem get_enqueuePending (c : Cache K V n) (i : Fin n) (hkey : key == key) (hop : op.key = key) :
    ((c.enqueuePending i op).shards i).pending.get key = some op := by
  rw [enqueuePending, modify_shards_self, hop]
  exact KeyMap.get_insert.trans (if_pos hkey)

/-- A cache without the queued write of a key. -/
def unqueue (c : Cache K V n) (i : Fin n) (key : K) : Cache K V n :=
  c.modify i fun s ↦ { s with pending := s.pending.erase key }

omit [PartialEquivBEq K] in
theorem applyPendingKey_eq [NeZero n] (ha : cfg.asyncWrites) (env : Env K)
    (hop : (c.shards (shardFor cfg key)).pending.get key = some op) :
    c.applyPendingKey cfg env key =
      ((c.unqueue (shardFor cfg key) key).applyPendingOpLocked cfg env (shardFor cfg key) op).unlockAfter
        cfg env (shardFor cfg key) (if op.kind = .set then op.tags else []) := by
  unfold applyPendingKey
  rw [if_pos ha]
  dsimp only
  unfold applyPendingKeyLocked
  rw [hop]
  rfl

/-- A queued write with a relative expiry is put when it is applied. -/
theorem applyPendingKey_puts [NeZero n] (ha : cfg.asyncWrites) (hopen : c.sealed = false)
    (env : Env K) (hop : (c.shards (shardFor cfg key)).pending.get key = some op)
    (hkind : op.kind = .set) (hexpire : op.expireAt = 0) (hkey : op.key = key) :
    ∃ d, Puts (c.unqueue (shardFor cfg key) key) d (shardFor cfg key) key
        (Written ((c.shards (shardFor cfg key)).get key) op.value op.weight env.now
          (deadline env op.effectiveTTL) op.sliding op.rawTTL op.tags) ∧
      Fades d (c.applyPendingKey cfg env key) := by
  rw [applyPendingKey_eq ha env hop]
  refine ⟨_, ?_, fades_unlockAfter _ _⟩
  rw [applyPendingOpLocked, hkind, hexpire, hkey]
  dsimp only
  rw [if_neg (lt_irrefl _)]
  have hput := puts_upsertLocked cfg env (c := c.unqueue (shardFor cfg key) key) (shardFor cfg key) key
    hopen op.value op.weight op.effectiveTTL op.sliding op.rawTTL op.tags
  have hsame : ((c.unqueue (shardFor cfg key) key).shards (shardFor cfg key)).get key =
      (c.shards (shardFor cfg key)).get key := by
    rw [unqueue, modify_shards_self]
  rwa [hsame] at hput

/-! ### Compute -/

omit [PartialEquivBEq K] in
/-- `Compute` on a key with no queued write. -/
theorem compute_eq [NeZero n] (hopen : c.closed = false) (env : Env K)
    (hqueue : (c.shards (shardFor cfg key)).pending.get key = none)
    (fn : Option V → ComputeResult V) :
    c.compute cfg env key fn =
      ((computeLocked cfg env key fn c (shardFor cfg key)).releaseShard
        (shardFor cfg key)).shedOverBudget cfg env .capacity (some (shardFor cfg key)) := by
  unfold compute keyed
  rw [hopen, if_neg Bool.false_ne_true]
  dsimp only
  rw [show c.applyPendingKeyLocked cfg env (shardFor cfg key) key = (c, []) by
    rw [applyPendingKeyLocked, hqueue]]
  rfl

/-! ### Set -/

/-- A synchronous write with a TTL is refused and takes nothing but what is over the bounds, or puts
its entry, after which group budgets may take entries away. -/
theorem setTTL_cases [NeZero n] (ha : cfg.asyncWrites = false) (hopen : c.sealed = false)
    (env : Env K) (key : K) (value : V) (ttl : ℤ) :
    (∃ d weight, c.setTTL cfg env key value ttl = (.ok (), d.enforceGroupBudgets cfg env
          (cfg.autoTags value)) ∧
        Puts c d (shardFor cfg key) key (Written ((c.shards (shardFor cfg key)).get key) value weight
          env.now (deadline env (cfg.effectiveTTL env ttl)) cfg.slidingTTL ttl (cfg.autoTags value))) ∨
      ∃ err, (c.setTTL cfg env key value ttl).1 = .error err ∧
        Sheds c (c.setTTL cfg env key value ttl).2 := by
  unfold setTTL
  dsimp only
  rw [ha, if_neg Bool.false_ne_true]
  split
  · next err _ => exact .inr ⟨err, rfl, sheds_shedOverBudget c rfl _⟩
  · next weight _ =>
    exact .inl ⟨_, weight, rfl, (puts_upsertLocked cfg env _ key hopen value weight _ _ _ _).sheds
      (sheds_flushAndUnlock _)⟩

end Write

end Cache

end Memcache
