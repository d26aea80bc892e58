import Memcache.Cache.Alike
import Memcache.Cache.OpSteps
import Memcache.Cache.Put

/-!
# Queued writes with options

Under asynchronous writes `SetWithOptions` does not store an entry but a record of one, which the
drain turns into an entry later. The record is made in two ways. With an absolute expiry it holds the
resolved weight, and an expiry for which zero and less stand for none; the drain then takes the TTL
path, sliding flag included. Without one the record is made by the function behind `Set`, which
weighs the value again.

So a queued write leaves what the same call leaves at once **exactly when the expiry is after the Unix
epoch, or is none and the entry does not slide, or when an explicit weight is the value's own**.
-/

namespace Memcache

variable {K V : Type*} {n : ℕ}

/-- What a write decides about an entry. -/
structure EntryData (V : Type*) where
  value : V
  weight : ℤ
  expireAt : ℤ
  sliding : Bool
  slidingTTL : ℤ
  tags : List String
deriving DecidableEq, Repr

def Entry.data (e : Entry K V) : EntryData V :=
  ⟨e.value, e.weight, e.expireAt, e.sliding, e.slidingTTL, e.tags⟩

/-- The options that survive the record of a queued write. -/
def SetConfig.Survives (cfg : Config K V) (value : V) (sc : SetConfig) : Prop :=
  if sc.hasExpiry then
    0 < expireNanos sc.expireAt ∨ expireNanos sc.expireAt = 0 ∧ sc.sliding = false
  else sc.hasWeight → clampWeight sc.weight = cfg.weighOf value

namespace Cache

variable [BEq K] [NeZero n] {cfg : Config K V} {env : Env K} {c : Cache K V n} {key : K} {value : V}

/-- `SetWithOptions` without asynchronous writes. -/
def setNow (cfg : Config K V) (env : Env K) (c : Cache K V n) (key : K) (value : V)
    (opts : List SetOption) : Except CacheError Unit × Cache K V n :=
  c.setWithOptions (cfg.withAsync false) env key value opts true

/-- `SetWithOptions` with asynchronous writes, and the drain of the key's shard. -/
def setAndDrain (cfg : Config K V) (env : Env K) (c : Cache K V n) (key : K) (value : V)
    (opts : List SetOption) : Except CacheError Unit × Cache K V n :=
  let r := c.setWithOptions (cfg.withAsync true) env key value opts true
  (r.1, r.2.drainShard (cfg.withAsync true) env (shardFor cfg key))

/-- The queued write was accepted and leaves the same data under the key. -/
def LeavesSame (cfg : Config K V) (env : Env K) (c : Cache K V n) (key : K) (value : V)
    (opts : List SetOption) : Prop :=
  (c.setAndDrain cfg env key value opts).1 = .ok () ∧
    ((c.setAndDrain cfg env key value opts).2.lookupKey cfg key).map Entry.data =
      ((c.setNow cfg env key value opts).2.lookupKey cfg key).map Entry.data

/-! ### The drain of one record -/

/-- A shard whose queue holds one write. -/
theorem drainShard_enqueuePending (cfg : Config K V) (env : Env K) {i : Fin n}
    (hqueue : (c.shards i).pending = .empty) {op : PendingOp K V} (hop : op.kind = .set) :
    (c.enqueuePending i op).drainShard cfg env i =
      ((c.applyPendingOpLocked cfg env i op).flushAndUnlock cfg env i).enforceGroupBudgets cfg env
        op.tags := by
  have hvalues : ((c.enqueuePending i op).shards i).pending.values = [op] := by
    rw [enqueuePending, modify_shards_self, hqueue]
    rfl
  have hback : ((c.enqueuePending i op).modify i fun s ↦ { s with pending := .empty }) = c := by
    have hshard : ({ c.shards i with pending := .empty } : Shard K V) = c.shards i := by
      rw [← hqueue]
    simp [enqueuePending, modify, hshard]
  unfold drainShard
  rw [hvalues, hback]
  simp [hop]

/-! ### The two calls, accepted -/

variable {weight : ℤ} {opts : List SetOption}

theorem setNow_eq (hw : c.checkOptions cfg key value (resolveOptions cfg value opts) = .ok weight) :
    c.setNow cfg env key value opts =
      (.ok (), ((c.upsertOptionsLocked (cfg.withAsync false) env (shardFor cfg key) key value weight
        (resolveOptions cfg value opts)).flushAndUnlock (cfg.withAsync false) env
          (shardFor cfg key)).enforceGroupBudgets (cfg.withAsync false) env
            (resolveOptions cfg value opts).tags) := by
  have hw' : c.checkOptions (cfg.withAsync false) key value
      (resolveOptions (cfg.withAsync false) value opts) = .ok weight := hw
  unfold setNow setWithOptions
  dsimp only
  rw [hw']
  rfl

omit [BEq K] [NeZero n] in
theorem computeWeight_eq (h : computeWeight cfg value = .ok weight) :
    weight = cfg.weighOf value := by
  unfold computeWeight at h
  split_ifs at h
  exact (Except.ok.inj h).symm

variable {sc : SetConfig}

omit [BEq K] [NeZero n] in
/-- An accepted call has a weight from its options or from its value. -/
theorem checkOptions_cases (h : c.checkOptions cfg key value sc = .ok weight) :
    optionWeight cfg value sc = .ok weight ∧
      c.checkSet cfg key value sc.tags = computeWeight cfg value := by
  unfold checkOptions at h
  split_ifs at h with hopen httl
  obtain ⟨⟨⟩, hkey, h⟩ := bind_eq_ok h
  obtain ⟨⟨⟩, htags, h⟩ := bind_eq_ok h
  refine ⟨h, ?_⟩
  unfold checkSet
  rw [if_neg hopen, hkey]
  rcases computeWeight cfg value with err | w
  · rfl
  · show (checkTagLimits cfg c sc.tags >>= fun _ ↦ pure w) = _
    rw [htags]
    rfl

/-- The record of a queued write with options. -/
def optionsOp (cfg : Config K V) (env : Env K) (key : K) (value : V) (weight : ℤ) (sc : SetConfig) :
    PendingOp K V where
  kind := .set
  key := key
  value := value
  weight := if sc.hasExpiry then weight else cfg.weighOf value
  effectiveTTL := if sc.hasExpiry then 0 else cfg.effectiveTTL env sc.ttl
  rawTTL := sc.ttl
  sliding := sc.sliding
  expireAt := if sc.hasExpiry then expireNanos sc.expireAt else 0
  tags := sc.tags

/-- A call that queues its write makes a record of it, or is refused for the weight of its value. -/
theorem setWithOptions_async (env : Env K)
    (hw : c.checkOptions cfg key value (resolveOptions cfg value opts) = .ok weight) :
    c.setWithOptions (cfg.withAsync true) env key value opts true =
        (.ok (), c.enqueuePending (shardFor cfg key)
          (optionsOp cfg env key value weight (resolveOptions cfg value opts))) ∨
      (resolveOptions cfg value opts).hasExpiry = false ∧ ∃ err,
        computeWeight cfg value = .error err ∧
        c.setWithOptions (cfg.withAsync true) env key value opts true = (.error err, c) := by
  set sc := resolveOptions cfg value opts with hsc
  obtain ⟨-, hset⟩ := checkOptions_cases hw
  have hcall : c.setWithOptions (cfg.withAsync true) env key value opts true =
      c.asyncSetOptions (cfg.withAsync true) env key value weight sc true := by
    have hw' : c.checkOptions (cfg.withAsync true) key value
        (resolveOptions (cfg.withAsync true) value opts) = .ok weight := hw
    unfold setWithOptions
    dsimp only
    rw [hw']
    rfl
  rw [hcall]
  unfold asyncSetOptions
  rcases hexp : sc.hasExpiry with - | -
  · -- through the record of a plain write
    have hset' : c.checkSet (cfg.withAsync true) key value sc.tags = computeWeight cfg value := hset
    rw [if_neg (by simp), if_neg (by simp)]
    unfold asyncSet
    rw [hset']
    rcases hweight : computeWeight cfg value with err | w
    · exact .inr ⟨rfl, err, rfl, rfl⟩
    · obtain rfl : w = cfg.weighOf value := computeWeight_eq hweight
      left
      simp only [optionsOp, hexp]
      rfl
  · left
    rw [if_pos rfl, if_neg (by simp)]
    simp only [optionsOp, hexp]
    rfl

/-! ### The entries left -/

omit [BEq K] [NeZero n] in
theorem Written.data_eq {old : Option (Entry K V)} {weight now expireAt : ℤ} {sliding : Bool}
    {rawTTL : ℤ} {tags : List String} {e : Entry K V}
    (h : Written old value weight now expireAt sliding rawTTL tags e) :
    e.data = ⟨value, weight, expireAt, sliding, if sliding then rawTTL else 0, tags⟩ := by
  obtain ⟨e₀, -, rfl⟩ := h
  rfl

/-- The data a call that writes at once leaves. -/
def dataNow (cfg : Config K V) (env : Env K) (value : V) (weight : ℤ) (sc : SetConfig) :
    EntryData V :=
  if sc.hasExpiry then ⟨value, weight, expireNanos sc.expireAt, false, 0, sc.tags⟩
  else ⟨value, weight, deadline env (cfg.effectiveTTL env sc.ttl), sc.sliding,
    if sc.sliding then sc.ttl else 0, sc.tags⟩

/-- The data the drain of a record leaves. -/
def dataDrained (cfg : Config K V) (env : Env K) (value : V) (weight : ℤ) (sc : SetConfig) :
    EntryData V :=
  if sc.hasExpiry then
    if 0 < expireNanos sc.expireAt then ⟨value, weight, expireNanos sc.expireAt, false, 0, sc.tags⟩
    else ⟨value, weight, 0, sc.sliding, if sc.sliding then sc.ttl else 0, sc.tags⟩
  else ⟨value, cfg.weighOf value, deadline env (cfg.effectiveTTL env sc.ttl), sc.sliding,
    if sc.sliding then sc.ttl else 0, sc.tags⟩

variable [PartialEquivBEq K]

theorem data_setNow (hsealed : c.sealed = false)
    (hw : c.checkOptions cfg key value (resolveOptions cfg value opts) = .ok weight) {e : Entry K V}
    (he : (c.setNow cfg env key value opts).2.lookupKey cfg key = some e) :
    e.data = dataNow cfg env value weight (resolveOptions cfg value opts) := by
  rw [setNow_eq hw] at he
  have he' := (sheds_flushAndUnlock _).get_of_get ((fades_enforceGroupBudgets _ _).get_of_get he)
  unfold upsertOptionsLocked at he'
  unfold dataNow
  by_cases hexp : (resolveOptions cfg value opts).hasExpiry
  · rw [if_pos hexp] at he' ⊢
    exact ((puts_upsertWithAbsoluteExpiryLocked _ env _ key hsealed value weight _ _).get e
      he').data_eq
  · rw [if_neg hexp] at he' ⊢
    exact ((puts_upsertLocked _ env _ key hsealed value weight _ _ _ _).get e he').data_eq

theorem data_drained (hsealed : c.sealed = false) {e : Entry K V}
    (he : (((c.applyPendingOpLocked (cfg.withAsync true) env (shardFor cfg key)
        (optionsOp cfg env key value weight sc)).flushAndUnlock (cfg.withAsync true) env
          (shardFor cfg key)).enforceGroupBudgets (cfg.withAsync true) env sc.tags).lookupKey cfg key =
      some e) : e.data = dataDrained cfg env value weight sc := by
  have he' := (sheds_flushAndUnlock _).get_of_get ((fades_enforceGroupBudgets _ _).get_of_get he)
  unfold applyPendingOpLocked optionsOp at he'
  unfold dataDrained
  dsimp only at he'
  by_cases hexp : sc.hasExpiry
  · simp only [if_pos hexp] at he' ⊢
    by_cases hpos : 0 < expireNanos sc.expireAt
    · rw [if_pos hpos] at he' ⊢
      exact ((puts_upsertWithAbsoluteExpiryLocked _ env _ key hsealed value weight _ _).get e
        he').data_eq
    · rw [if_neg hpos] at he' ⊢
      exact ((puts_upsertLocked _ env _ key hsealed value weight _ _ _ _).get e he').data_eq
  · simp only [if_neg hexp, lt_irrefl, if_false] at he' ⊢
    exact ((puts_upsertLocked _ env _ key hsealed value _ _ _ _ _).get e he').data_eq

omit [BEq K] [NeZero n] [PartialEquivBEq K] in
/-- **The data agree exactly when the options survive the record.** -/
theorem dataDrained_eq_iff (cfg : Config K V) (env : Env K)
    (hw : optionWeight cfg value sc = .ok weight) :
    dataDrained cfg env value weight sc = dataNow cfg env value weight sc ↔
      sc.Survives cfg value := by
  unfold dataDrained dataNow SetConfig.Survives
  by_cases hexp : sc.hasExpiry
  · simp only [if_pos hexp]
    by_cases hpos : 0 < expireNanos sc.expireAt
    · simp [hpos]
    · rw [if_neg hpos]
      rcases hslide : sc.sliding with - | -
      · simp [hpos, eq_comm]
      · simp [hpos]
  · simp only [if_neg hexp, EntryData.mk.injEq, true_and, and_true]
    unfold optionWeight at hw
    rcases hexplicit : sc.hasWeight with - | -
    · rw [if_neg (by simp [hexplicit])] at hw
      simp [computeWeight_eq hw]
    · rw [if_pos hexplicit] at hw
      split_ifs at hw
      obtain rfl := Except.ok.inj hw
      simp [eq_comm]

omit [NeZero n] [PartialEquivBEq K] in
/-- Options that survive make the drain do what the call does at once. -/
theorem alike_applyPendingOpLocked (i : Fin n) (hallow : env.admits key = true)
    (hw : optionWeight cfg value sc = .ok weight) (hs : sc.Survives cfg value) :
    Alike (c.upsertOptionsLocked (cfg.withAsync false) env i key value weight sc)
      (c.applyPendingOpLocked (cfg.withAsync true) env i (optionsOp cfg env key value weight sc)) := by
  have hweight : sc.hasExpiry = false → weight = cfg.weighOf value := by
    intro hexp
    unfold SetConfig.Survives at hs
    unfold optionWeight at hw
    rw [hexp, if_neg Bool.false_ne_true] at hs
    rcases hexplicit : sc.hasWeight with - | -
    · rw [if_neg (by simp [hexplicit])] at hw
      exact computeWeight_eq hw
    · rw [if_pos hexplicit] at hw
      split_ifs at hw
      exact (Except.ok.inj hw).symm.trans (hs hexplicit)
  unfold SetConfig.Survives at hs
  unfold upsertOptionsLocked applyPendingOpLocked optionsOp
  dsimp only
  rcases hexp : sc.hasExpiry with - | -
  · rw [hweight hexp]
    exact (Alike.refl c).upsertLocked i key value _ _ _ _ _
  · rw [hexp, if_pos rfl] at hs
    simp only [if_true]
    rcases hs with hpos | ⟨hzero, hslide⟩
    · rw [if_pos hpos]
      exact (Alike.refl c).upsertWithAbsoluteExpiryLocked i key value _ _ _
    · rw [hzero, hslide, if_neg (lt_irrefl _)]
      exact (Alike.refl c).upsertLocked_zero i hallow value _ _ _

omit [PartialEquivBEq K] in
theorem alike_drained (i : Fin n) (hallow : env.admits key = true)
    (hw : optionWeight cfg value sc = .ok weight) (hs : sc.Survives cfg value) :
    Alike (((c.upsertOptionsLocked (cfg.withAsync false) env i key value weight sc).flushAndUnlock
        (cfg.withAsync false) env i).enforceGroupBudgets (cfg.withAsync false) env sc.tags)
      (((c.applyPendingOpLocked (cfg.withAsync true) env i
        (optionsOp cfg env key value weight sc)).flushAndUnlock (cfg.withAsync true) env
          i).enforceGroupBudgets (cfg.withAsync true) env sc.tags) :=
  ((alike_applyPendingOpLocked i hallow hw hs).flushAndUnlock i).enforceGroupBudgets sc.tags

/-- **A queued `SetWithOptions` leaves what the synchronous call leaves exactly when its options
survive the record.** If the synchronous call leaves no entry, because a bound or a group takes it
away at once, then surviving options leave none either. -/
theorem leavesSame_iff_survives (hqueue : (c.shards (shardFor cfg key)).pending = .empty)
    (hsealed : c.sealed = false) (hallow : env.admits key = true) {opts : List SetOption}
    (haccept : (c.setNow cfg env key value opts).1 = .ok ()) :
    ((resolveOptions cfg value opts).Survives cfg value → c.LeavesSame cfg env key value opts) ∧
      (((c.setNow cfg env key value opts).2.lookupKey cfg key).isSome →
        c.LeavesSame cfg env key value opts → (resolveOptions cfg value opts).Survives cfg value) := by
  set sc := resolveOptions cfg value opts with hsc
  obtain ⟨weight, hw⟩ : ∃ weight, c.checkOptions cfg key value sc = .ok weight := by
    rcases hcheck : c.checkOptions cfg key value sc with err | weight
    · have hcheck' : c.checkOptions (cfg.withAsync false) key value
          (resolveOptions (cfg.withAsync false) value opts) = .error err := hcheck
      unfold setNow setWithOptions at haccept
      dsimp only at haccept
      rw [hcheck'] at haccept
      cases haccept
    · exact ⟨weight, rfl⟩
  obtain ⟨hoption, -⟩ := checkOptions_cases hw
  rcases setWithOptions_async env hw with hcall | ⟨hexp, err, hrefuse, hcall⟩
  · have hdrain : c.setAndDrain cfg env key value opts = (.ok (),
        ((c.applyPendingOpLocked (cfg.withAsync true) env (shardFor cfg key)
          (optionsOp cfg env key value weight sc)).flushAndUnlock (cfg.withAsync true) env
            (shardFor cfg key)).enforceGroupBudgets (cfg.withAsync true) env sc.tags) := by
      unfold setAndDrain
      rw [hcall]
      exact congrArg (Prod.mk _) (drainShard_enqueuePending _ env hqueue rfl)
    refine ⟨fun hs ↦ ?_, fun hleft hsame ↦ ?_⟩
    · refine ⟨by rw [hdrain], ?_⟩
      rw [hdrain, setNow_eq hw, lookupKey, lookupKey]
      exact congrArg (fun t : Table K V ↦ (t.get key).map Entry.data)
        ((alike_drained (shardFor cfg key) hallow hoption hs).toTable (shardFor cfg key)).symm
    · obtain ⟨e, he⟩ := Option.isSome_iff_exists.1 hleft
      have hdata := hsame.2
      rw [he, Option.map_some] at hdata
      obtain ⟨e', he', heq⟩ := Option.map_eq_some_iff.1 hdata
      rw [hdrain] at he'
      rw [← dataDrained_eq_iff cfg env hoption, ← data_drained hsealed he',
        ← data_setNow hsealed hw he, heq]
  · -- the value alone is too heavy, so its weight is not the explicit one
    have hnotok : ¬ c.LeavesSame cfg env key value opts := by
      rintro ⟨hok, -⟩
      unfold setAndDrain at hok
      rw [hcall] at hok
      cases hok
    refine ⟨fun hs ↦ ?_, fun _ hsame ↦ absurd hsame hnotok⟩
    unfold SetConfig.Survives at hs
    rw [hexp, if_neg Bool.false_ne_true] at hs
    unfold optionWeight at hoption
    unfold computeWeight at hrefuse
    rcases hexplicit : sc.hasWeight with - | -
    · rw [if_neg (by simp [hexplicit]), computeWeight, hrefuse] at hoption
      cases hoption
    · rw [if_pos hexplicit, hs hexplicit] at hoption
      split_ifs at hoption hrefuse

/-- No jitter, no weigher, no TTL. -/
def queueConfig : Config ℕ ℕ := { defaultConfig fun _ ↦ 0 with ttlJitterExplicit := true }

/-- An absolute expiry after the epoch survives. -/
theorem leavesSame_iff_survives_expireAt :
    (new queueConfig 1).LeavesSame queueConfig (.instant 5) 1 7 [.expireAt 50, .weight 3] :=
  (leavesSame_iff_survives rfl rfl rfl rfl).1 (.inl (by decide))

/-- Three calls whose options do not survive: an explicit weight, sliding together with the zero
time, and an instant before the epoch. -/
theorem not_leavesSame_queued :
    ¬ (new queueConfig 1).LeavesSame queueConfig (.instant 5) 1 7 [.weight 3] ∧
      ¬ (new queueConfig 1).LeavesSame queueConfig (.instant 5) 1 7
        [.sliding true, .expireAt zeroTime] ∧
      ¬ (new queueConfig 1).LeavesSame queueConfig (.instant 5) 1 7 [.expireAt (-1)] := by
  refine ⟨?_, ?_, ?_⟩
  · rintro ⟨-, h⟩
    exact absurd h (by decide +kernel)
  · rintro ⟨-, h⟩
    exact absurd h (by decide +kernel)
  · rintro ⟨-, h⟩
    exact absurd h (by decide +kernel)

end Cache

end Memcache
