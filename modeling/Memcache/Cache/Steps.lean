import Memcache.Cache.Core

/-!
# Every operation is a sequence of instructions

One lemma for each function of the model, in the order in which they call each other. The functions
that only touch what is outside the core leave it equal; removal, insertion and rewriting are one
instruction each, around which the others compose.
-/

namespace Memcache

variable {K V : Type*} {n : ℕ}

namespace Cache

/-! ### Outside the core -/

section Frame

variable (cfg : Config K V) (env : Env K) (c : Cache K V n) (i : Fin n)

@[simp] theorem core_stats (st : Stats) : ({ c with stats := st } : Cache K V n).core = c.core := rfl

@[simp] theorem core_closed (b : Bool) : ({ c with closed := b } : Cache K V n).core = c.core := rfl

@[simp] theorem core_sealed (b : Bool) : ({ c with sealed := b } : Cache K V n).core = c.core := rfl

@[simp] theorem core_countInsert : c.countInsert.core = c.core := rfl

@[simp] theorem core_countUpdate : c.countUpdate.core = c.core := rfl

@[simp] theorem core_countDelete : c.countDelete.core = c.core := rfl

@[simp] theorem core_countExpiration : c.countExpiration.core = c.core := rfl

@[simp] theorem core_countEviction : c.countEviction.core = c.core := rfl

@[simp] theorem core_publish (e : Event K V) : (c.publish cfg e).core = c.core := by
  unfold publish
  split_ifs <;> rfl

@[simp] theorem core_startJanitorLocked : (c.startJanitorLocked cfg i).core = c.core := by
  unfold startJanitorLocked
  split_ifs
  · rfl
  · exact c.core_modify_eq i rfl

@[simp] theorem core_startJanitorFor (expireAt : ℤ) :
    (c.startJanitorFor cfg i expireAt).core = c.core := by
  unfold startJanitorFor
  split_ifs <;> simp

@[simp] theorem core_queueCallback (e : Entry K V) (reason : EvictionReason) :
    (c.queueCallback cfg i e reason).core = c.core := by
  unfold queueCallback
  split_ifs
  · exact c.core_modify_eq i rfl
  · rfl

@[simp] theorem core_releaseShard : (c.releaseShard i).core = c.core :=
  c.core_modify_eq i (f := fun s ↦ { s with pendingCallbacks := [] }) rfl

variable [BEq K]

@[simp] theorem core_retagLocked (key : K) (old new : List String) :
    (c.retagLocked key old new).core = c.core := rfl

@[simp] theorem core_enqueueUntag (key : K) (tags : List String) :
    (c.enqueueUntag env key tags).core = c.core := by
  unfold enqueueUntag
  split_ifs <;> rfl

@[simp] theorem core_recordHashCollisionLocked (key : K) :
    (c.recordHashCollisionLocked cfg i key).core = c.core := by
  simp only [recordHashCollisionLocked]
  split_ifs
  · rfl
  · exact (core_stats _ _).trans (c.core_modify_eq i rfl)
  · exact c.core_modify_eq i rfl

@[simp] theorem core_forgetHashLocked (key : K) :
    (c.forgetHashLocked cfg i key).core = c.core :=
  c.core_modify_eq i rfl

@[simp] theorem core_cacheErrorLocked (key : K) (err : LoadErr) :
    (c.cacheErrorLocked cfg env i key err).core = c.core :=
  c.core_modify_eq i rfl

@[simp] theorem core_dropCachedError (key : K) : (c.dropCachedError cfg i key).core = c.core := by
  unfold dropCachedError
  split_ifs
  · exact c.core_modify_eq i rfl
  · rfl

@[simp] theorem core_applyUntag [NeZero n] : (c.applyUntag cfg).core = c.core := by
  unfold applyUntag
  split <;> rfl

end Frame

/-! ### Flights and the read snapshot -/

section Steps

variable [BEq K] {cfg : Config K V} {env : Env K} {T : Licence K V}
  (c : Cache K V n) (i : Fin n)

theorem steps_flights {f : Flights K → Flights K} (h : FlightStep (T.takes i) (c.shards i).flights
    (f (c.shards i).flights)) :
    Steps cfg T c (c.modify i fun s ↦ { s with flights := f s.flights }) :=
  .of_step (.flights _ i _ h) (c.core_modify i _)

@[simp] theorem core_supersedeFlight (key : K) :
    (c.supersedeFlight i key).core = c.core.set i
      { c.core.shards i with flights := (c.core.shards i).flights.supersedeFlight key } :=
  c.core_modify i _

theorem steps_supersedeFlight (key : K) : Steps cfg T c (c.supersedeFlight i key) :=
  c.steps_flights i (f := fun s ↦ s.supersedeFlight key) (.supersede _ key)

theorem steps_startRefreshLocked {key : K} (hkey : T.takes i key) :
    Steps cfg T c (c.startRefreshLocked i key) := by
  unfold startRefreshLocked
  split_ifs with h
  · exact .refl
  · exact c.steps_flights i (f := fun s ↦ s.startFlight key) (.start _ key hkey (by simpa using h))

theorem steps_triggerAsyncRefreshLocked {key : K} (hkey : T.takes i key) :
    Steps cfg T c (c.triggerAsyncRefreshLocked cfg i key) := by
  unfold triggerAsyncRefreshLocked
  split_ifs
  · exact c.steps_startRefreshLocked i hkey
  · exact .refl

@[simp] theorem toTable_startRefreshLocked (key : K) :
    ((c.startRefreshLocked i key).shards i).toTable = (c.shards i).toTable := by
  unfold startRefreshLocked
  split_ifs <;> simp

@[simp] theorem toTable_triggerAsyncRefreshLocked (key : K) :
    ((c.triggerAsyncRefreshLocked cfg i key).shards i).toTable = (c.shards i).toTable := by
  unfold triggerAsyncRefreshLocked
  split_ifs <;> simp

/-- Counting a miss rebuilds the snapshot, or only counts. -/
theorem readStep_countReadMiss (s : Shard K V) : ReadStep s.core (countReadMiss s).core := by
  unfold countReadMiss promoteReadMapLocked
  split_ifs
  · split
    · exact .count _ _
    · next rm h =>
      rw [if_neg (by simp)]
      exact .rebuild _ (Option.isSome_of_eq_some h)
  · exact .count _ _

theorem steps_countReadMiss : Steps cfg T c (c.modify i countReadMiss) :=
  .of_step (.read _ i _ (readStep_countReadMiss _)) (c.core_modify i _)

theorem steps_recordReadMiss (key : K) : Steps cfg T c (c.recordReadMiss i key) := by
  unfold recordReadMiss
  split_ifs
  · exact .refl
  · exact c.steps_countReadMiss i

theorem steps_maybePromoteOnSlowHit (key : K) :
    Steps cfg T c (c.maybePromoteOnSlowHit cfg i key) := by
  unfold maybePromoteOnSlowHit
  split_ifs
  · exact .refl
  · exact c.steps_countReadMiss i

/-! ### Removal -/

omit [BEq K] in
@[simp] theorem core_addCounters (entries bytes : ℤ) :
    (c.addCounters entries bytes).core = c.core.add entries bytes := rfl

omit [BEq K] in
@[simp] theorem core_modifyTable (f : Table K V → Table K V) :
    (c.modifyTable i f).core =
      c.core.set i { c.core.shards i with toTable := f (c.core.shards i).toTable } :=
  c.core_modify i _

variable {e : Entry K V}

/-- An entry leaves the core by one instruction, and the miss that counts for the snapshot is
another. -/
theorem steps_dropLocked_of {b : Cache K V n}
    (hdrop : CoreStep cfg T b.core
      ((c.core.set i (dropShard cfg.lockFreeRead (c.core.shards i) e)).add (-1) (-e.weight)))
    (reason : EvictionReason) : Steps cfg T b (c.dropLocked cfg env i e reason) := by
  simp only [dropLocked]
  refine .trans ?_ (.of_eq (core_queueCallback ..))
  unfold markInvalidated
  split_ifs with hl
  · rw [← modify_modify _ _ (fun s ↦ { s with dead := e.id :: s.dead })]
    refine .trans (.of_step hdrop ?_) (steps_countReadMiss _ i)
    rw [core_modify_of _ i (fun s ↦ { s with dead := e.id :: s.dead }) fun _ ↦ rfl]
    simp [dropShard, hl]
  · exact .of_step hdrop (by simp [dropShard, hl])

theorem steps_dropLocked (hmem : e ∈ (c.shards i).storage) (reason : EvictionReason) :
    Steps cfg T c (c.dropLocked cfg env i e reason) :=
  c.steps_dropLocked_of i (.drop c.core i e hmem) reason

theorem steps_removeLocked (hmem : e ∈ (c.shards i).storage) (reason : EvictionReason) :
    Steps cfg T c (c.removeLocked cfg env i e reason) := by
  unfold removeLocked
  split_ifs
  · refine (c.steps_supersedeFlight i e.key).trans (steps_dropLocked _ i ?_ reason)
    simpa [supersedeFlight] using hmem
  · exact c.steps_dropLocked i hmem reason

/-- Whatever it finds, a keyed removal starts by superseding the key's load. -/
theorem steps_removeKeyLocked (key : K) (reason : EvictionReason) :
    Steps cfg T (c.supersedeFlight i key) (c.removeKeyLocked cfg env i key reason) := by
  simp only [removeKeyLocked]
  split
  · exact .refl
  · next e he =>
    have hrm : Steps cfg T (c.supersedeFlight i key)
        ((c.supersedeFlight i key).removeLocked cfg env i e reason) :=
      steps_removeLocked _ i (Table.mem_of_get he) reason
    split_ifs
    · exact hrm
    · exact hrm.frame rfl

/-! ### Eviction -/

theorem yields_shardVictim (cfg : Config K V) (s : Shard K V) :
    s.policy.Yields (shardVictim cfg s).2 (shardVictim cfg s).1 := by
  unfold shardVictim
  split_ifs
  · exact s.policy.yields_victim cfg.hash
  · exact s.policy.yields_self

theorem yields_nextVictim (cfg : Config K V) (keep : ℕ) :
    (c.shards i).policy.Yields (c.nextVictim cfg i keep).2 (c.nextVictim cfg i keep).1 := by
  have hs := yields_shardVictim cfg (c.shards i)
  unfold nextVictim
  split_ifs with h
  · rw [Option.isNone_iff_eq_none.1 h.1] at hs
    exact hs.trans (Policy.yields_shedVictim _ _ _)
  · exact hs

theorem steps_evict {r : Ref K} {p : Policy K} (h : (c.shards i).policy.Yields p (some r))
    (reason : EvictionReason) : Steps cfg T c (c.evict cfg env i r p reason) := by
  simp only [evict, modifyTable_toTable]
  split
  · next hnone => exact .of_step (.stray c.core i r p h hnone) (c.core_modifyTable i _)
  · next e hsome =>
    refine .frame ?_ (core_countEviction _)
    unfold removeLocked
    split_ifs
    · -- the load is superseded on the way, which the choice of the victim does not see
      refine (c.steps_supersedeFlight i e.key).trans (steps_dropLocked_of _ i ?_ reason)
      have hev : CoreStep cfg T (c.supersedeFlight i e.key).core _ :=
        .evict _ i r p e (by rwa [core_supersedeFlight, Core.set_shards_self])
          (by rwa [core_supersedeFlight, Core.set_shards_self])
      simpa using hev
    · refine steps_dropLocked_of _ i ?_ reason
      have hev : CoreStep cfg T c.core _ := .evict c.core i r p e h hsome
      simpa using hev

theorem steps_policy {p : Policy K} (h : (c.shards i).policy.Yields p none) :
    Steps cfg T c (c.modifyTable i fun t ↦ { t with policy := p }) :=
  .of_step (.policy c.core i p h) (c.core_modifyTable i _)

/-- A relation that holds over whatever a visit of a shard does to shed entries. -/
structure Shedding (cfg : Config K V) (env : Env K) (reason : EvictionReason)
    (R : Cache K V n → Cache K V n → Prop) : Prop where
  refl : ∀ c, R c c
  trans : ∀ {c c' c''}, R c c' → R c' c'' → R c c''
  policy : ∀ c i {p}, (c.shards i).policy.Yields p none → R c (c.modifyTable i fun t ↦ { t with policy := p })
  evict : ∀ c i {r p}, (c.shards i).policy.Yields p (some r) → R c (c.evict cfg env i r p reason)
  release : ∀ c i, R c (c.releaseShard i)
  next : ∀ (c : Cache K V n) k, R c { c with shedNext := k }

namespace Shedding

variable {reason : EvictionReason} {R : Cache K V n → Cache K V n → Prop}

theorem evictRounds (h : Shedding cfg env reason R) (keep fuel : ℕ) :
    R c (evictRounds cfg env i reason keep fuel c).1 := by
  induction fuel generalizing c with
  | zero => exact h.refl c
  | succ fuel ih =>
    have hy := c.yields_nextVictim i cfg keep
    unfold Cache.evictRounds
    split
    · next p hp =>
      rw [hp] at hy
      exact h.policy c i hy
    · next r p hp =>
      rw [hp] at hy
      exact h.trans (h.evict c i hy) (ih _)

theorem evictTotalRounds (h : Shedding cfg env .capacity R) (fuel : ℕ) :
    R c (evictTotalRounds cfg env i fuel c) := by
  induction fuel generalizing c with
  | zero => exact h.refl c
  | succ fuel ih =>
    have hy := (c.shards i).policy.yields_shedVictim cfg.hash false
    unfold Cache.evictTotalRounds
    split_ifs
    · split
      · next p hp =>
        rw [hp] at hy
        exact h.policy c i hy
      · next r p hp =>
        rw [hp] at hy
        exact h.trans (h.evict c i hy) (ih _)
    · exact h.refl c

variable (h : Shedding cfg env reason R)
include h

theorem shed : R c (c.shed cfg env reason i).1 := by
  unfold Cache.shed
  split_ifs
  · exact h.trans (h.evictRounds c i 0 _) (h.release _ i)
  · exact h.refl c

theorem shedAll (is : List (Fin n)) : R c (shedAll cfg env reason is c).1 := by
  induction is generalizing c with
  | nil => exact h.refl c
  | cons i is ih => exact h.trans (h.shed c i) (ih _)

variable [NeZero n]

theorem shedPass (last : Option (Fin n)) : R c (c.shedPass cfg env reason last).1 :=
  h.trans (h.next c _) (h.shedAll _ _)

theorem shedOverBudget (last : Option (Fin n)) : R c (c.shedOverBudget cfg env reason last) := by
  unfold Cache.shedOverBudget
  generalize c.trackedCount + 1 = fuel
  induction fuel generalizing c with
  | zero => exact h.refl c
  | succ fuel ih =>
    simp only [shedPasses]
    split_ifs
    · exact h.shedPass c last
    · exact h.trans (h.shedPass c last) (ih _)
    · exact h.refl c

omit h in
theorem flushAndUnlock (h : Shedding cfg env .capacity R) : R c (c.flushAndUnlock cfg env i) :=
  h.trans (h.release c i) (h.shedOverBudget _ _)

end Shedding

theorem shedding_steps (reason : EvictionReason) :
    Shedding cfg env reason (Steps (n := n) cfg T) where
  refl _ := .refl
  trans := .trans
  policy c i _ h := c.steps_policy i h
  evict c i _ _ h := c.steps_evict i h reason
  release _ _ := .of_eq (core_releaseShard ..)
  next _ _ := .of_eq rfl

theorem steps_evictOverBudgetLocked (reason : EvictionReason) (keep : ℕ) :
    Steps cfg T c (c.evictOverBudgetLocked cfg env i reason keep).1 :=
  (shedding_steps reason).evictRounds c i keep _

variable [NeZero n]

theorem steps_shedOverBudget (reason : EvictionReason) (last : Option (Fin n)) :
    Steps cfg T c (c.shedOverBudget cfg env reason last) :=
  (shedding_steps reason).shedOverBudget c last

theorem steps_flushAndUnlock : Steps cfg T c (c.flushAndUnlock cfg env i) :=
  (shedding_steps .capacity).flushAndUnlock c i

/-! ### Insertion and rewriting -/

section Upsert

omit [NeZero n]

omit [BEq K] in
@[simp] theorem core_markAmended : (c.markAmended i).core = c.core.set i
    { c.core.shards i with
      read := (c.core.shards i).read.map fun rm ↦ { rm with amended := true } } :=
  c.core_modify i _

omit [BEq K] in
@[simp] theorem core_takeId : c.takeId.core = c.core.bump := rfl

/-- Insertion is one instruction. -/
theorem core_storeEntry (cfg : Config K V) (e : Entry K V) : (c.storeEntry cfg i e).core =
    ((c.core.set i { c.core.shards i with
      toTable := addEntry cfg.hash (c.core.shards i).toTable { e with id := c.nextId }
      read := (c.core.shards i).read.map fun rm ↦ { rm with amended := true } }).add 1
        e.weight).bump := by
  simp [storeEntry]

theorem toTable_storeEntry (cfg : Config K V) (e : Entry K V) :
    ((c.storeEntry cfg i e).shards i).toTable =
      addEntry cfg.hash (c.shards i).toTable { e with id := c.nextId } := by
  have h := congrArg (fun d ↦ (d.shards i).toTable) (c.core_storeEntry i cfg e)
  rwa [Core.bump_shards, Core.add_shards, Core.set_shards_self] at h

theorem steps_storeEntry (habsent : (c.core.shards i).get e.key = none) (hkey : T.takes i e.key)
    (h₁ : 1 ≤ e.weight) (h₂ : e.weight ≤ maxEntryWeight) : Steps cfg T c (c.storeEntry cfg i e) :=
  .of_step (.insert c.core i { e with id := c.nextId } habsent hkey rfl h₁ h₂)
    (c.core_storeEntry i cfg e)

theorem steps_insertLocked (habsent : (c.core.shards i).get e.key = none) (hkey : T.takes i e.key)
    (h₁ : 1 ≤ e.weight) (h₂ : e.weight ≤ maxEntryWeight) :
    Steps cfg T c (c.insertLocked cfg env i e) := by
  have hstore : Steps cfg T c ((c.storeEntry cfg i e).countInsert.startJanitorFor cfg i
      e.expireAt) := (c.steps_storeEntry i habsent hkey h₁ h₂).frame (by simp)
  exact hstore.trans (steps_evictOverBudgetLocked _ i .capacity 1)

variable {key : K} {value : V} {weight : ℤ} {tags : List String}

theorem steps_overwriteLocked (hmem : e ∈ (c.core.shards i).storage) (h₁ : 1 ≤ weight)
    (h₂ : weight ≤ maxEntryWeight) (expireAt : ℤ) (sliding : Bool) (rawTTL : ℤ) :
    Steps cfg T c
      (c.overwriteLocked cfg env i key e value weight expireAt sliding rawTTL tags) := by
  have hrw : CoreStep cfg T c.core _ := .rewrite c.core i e _ true true hmem
    (.overwrite e value weight env.now expireAt sliding rawTTL tags h₁ h₂) nofun
  refine .of_step hrw ?_
  simp [overwriteLocked, rewriteEntry, rewriteTable, overwritten, Policy.onUpdate, neg_add_eq_sub]

theorem steps_upsertLocked (hkey : T.takes i key) (h₁ : 1 ≤ weight) (h₂ : weight ≤ maxEntryWeight)
    (effectiveTTL : ℤ) (sliding : Bool) (rawTTL : ℤ) :
    Steps cfg T (c.supersedeFlight i key)
      (c.upsertLocked cfg env i key value weight effectiveTTL sliding rawTTL tags) := by
  simp only [upsertLocked]
  split
  · exact .refl
  · cases h : ((c.supersedeFlight i key).shards i).get key with
    | some e =>
      exact (steps_overwriteLocked _ i (Table.mem_of_get h) h₁ h₂ _ sliding rawTTL).frame
        (core_publish ..)
    | none =>
      by_cases ha : env.admits key
      · have hrec : Steps cfg T (c.supersedeFlight i key)
            ((c.supersedeFlight i key).recordHashCollisionLocked cfg i key) := .of_eq (by simp)
        simp only [ha, Bool.not_true, Bool.false_eq_true, ↓reduceIte]
        refine (hrec.trans (steps_insertLocked _ i ?_ hkey h₁ h₂)).frame (core_publish ..)
        rw [core_recordHashCollisionLocked]
        exact h
      · simp only [ha, Bool.not_false, ↓reduceIte]
        exact .of_eq rfl

theorem steps_upsertWithAbsoluteExpiryLocked (hkey : T.takes i key) (h₁ : 1 ≤ weight)
    (h₂ : weight ≤ maxEntryWeight) (expireAt : ℤ) :
    Steps cfg T (c.supersedeFlight i key)
      (c.upsertWithAbsoluteExpiryLocked cfg env i key value weight expireAt tags) := by
  simp only [upsertWithAbsoluteExpiryLocked]
  split
  · exact .refl
  · cases h : ((c.supersedeFlight i key).shards i).get key with
    | some e => exact steps_overwriteLocked _ i (Table.mem_of_get h) h₁ h₂ expireAt false 0
    | none => exact steps_insertLocked _ i h hkey h₁ h₂

theorem steps_replaceValueLocked (hmem : e ∈ (c.core.shards i).storage) (h₁ : 1 ≤ weight)
    (h₂ : weight ≤ maxEntryWeight) :
    Steps cfg T (c.supersedeFlight i e.key)
      (c.replaceValueLocked cfg env i e value weight) := by
  have hrw : CoreStep cfg T (c.supersedeFlight i e.key).core _ :=
    .rewrite _ i e _ false true (by simpa using hmem)
      (.replace e value weight env.now h₁ h₂) fun _ ↦ rfl
  refine .of_step hrw ?_
  simp [replaceValueLocked, rewriteTable, Policy.onUpdate, Table.put]

theorem freshEntryLocked_eq_some (h : c.freshEntryLocked cfg env i key = some e) :
    (c.shards i).get key = some e ∧ e.negative = false ∧
      entryExpiredLocked cfg e env.now = false := by
  obtain ⟨hget, hf⟩ := Option.filter_eq_some_iff.1 h
  exact ⟨hget, by simpa using hf⟩

theorem supersedeFlight_congr [PartialEquivBEq K] {key' : K} (h : key == key') :
    c.supersedeFlight i key = c.supersedeFlight i key' := by
  simp only [supersedeFlight, Flights.supersedeFlight_congr h]

/-- A computed value replaces the key's data either way. -/
theorem steps_storeComputedLocked [PartialEquivBEq K] (hkey : T.takes i key) (h₁ : 1 ≤ weight)
    (h₂ : weight ≤ maxEntryWeight) :
    Steps cfg T (c.supersedeFlight i key)
      (c.storeComputedLocked cfg env i key value weight) := by
  unfold storeComputedLocked
  split
  · next e he =>
    obtain ⟨hget, -, -⟩ := c.freshEntryLocked_eq_some i he
    rw [← c.supersedeFlight_congr i (Table.key_of_get hget)]
    exact c.steps_replaceValueLocked i (Table.mem_of_get hget) h₁ h₂
  · exact c.steps_upsertLocked i hkey h₁ h₂ _ _ _

/-- A tombstone over a resident entry is the one instruction that `T` is asked about. -/
theorem steps_insertNegativeTombstoneLocked [Inhabited V] (hkey : T.takes i key)
    (hT : ∀ e, (c.shards i).get key = some e → c.sealed = false → T.tombstone e) :
    Steps cfg T c (c.insertNegativeTombstoneLocked cfg env i key) := by
  simp only [insertNegativeTombstoneLocked]
  split
  · exact .refl
  · next hs =>
    cases h : (c.shards i).get key with
    | some e =>
      have htomb : CoreStep cfg T c.core _ := .tombstone c.core i e env.now
        (wrap64 (env.now + cfg.negativeTTL)) (Table.mem_of_get h) (hT e h (by simpa using hs))
      exact .of_step htomb (by simp [rewriteEntry, rewriteTable, Policy.onUpdate])
    | none =>
      have hstore : Steps cfg T c (c.storeEntry cfg i
          { newEntry key default 1 env.now (wrap64 (env.now + cfg.negativeTTL)) false 0 [] with
            negative := true }) := c.steps_storeEntry i h hkey le_rfl one_le_maxEntryWeight
      exact (hstore.frame (by simp)).trans (steps_evictOverBudgetLocked _ i .capacity 1)

/-! ### Touches, expiry and clearing -/

section

variable {e : Entry K V} (hmem : e ∈ (c.core.shards i).storage)
include hmem

theorem steps_touchEntry : Steps cfg T c (c.touchEntry cfg env i e) := by
  have hr : Rewrite e _ := .touch e env.now
  have hrw : CoreStep cfg T c.core _ := .rewrite c.core i e _
    (({ e with hits := e.hits + 1 } : Entry K V).touchAccess env.now).2 true hmem hr ?_
  · have hw : (({ e with hits := e.hits + 1 } : Entry K V).touchAccess env.now).1.weight =
        e.weight := by
      unfold Entry.touchAccess
      split_ifs <;> rfl
    exact .of_step hrw (by simp [touchEntry, rewriteTable, Table.put, hw, hr.id_eq])
  · unfold Entry.touchAccess
    split_ifs <;> simp

theorem steps_refreshExpiryLocked (ttl : ℤ) :
    Steps cfg T c (c.refreshExpiryLocked cfg env i e ttl) := by
  have hrw : CoreStep cfg T c.core _ := .rewrite c.core i e _ true false hmem
    (.refresh e (if 0 < ttl then wrap64 (env.now + cfg.effectiveTTL env ttl) else 0) env.now) nofun
  exact .of_step hrw (by simp [refreshExpiryLocked, rewriteTable, Table.put])

theorem steps_staleHit : Steps cfg T c (c.staleHit cfg i e) := by
  have hrw : CoreStep cfg T c.core _ :=
    .rewrite c.core i e _ false true hmem (.hit e) fun _ ↦ rfl
  exact .of_step hrw (by simp [staleHit, rewriteTable, Table.put])

theorem steps_countHit : Steps cfg T c (c.countHit i e) := by
  have hrw : CoreStep cfg T c.core _ :=
    .rewrite c.core i e _ false false hmem (.hit e) fun _ ↦ rfl
  exact .of_step hrw (by simp [countHit, rewriteTable, Table.put])

end

theorem steps_removeExpired (ids : List ℕ) :
    Steps cfg T c (removeExpired cfg env i ids c) := by
  induction ids generalizing c with
  | nil => exact .refl
  | cons id ids ih =>
    simp only [removeExpired]
    split
    · exact ih c
    · next e he =>
      exact ((c.steps_removeLocked i (Table.mem_of_byId he) .expired).frame
        (core_countExpiration _)).trans (ih _)

theorem steps_sweepExpiredLocked (hT : T.sweep) :
    Steps cfg T c (c.sweepExpiredLocked cfg env i) := by
  have hsweep : Steps cfg T c
      (c.modifyTable i fun t ↦ { t with ttl := (t.ttl.sweep env.now).2 }) :=
    .of_step (.ttl c.core i env.now hT) (c.core_modifyTable i _)
  exact hsweep.trans (steps_removeExpired _ i _)

theorem steps_supersedeAllFlights : Steps cfg T c (c.supersedeAllFlights i) :=
  c.steps_flights i (f := fun s ↦ s.supersedeAllFlights) (.supersedeAll _)

/-- Clearing a shard supersedes its loads and empties its table. -/
theorem steps_clearShard :
    Steps cfg T (c.supersedeAllFlights i) (c.clearShard cfg i) := by
  have hcl : CoreStep cfg T (c.supersedeAllFlights i).core _ := .clear _ i
  refine .of_step hcl ?_
  simp only [clearShard, core_addCounters]
  rw [core_modify]
  rfl

/-! ### Snapshot records and queued writes -/

@[simp] theorem toTable_countReadMiss (s : Shard K V) : (countReadMiss s).toTable = s.toTable := by
  unfold countReadMiss promoteReadMapLocked
  split_ifs
  · split
    · rfl
    · split_ifs <;> rfl
  · rfl

theorem toTable_dropLocked (e : Entry K V) (reason : EvictionReason) :
    ((c.dropLocked cfg env i e reason).shards i).toTable = dropEntry (c.shards i).toTable e := by
  change ((c.dropLocked cfg env i e reason).core.shards i).toTable = _
  simp only [dropLocked, core_queueCallback]
  unfold markInvalidated
  split_ifs
  · rw [core_modify, Core.set_shards_self]
    change (countReadMiss _).toTable = _
    rw [toTable_countReadMiss]
    change (Core.shards (core _) i).toTable = _
    simp [core_shards, Shard.core]
  · simp [core_shards, Shard.core]

theorem toTable_removeLocked (e : Entry K V) (reason : EvictionReason) :
    ((c.removeLocked cfg env i e reason).shards i).toTable = dropEntry (c.shards i).toTable e := by
  unfold removeLocked
  rw [toTable_dropLocked]
  split_ifs
  · simp [supersedeFlight]
  · rfl

/-- Once its entry is out, a key is absent. -/
theorem get_dropEntry [PartialEquivBEq K] {t : Table K V} (h : e.key == key) :
    (dropEntry t e).get key = none := by
  simp only [Table.get, dropEntry, List.find?_eq_none, List.mem_filter]
  rintro e' ⟨-, hne⟩ hk
  rw [KeyMap.beq_congr_right h, hk] at hne
  cases hne

theorem get_removeReplaced [PartialEquivBEq K] :
    ((c.removeReplaced cfg env i key).shards i).get key = none := by
  unfold removeReplaced
  split
  · assumption
  · next e he => rw [toTable_removeLocked, get_dropEntry (Table.key_of_get he)]

theorem steps_removeReplaced : Steps cfg T c (c.removeReplaced cfg env i key) := by
  unfold removeReplaced
  split
  · exact .refl
  · next e he => exact c.steps_removeLocked i (Table.mem_of_get he) .replaced

theorem steps_applySnapshotLocked [PartialEquivBEq K] {snap : SnapRecord K V} (hkey : T.takes i snap.key)
    (h₁ : 1 ≤ snap.weight) (h₂ : snap.weight ≤ maxEntryWeight) :
    Steps cfg T (c.supersedeFlight i snap.key) (c.applySnapshotLocked cfg env i snap) := by
  simp only [applySnapshotLocked]
  split
  · exact .refl
  · have hrm : Steps cfg T (c.supersedeFlight i snap.key)
        ((c.supersedeFlight i snap.key).removeReplaced cfg env i snap.key) :=
      steps_removeReplaced _ i
    have hst := hrm.trans (steps_storeEntry _ i (e := { newEntry snap.key snap.value snap.weight
      snap.inserted snap.expireAt snap.sliding snap.slidingTTL snap.tags with hits := snap.hits })
      (get_removeReplaced _ i) hkey h₁ h₂)
    exact (hst.frame (core_startJanitorFor ..)).trans ((shedding_steps _).evictTotalRounds _ i _)

/-- A queued write replaces the data of its key. -/
theorem steps_applyPendingOpLocked {op : PendingOp K V} (hop : op.Ok (T.takes i)) :
    Steps cfg T (c.supersedeFlight i op.key) (c.applyPendingOpLocked cfg env i op) := by
  unfold applyPendingOpLocked
  split
  · next hk =>
    obtain ⟨hkey, h₁, h₂⟩ := hop hk
    split_ifs
    · exact c.steps_upsertWithAbsoluteExpiryLocked i hkey h₁ h₂ _
    · exact c.steps_upsertLocked i hkey h₁ h₂ _ _ _
  · exact c.steps_removeKeyLocked i op.key .deleted

end Upsert

end Steps

end Cache

end Memcache
