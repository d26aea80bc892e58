import Memcache.Cache.Put
import Memcache.Cache.Insert
import Memcache.Cache.Reached

/-!
# What stays when nothing is evicted

Every eviction is counted, so a section after which the counter is where it was has evicted nothing.
`Keeps` says what such a section leaves alone, `Assigns` what it makes of a shard: **the keys it
assigns hold what it assigned to them, and every other key what it held**.

The entries in question are plain: they do not expire, nor does a read make them.
-/

namespace Memcache

variable {K V : Type*} {n : ℕ} [BEq K]

/-- An entry that never expires. -/
structure Entry.Plain (e : Entry K V) : Prop where
  expireAt : e.expireAt = 0
  negative : e.negative = false
  sliding : e.sliding = true → e.slidingTTL ≤ 0

/-- A lookup in a table with one entry rewritten. -/
theorem Table.get_put_eq {t : Table K V} {e e' : Entry K V} (hd : NodeList.Distinct Entry.id t.storage)
    (hmem : e ∈ t.storage) (hid : e'.id = e.id) (hkey : e'.key = e.key) (key : K) :
    (t.put e').get key = (t.get key).map fun a ↦ if a.id = e'.id then e' else a := by
  refine NodeList.find?_replace fun a ha hae ↦ ?_
  rw [hkey, hd.eq_of_ident ha hmem (hae.trans hid)]

namespace Cache

variable {cfg : Config K V} {env : Env K} {c c' c'' : Cache K V n} {i : Fin n}

/-- Storage is as it was, unless an eviction was counted. -/
structure Keeps (c c' : Cache K V n) : Prop extends Frame c c' where
  counted : c.stats.evictions ≤ c'.stats.evictions
  storage : c'.stats.evictions = c.stats.evictions →
    ∀ j, (c'.shards j).storage = (c.shards j).storage

namespace Keeps

theorem of_core (hf : Frame c c') (hcore : c'.core = c.core)
    (hst : c'.stats.evictions = c.stats.evictions) : Keeps c c' :=
  ⟨hf, hst.ge, fun _ j ↦ by rw [toTable_of_core hcore j]⟩

theorem refl (c : Cache K V n) : Keeps c c := of_core (.refl c) rfl rfl

theorem trans (h : Keeps c c') (h' : Keeps c' c'') : Keeps c c'' where
  toFrame := h.toFrame.trans h'.toFrame
  counted := h.counted.trans h'.counted
  storage heq j := by
    -- the counter went up in neither part
    have hle := h.counted
    have hle' := h'.counted
    rw [h'.storage (by omega) j, h.storage (by omega) j]

end Keeps

/-! ### Sections that evict at most -/

variable (c)

omit [BEq K] in
theorem stats_startJanitorFor (i : Fin n) (expireAt : ℤ) :
    (c.startJanitorFor cfg i expireAt).stats = c.stats := by
  unfold startJanitorFor startJanitorLocked
  split_ifs <;> rfl

theorem stats_removeLocked (i : Fin n) (e : Entry K V) (reason : EvictionReason) :
    (c.removeLocked cfg env i e reason).stats = c.stats := by
  unfold removeLocked dropLocked queueCallback markInvalidated enqueueUntag
  split_ifs <;> rfl

theorem keeps_startJanitorFor (expireAt : ℤ) : Keeps c (c.startJanitorFor cfg i expireAt) :=
  .of_core (sheds_startJanitorFor c expireAt).toFrame (core_startJanitorFor ..)
    (by rw [stats_startJanitorFor])

theorem keeps_publish (ev : Event K V) : Keeps c (c.publish cfg ev) := by
  refine .of_core (sheds_publish c ev).toFrame (core_publish ..) ?_
  unfold publish
  split_ifs <;> rfl

theorem keeps_releaseShard : Keeps c (c.releaseShard i) :=
  .of_core (sheds_releaseShard c).toFrame (core_releaseShard ..) rfl

theorem keeps_recordHashCollisionLocked (key : K) :
    Keeps c (c.recordHashCollisionLocked cfg i key) := by
  refine .of_core (sheds_recordHashCollisionLocked c key).toFrame
    (core_recordHashCollisionLocked ..) ?_
  unfold recordHashCollisionLocked
  dsimp only
  split_ifs <;> rfl

theorem keeps_supersedeFlight [PartialEquivBEq K] (key : K) :
    Keeps c (c.supersedeFlight i key) where
  toFrame := (fades_supersedeFlight c key).toFrame
  counted := le_rfl
  storage _ j := modify_cases j rfl fun _ _ ↦ rfl

theorem keeps_policy (p : Policy K) : Keeps c (c.modifyTable i fun t ↦ { t with policy := p }) where
  toFrame := (sheds_policy c p).toFrame
  counted := le_rfl
  storage _ j := modify_cases j rfl fun _ _ ↦ rfl

variable [PartialEquivBEq K] {reason : EvictionReason}

theorem keeps_evict (r : Ref K) (p : Policy K) (hr : supersedesFlight reason = false) :
    Keeps c (c.evict cfg env i r p reason) := by
  have hframe : Frame c (c.evict cfg env i r p reason) := (sheds_evict c r p hr).toFrame
  unfold evict at hframe ⊢
  dsimp only at hframe ⊢
  split
  · exact keeps_policy c p
  · next e he =>
    rw [he] at hframe
    -- an entry that goes is counted
    have hcount : ((c.modifyTable i fun t ↦ { t with policy := p }).removeLocked cfg env i e
        reason).countEviction.stats.evictions = c.stats.evictions + 1 := by
      show ((c.modifyTable i fun t ↦ { t with policy := p }).removeLocked cfg env i e
        reason).stats.evictions + 1 = _
      rw [stats_removeLocked]
      rfl
    exact ⟨hframe, by omega, fun heq ↦ by omega⟩

theorem shedding_keeps (hr : supersedesFlight reason = false) :
    Shedding cfg env reason (Keeps (K := K) (V := V) (n := n)) where
  refl := .refl
  trans := .trans
  policy c _ p _ := keeps_policy c p
  evict c _ r p _ := keeps_evict c r p hr
  release c _ := keeps_releaseShard c
  next c k :=
    have hnext : Sheds c { c with shedNext := k } := sheds_of_shards rfl rfl rfl
    .of_core hnext.toFrame rfl rfl

theorem keeps_shedOverBudget [NeZero n] (hr : supersedesFlight reason = false)
    (last : Option (Fin n)) : Keeps c (c.shedOverBudget cfg env reason last) :=
  (shedding_keeps hr).shedOverBudget c last

theorem keeps_flushAndUnlock [NeZero n] : Keeps c (c.flushAndUnlock cfg env i) :=
  (shedding_keeps rfl).flushAndUnlock c i

/-! ### Sections that assign -/

variable {c}

/-- A shard holds what `g` assigns to its keys, and under the others what it held, unless an eviction
was counted. -/
structure Assigns (c c' : Cache K V n) (i : Fin n) (g : K → Option (Option V)) : Prop
    extends Frame c c' where
  counted : c.stats.evictions ≤ c'.stats.evictions
  others : c'.stats.evictions = c.stats.evictions →
    ∀ j ≠ i, (c'.shards j).storage = (c.shards j).storage
  value : c'.stats.evictions = c.stats.evictions → ∀ k, ((c'.shards i).get k).map Entry.value =
    (g k).getD (((c.shards i).get k).map Entry.value)
  plain : c'.stats.evictions = c.stats.evictions →
    (∀ e ∈ (c.shards i).storage, e.Plain) → ∀ e ∈ (c'.shards i).storage, e.Plain

/-- One key is assigned. -/
def assign (key : K) (v : Option V) (k : K) : Option (Option V) := if key == k then some v else none

namespace Assigns

variable {g g' : K → Option (Option V)}

omit [PartialEquivBEq K] in
theorem of_keeps (h : Keeps c c') : Assigns c c' i fun _ ↦ none where
  toFrame := h.toFrame
  counted := h.counted
  others heq j _ := h.storage heq j
  value heq k := by
    show Option.map Entry.value ((c'.shards i).storage.find? _) = _
    rw [h.storage heq i]
    rfl
  plain heq hp := h.storage heq i ▸ hp

omit [PartialEquivBEq K] in
/-- What is assigned later counts. -/
theorem trans (h : Assigns c c' i g) (h' : Assigns c' c'' i g') :
    Assigns c c'' i fun k ↦ (g' k).or (g k) := by
  have both (heq : c''.stats.evictions = c.stats.evictions) :
      c'.stats.evictions = c.stats.evictions ∧ c''.stats.evictions = c'.stats.evictions := by
    have hle := h.counted
    have hle' := h'.counted
    omega
  refine ⟨h.toFrame.trans h'.toFrame, h.counted.trans h'.counted, fun heq j hj ↦ ?_,
    fun heq k ↦ ?_, fun heq hp ↦ ?_⟩
  · exact (h'.others (both heq).2 j hj).trans (h.others (both heq).1 j hj)
  · rw [h'.value (both heq).2 k, h.value (both heq).1 k]
    rcases g' k with - | v <;> rfl
  · exact h'.plain (both heq).2 (h.plain (both heq).1 hp)

omit [PartialEquivBEq K] in
theorem keeps (h : Assigns c c' i g) (h' : Keeps c' c'') : Assigns c c'' i g :=
  h.trans (of_keeps h')

omit [PartialEquivBEq K] in
theorem after (h : Keeps c c') (h' : Assigns c' c'' i g) : Assigns c c'' i g := by
  have := (of_keeps (i := i) h).trans h'
  simpa only [Option.or_none] using this

end Assigns

/-- A key's entry is overwritten. -/
theorem assigns_overwriteLocked {key : K} {e : Entry K V} (he : (c.shards i).get key = some e)
    (hd : NodeList.Distinct Entry.id (c.shards i).storage) (value : V) (weight : ℤ) {sliding : Bool}
    {rawTTL : ℤ} (hslide : sliding = true → rawTTL ≤ 0) (tags : List String) :
    Assigns c (c.overwriteLocked cfg env i key e value weight 0 sliding rawTTL tags) i
      (assign key (some value)) := by
  set e' := overwritten e value weight env.now 0 sliding rawTTL tags with he'
  have hcore : (c.overwriteLocked cfg env i key e value weight 0 sliding rawTTL tags).core =
      (c.core.set i { c.core.shards i with
        toTable := rewriteEntry cfg.hash (c.core.shards i).toTable e' }).add 0 (-e.weight + weight) := by
    simp [overwriteLocked, ← he']
  have hself : ((c.overwriteLocked cfg env i key e value weight 0 sliding rawTTL tags).shards
      i).storage = ((c.shards i).toTable.put e').storage := by
    have := congrArg (fun d ↦ (d.shards i).storage) hcore
    rwa [Core.add_shards, Core.set_shards_self] at this
  have hmem : e ∈ (c.shards i).storage := Table.mem_of_get he
  refine ⟨(get_overwriteLocked cfg env he value weight 0 sliding rawTTL tags).1.toFrame, ?_,
    fun _ j hj ↦ ?_, fun _ k ↦ ?_, fun _ hp a ha ↦ ?_⟩
  · unfold overwriteLocked
    rw [stats_startJanitorFor]
    exact le_rfl
  · have := congrArg (fun d ↦ (d.shards j).storage) hcore
    rwa [Core.add_shards, Core.set_shards_of_ne _ _ hj] at this
  · show Option.map _ (List.find? _ _) = _
    rw [hself]
    show Option.map _ (((c.shards i).toTable.put e').get k) = _
    have hid : e'.id = e.id := rfl
    rw [Table.get_put_eq hd hmem hid rfl, Option.map_map]
    unfold assign
    split_ifs with hk
    · rw [← Table.get_congr hk, he]
      simp [he', overwritten]
    · rcases hold : (c.shards i).get k with - | a
      · rfl
      · -- what another key holds has another identity
        have hne : a.id ≠ e'.id := by
          intro hid
          obtain rfl := hd.eq_of_ident (Table.mem_of_get hold) hmem hid
          exact hk (PartialEquivBEq.trans (BEq.symm (Table.key_of_get he)) (Table.key_of_get hold))
        simp [hne]
  · rw [hself] at ha
    rcases NodeList.mem_replace ha with rfl | ⟨ha, -⟩
    · refine ⟨rfl, rfl, fun hs ↦ ?_⟩
      show (if sliding then rawTTL else 0) ≤ 0
      split_ifs with hsl
      · exact hslide hsl
      · exact le_rfl
    · exact hp a ha

/-- A key that was absent is stored. -/
theorem assigns_storeEntry (cfg : Config K V) {e : Entry K V} (habsent : (c.shards i).get e.key = none)
    (hplain : e.Plain) : Assigns c (c.storeEntry cfg i e) i (assign e.key (some e.value)) := by
  have hself : ((c.storeEntry cfg i e).shards i).storage =
      (c.shards i).storage ++ [{ e with id := c.nextId }] := by
    rw [toTable_storeEntry]
    rfl
  refine ⟨(still_storeEntry cfg c i e).toFrame, le_rfl, fun _ j hj ↦ ?_, fun _ k ↦ ?_,
    fun _ hp a ha ↦ ?_⟩
  · have := congrArg (fun d ↦ (d.shards j).storage) (c.core_storeEntry i cfg e)
    rwa [Core.bump_shards, Core.add_shards, Core.set_shards_of_ne _ _ hj] at this
  · show Option.map _ (List.find? _ _) = _
    rw [hself, List.find?_append]
    unfold assign
    split_ifs with hk
    · have hnone : (c.shards i).storage.find? (fun a ↦ a.key == k) = none := by
        rw [← habsent]
        exact (Table.get_congr hk).symm
      simp [hnone, hk]
    · have hnone : List.find? (fun a : Entry K V ↦ a.key == k) [{ e with id := c.nextId }] = none := by
        simpa using hk
      rw [hnone, Option.or_none]
      rfl
  · rw [hself] at ha
    rcases List.mem_append.1 ha with ha | ha
    · exact hp a ha
    · obtain rfl := List.mem_singleton.1 ha
      exact ⟨hplain.expireAt, hplain.negative, hplain.sliding⟩

/-- **An upsert without a TTL assigns its value.** -/
theorem assigns_upsertLocked {key : K} (hd : NodeList.Distinct Entry.id (c.shards i).storage)
    (hopen : c.sealed = false) (hallow : env.admits key = true) (value : V) (weight : ℤ)
    {effectiveTTL : ℤ} (httl : effectiveTTL ≤ 0) {sliding : Bool} {rawTTL : ℤ}
    (hslide : sliding = true → rawTTL ≤ 0) (tags : List String) :
    Assigns c (c.upsertLocked cfg env i key value weight effectiveTTL sliding rawTTL tags) i
      (assign key (some value)) := by
  have hzero : deadline env effectiveTTL = 0 := if_neg (not_lt.2 httl)
  have hsup : Keeps c (c.supersedeFlight i key) := keeps_supersedeFlight c key
  have hd' : NodeList.Distinct Entry.id ((c.supersedeFlight i key).shards i).storage := by
    simpa [supersedeFlight] using hd
  refine .after hsup ?_
  unfold upsertLocked
  dsimp only
  rw [show (c.supersedeFlight i key).sealed = false from hopen, if_neg Bool.false_ne_true, hzero]
  rcases hold : ((c.supersedeFlight i key).shards i).get key with - | e
  · dsimp only
    rw [hallow]
    have hhash : Keeps (c.supersedeFlight i key)
        ((c.supersedeFlight i key).recordHashCollisionLocked cfg i key) :=
      keeps_recordHashCollisionLocked _ key
    refine .after hhash (Assigns.keeps ?_ (keeps_publish _ _))
    set e := newEntry key value weight env.now 0 sliding rawTTL tags with he
    have hplain : e.Plain := by
      refine ⟨rfl, rfl, fun _ ↦ ?_⟩
      show (if sliding then rawTTL else 0) ≤ 0
      split_ifs with hsl
      · exact hslide hsl
      · exact le_rfl
    have habsent : (((c.supersedeFlight i key).recordHashCollisionLocked cfg i key).shards i).get
        e.key = none :=
      (sheds_recordHashCollisionLocked _ key).get_eq_none hold
    have hcount (d : Cache K V n) : Keeps d d.countInsert :=
      .of_core ((Sheds.refl d).count _).toFrame rfl rfl
    refine Assigns.keeps (assigns_storeEntry cfg habsent hplain) ?_
    exact ((hcount _).trans (keeps_startJanitorFor _ _)).trans ((shedding_keeps rfl).evictRounds _ i 1 _)
  · exact (assigns_overwriteLocked hold hd' value weight hslide tags).keeps (keeps_publish _ _)

omit [PartialEquivBEq K] in
/-- A key that is absent holds nothing. -/
theorem assigns_none [PartialEquivBEq K] {key : K} (h : (c.shards i).get key = none) :
    Assigns c c i (assign key none) := by
  refine ⟨.refl c, le_rfl, fun _ _ _ ↦ rfl, fun _ k ↦ ?_, fun _ hp ↦ hp⟩
  unfold assign
  split_ifs with hk
  · rw [← Table.get_congr hk, h]
    rfl
  · rfl

theorem assigns_removeLocked {key : K} {e : Entry K V} (hk : e.key == key)
    (reason : EvictionReason) :
    Assigns c (c.removeLocked cfg env i e reason) i (assign key none) := by
  have hself : ((c.removeLocked cfg env i e reason).shards i).toTable =
      dropEntry (c.shards i).toTable e := toTable_removeLocked ..
  refine ⟨(fades_removeLocked c e reason).toFrame, by rw [stats_removeLocked], fun _ j hj ↦ ?_,
    fun _ k ↦ ?_, fun _ hp a ha ↦ ?_⟩
  · obtain ⟨s, hcore, -⟩ := c.core_removeLocked cfg env i e reason
    have := congrArg (fun d ↦ (d.shards j).storage) hcore
    rwa [Core.add_shards, Core.set_shards_of_ne _ _ hj] at this
  · rw [hself]
    unfold assign
    split_ifs with hkk
    · rw [get_dropEntry (PartialEquivBEq.trans hk hkk)]
      rfl
    · have hne : (e.key == k) = false :=
        Bool.eq_false_iff.2 fun h ↦ hkk (PartialEquivBEq.trans (BEq.symm hk) h)
      rw [Table.get_dropEntry_of_ne _ hne]
      rfl
  · rw [hself] at ha
    exact hp a (List.mem_filter.1 ha).1

/-- **A delete assigns nothing to its key.** -/
theorem assigns_removeKeyLocked (key : K) (reason : EvictionReason) :
    Assigns c (c.removeKeyLocked cfg env i key reason) i (assign key none) := by
  refine .after (keeps_supersedeFlight (i := i) c key) ?_
  unfold removeKeyLocked
  dsimp only
  split
  · next hnone => exact assigns_none hnone
  · next e he =>
    have hdrop : Assigns (c.supersedeFlight i key)
        ((c.supersedeFlight i key).removeLocked cfg env i e reason) i (assign key none) :=
      assigns_removeLocked (Table.key_of_get he) reason
    split_ifs
    · exact hdrop
    · exact hdrop.keeps (.of_core ((Sheds.refl _).count _).toFrame rfl rfl)

end Cache

end Memcache
