import Memcache.Cache.Ops

/-!
# Caches that differ in what is only counted

Statistics, published events and the index of seen hashes are written by many functions of the cache
and read by none of those that decide what is stored. Two caches that agree on everything else are
**alike**, and stay alike under the same sections: what one evicts, sheds or keeps, the other does.
The same holds for the switch of asynchronous writes, which only the methods' entry points read.
-/

namespace Memcache

variable {K V : Type*} {n : ℕ}

/-- The options with asynchronous writes switched on or off. -/
def Config.withAsync (cfg : Config K V) (b : Bool) : Config K V := { cfg with asyncWrites := b }

/-- A shard without its index of seen hashes. -/
def Shard.bare (s : Shard K V) : Shard K V := { s with hashIndex := [] }

namespace Cache

/-- A cache without what is only counted. -/
def bare (c : Cache K V n) : Cache K V n :=
  { c with
    shards := fun i ↦ (c.shards i).bare
    stats := ⟨0, 0, 0, 0, 0, 0, 0⟩
    events := [] }

/-- The caches agree on what decides about entries. -/
def Alike (c d : Cache K V n) : Prop := c.bare = d.bare

variable {cfg : Config K V} {env : Env K} {b : Bool} {c d : Cache K V n}

namespace Alike

theorem refl (c : Cache K V n) : Alike c c := rfl

theorem symm (h : Alike c d) : Alike d c := Eq.symm h

theorem trans {a : Cache K V n} (h : Alike c d) (h' : Alike d a) : Alike c a := Eq.trans h h'

/-- What does not depend on the counts is the same. -/
theorem congr {α : Type*} (h : Alike c d) (f : Cache K V n → α) (hf : ∀ a, f a = f a.bare) :
    f c = f d := by
  rw [hf c, hf d, show c.bare = d.bare from h]

variable (h : Alike c d) (i : Fin n)
include h

theorem shard : (c.shards i).bare = (d.shards i).bare :=
  h.congr (fun a ↦ (a.shards i).bare) fun _ ↦ rfl

theorem toTable : (c.shards i).toTable = (d.shards i).toTable :=
  h.congr (fun a ↦ (a.shards i).toTable) fun _ ↦ rfl

theorem sealed : c.sealed = d.sealed := h.congr Cache.sealed fun _ ↦ rfl

theorem overBudget : c.overBudget = d.overBudget :=
  h.congr Cache.overBudget fun _ ↦ rfl

/-- A change of one shard that does not look at its seen hashes. -/
theorem modify {f g : Shard K V → Shard K V} (hf : ∀ s, (f s).bare = (f s.bare).bare)
    (hfg : ∀ s, (f s).bare = (g s).bare) : Alike (c.modify i f) (d.modify i g) := by
  have hshards : ∀ j, ((c.modify i f).shards j).bare = ((d.modify i g).shards j).bare := by
    intro j
    rcases eq_or_ne j i with rfl | hj
    · rw [modify_shards_self, modify_shards_self, hf, h.shard j, ← hf, hfg]
    · rw [modify_shards_of_ne _ _ hj, modify_shards_of_ne _ _ hj, h.shard j]
  have hrest : ({ c.bare with shards := fun j ↦ ((c.modify i f).shards j).bare } : Cache K V n) =
      { d.bare with shards := fun j ↦ ((d.modify i g).shards j).bare } := by
    rw [show c.bare = d.bare from h, funext hshards]
  exact hrest

theorem modifyTable (f : Table K V → Table K V) : Alike (c.modifyTable i f) (d.modifyTable i f) :=
  h.modify i (fun _ ↦ rfl) fun _ ↦ rfl

theorem addCounters (entries bytes : ℤ) :
    Alike (c.addCounters entries bytes) (d.addCounters entries bytes) :=
  congrArg (fun a : Cache K V n ↦ a.addCounters entries bytes) h

theorem takeId : Alike c.takeId d.takeId :=
  congrArg (fun a : Cache K V n ↦ a.takeId) h

theorem countUpdate : Alike c.countUpdate d.countUpdate := h

theorem countInsert : Alike c.countInsert d.countInsert := h

omit h in
theorem publish (cfg : Config K V) (c : Cache K V n) (ev : Event K V) : Alike (c.publish cfg ev) c := by
  unfold Cache.publish
  split_ifs
  · rfl
  · rfl

theorem startJanitorFor (expireAt : ℤ) :
    Alike (c.startJanitorFor cfg i expireAt) (d.startJanitorFor (cfg.withAsync b) i expireAt) := by
  have hint : (cfg.withAsync b).janitorInterval = cfg.janitorInterval := rfl
  unfold Cache.startJanitorFor startJanitorLocked
  rw [h.sealed, hint]
  split_ifs
  · exact h
  · exact h.modify i (fun _ ↦ rfl) fun _ ↦ rfl
  · exact h

theorem releaseShard : Alike (c.releaseShard i) (d.releaseShard i) := by
  have hcbs : (c.shards i).pendingCallbacks = (d.shards i).pendingCallbacks :=
    h.congr (fun a ↦ (a.shards i).pendingCallbacks) fun _ ↦ rfl
  have hfired : c.fired = d.fired := h.congr Cache.fired fun _ ↦ rfl
  have hmod : Alike (c.modify i fun s ↦ { s with pendingCallbacks := [] })
      (d.modify i fun s ↦ { s with pendingCallbacks := [] }) :=
    h.modify i (fun _ ↦ rfl) fun _ ↦ rfl
  unfold Cache.releaseShard
  rw [hcbs, hfired]
  exact congrArg (fun a : Cache K V n ↦ { a with fired := d.fired ++ (d.shards i).pendingCallbacks })
    hmod

theorem queueCallback (e : Entry K V) (reason : EvictionReason) :
    Alike (c.queueCallback cfg i e reason) (d.queueCallback (cfg.withAsync b) i e reason) := by
  have hlisten : (cfg.withAsync b).listening = cfg.listening := rfl
  unfold Cache.queueCallback
  rw [hlisten]
  split_ifs
  · exact h.modify i (fun _ ↦ rfl) fun _ ↦ rfl
  · exact h

variable [BEq K]

theorem supersedeFlight (key : K) : Alike (c.supersedeFlight i key) (d.supersedeFlight i key) :=
  h.modify i (fun _ ↦ rfl) fun _ ↦ rfl

theorem retagLocked (key : K) (oldTags newTags : List String) :
    Alike (c.retagLocked key oldTags newTags) (d.retagLocked key oldTags newTags) :=
  congrArg (fun a : Cache K V n ↦ a.retagLocked key oldTags newTags) h

theorem enqueueUntag (key : K) (tags : List String) :
    Alike (c.enqueueUntag env key tags) (d.enqueueUntag env key tags) := by
  unfold Cache.enqueueUntag
  split_ifs
  · exact h
  · exact congrArg (fun a : Cache K V n ↦ { a with keysByTag := untag key tags a.keysByTag }) h
  · exact congrArg
      (fun a : Cache K V n ↦ { a with untagQueue := a.untagQueue ++ [(key, tags)] }) h

theorem markInvalidated (id : ℕ) :
    Alike (c.markInvalidated cfg i id) (d.markInvalidated (cfg.withAsync b) i id) := by
  have hcount (s : Shard K V) : (countReadMiss { s with dead := id :: s.dead }).bare =
      (countReadMiss { s.bare with dead := id :: s.bare.dead }).bare := by
    unfold countReadMiss promoteReadMapLocked readMissThreshold Shard.bare
    dsimp only
    split_ifs
    · split
      · rfl
      · split_ifs <;> rfl
    · rfl
  have hlock : (cfg.withAsync b).lockFreeRead = cfg.lockFreeRead := rfl
  unfold Cache.markInvalidated
  rw [hlock]
  split_ifs
  · exact h.modify i hcount fun _ ↦ rfl
  · exact h

/-! ### Removal and eviction -/

theorem forgetHashLocked (key : K) :
    Alike (c.forgetHashLocked cfg i key) (d.forgetHashLocked (cfg.withAsync b) i key) :=
  h.modify i (fun _ ↦ rfl) fun _ ↦ rfl

theorem dropLocked (e : Entry K V) (reason : EvictionReason) :
    Alike (c.dropLocked cfg env i e reason) (d.dropLocked (cfg.withAsync b) env i e reason) :=
  (((((h.modifyTable i _).forgetHashLocked i e.key).enqueueUntag e.key e.tags).addCounters (-1)
    (-e.weight)).markInvalidated i e.id).queueCallback i e reason

theorem removeLocked (e : Entry K V) (reason : EvictionReason) :
    Alike (c.removeLocked cfg env i e reason) (d.removeLocked (cfg.withAsync b) env i e reason) := by
  unfold Cache.removeLocked
  split_ifs
  · exact (h.supersedeFlight i e.key).dropLocked i e reason
  · exact h.dropLocked i e reason

theorem evict (r : Ref K) (p : Policy K) (reason : EvictionReason) :
    Alike (c.evict cfg env i r p reason) (d.evict (cfg.withAsync b) env i r p reason) := by
  have hp : Alike (c.modifyTable i fun t ↦ { t with policy := p })
      (d.modifyTable i fun t ↦ { t with policy := p }) := h.modifyTable i _
  unfold Cache.evict
  dsimp only
  rw [hp.toTable i]
  split
  · exact hp
  · next e _ => exact hp.removeLocked i e reason

theorem nextVictim (keep : ℕ) : c.nextVictim cfg i keep = d.nextVictim (cfg.withAsync b) i keep :=
  h.congr (fun a ↦ a.nextVictim cfg i keep) fun _ ↦ rfl

theorem evictRounds (reason : EvictionReason) (keep fuel : ℕ) :
    Alike (evictRounds cfg env i reason keep fuel c).1
      (Cache.evictRounds (cfg.withAsync b) env i reason keep fuel d).1 ∧
      (Cache.evictRounds cfg env i reason keep fuel c).2 =
      (Cache.evictRounds (cfg.withAsync b) env i reason keep fuel d).2 := by
  induction fuel generalizing c d with
  | zero => exact ⟨h, rfl⟩
  | succ fuel ih =>
    unfold Cache.evictRounds
    rw [← h.nextVictim i keep]
    rcases c.nextVictim cfg i keep with ⟨- | r, p⟩
    · exact ⟨h.modifyTable i fun t ↦ { t with policy := p }, rfl⟩
    · obtain ⟨hrest, hcount⟩ := ih (h.evict i r p reason)
      exact ⟨hrest, congrArg (· + 1) hcount⟩

theorem evictOverBudgetLocked (reason : EvictionReason) (keep : ℕ) :
    Alike (c.evictOverBudgetLocked cfg env i reason keep).1
      (d.evictOverBudgetLocked (cfg.withAsync b) env i reason keep).1 ∧
      (c.evictOverBudgetLocked cfg env i reason keep).2 =
      (d.evictOverBudgetLocked (cfg.withAsync b) env i reason keep).2 := by
  unfold Cache.evictOverBudgetLocked
  rw [h.toTable i]
  exact h.evictRounds i reason keep _

theorem shed (reason : EvictionReason) (i : Fin n) :
    Alike (c.shed cfg env reason i).1 (d.shed (cfg.withAsync b) env reason i).1 ∧
      (c.shed cfg env reason i).2 = (d.shed (cfg.withAsync b) env reason i).2 := by
  unfold Cache.shed
  rw [h.overBudget]
  split_ifs
  · obtain ⟨hrest, hcount⟩ := h.evictOverBudgetLocked i reason 0
    exact ⟨hrest.releaseShard i, hcount⟩
  · exact ⟨h, rfl⟩

theorem shedAll (reason : EvictionReason) (is : List (Fin n)) :
    Alike (shedAll cfg env reason is c).1 (Cache.shedAll (cfg.withAsync b) env reason is d).1 ∧
      (Cache.shedAll cfg env reason is c).2 = (Cache.shedAll (cfg.withAsync b) env reason is d).2 := by
  induction is generalizing c d with
  | nil => exact ⟨h, rfl⟩
  | cons i is ih =>
    obtain ⟨hfirst, hcount⟩ := h.shed reason i
    obtain ⟨hrest, hcounts⟩ := ih hfirst
    exact ⟨hrest, congrArg₂ (· + ·) hcount hcounts⟩

/-! ### Upserts -/

omit h in
theorem recordHashCollisionLocked (cfg : Config K V) (c : Cache K V n) (i : Fin n) (key : K) :
    Alike (c.recordHashCollisionLocked cfg i key) c := by
  have hindex (index : List (UInt64 × K)) :
      Alike (c.modify i fun s ↦ { s with hashIndex := index }) c := by
    have hsame : (c.modify i fun s ↦ s) = c := by simp [Cache.modify]
    nth_rewrite 2 [← hsame]
    exact (refl c).modify i (fun _ ↦ rfl) fun _ ↦ rfl
  unfold Cache.recordHashCollisionLocked
  dsimp only
  split_ifs
  · exact refl c
  · exact hindex _
  · exact hindex _

theorem overwriteLocked (key : K) (e : Entry K V) (value : V) (weight expireAt : ℤ) (sliding : Bool)
    (rawTTL : ℤ) (tags : List String) :
    Alike (c.overwriteLocked cfg env i key e value weight expireAt sliding rawTTL tags)
      (d.overwriteLocked (cfg.withAsync b) env i key e value weight expireAt sliding rawTTL tags) := by
  have hrow := ((h.addCounters 0 (-e.weight + weight)).retagLocked key e.tags tags).modifyTable i
    fun t ↦ rewriteEntry cfg.hash t
      (overwritten e value weight env.now expireAt sliding rawTTL tags)
  exact hrow.countUpdate.startJanitorFor i expireAt

theorem insertLocked (e : Entry K V) :
    Alike (c.insertLocked cfg env i e) (d.insertLocked (cfg.withAsync b) env i e) := by
  have hid : c.nextId = d.nextId := h.congr Cache.nextId fun _ ↦ rfl
  have hstore : Alike (c.storeEntry cfg i e) (d.storeEntry (cfg.withAsync b) i e) := by
    have hrow := h.modifyTable i fun t ↦ addEntry cfg.hash t { e with id := d.nextId }
    have hamend : Alike (Cache.markAmended _ i) (Cache.markAmended _ i) :=
      hrow.modify i (fun _ ↦ rfl) fun _ ↦ rfl
    unfold Cache.storeEntry
    rw [hid]
    exact ((hamend.retagLocked e.key [] e.tags).addCounters 1 e.weight).takeId
  exact ((hstore.countInsert.startJanitorFor i e.expireAt).evictOverBudgetLocked i .capacity 1).1

theorem upsertWithAbsoluteExpiryLocked (key : K) (value : V) (weight expireAt : ℤ)
    (tags : List String) :
    Alike (c.upsertWithAbsoluteExpiryLocked cfg env i key value weight expireAt tags)
      (d.upsertWithAbsoluteExpiryLocked (cfg.withAsync b) env i key value weight expireAt tags) := by
  have hmark := h.supersedeFlight i key
  unfold Cache.upsertWithAbsoluteExpiryLocked
  dsimp only
  rw [hmark.sealed, hmark.toTable i]
  split_ifs
  · exact hmark
  · split
    · exact hmark.overwriteLocked ..
    · exact hmark.insertLocked i _

/-- An upsert with a TTL of zero that does not slide is one with no absolute expiry, but for what is
counted on the way. -/
theorem upsertLocked_zero {key : K} (hallow : env.admits key = true) (value : V) (weight rawTTL : ℤ)
    (tags : List String) :
    Alike (c.upsertWithAbsoluteExpiryLocked cfg env i key value weight 0 tags)
      (d.upsertLocked (cfg.withAsync b) env i key value weight 0 false rawTTL tags) := by
  have hmark := h.supersedeFlight i key
  unfold Cache.upsertWithAbsoluteExpiryLocked upsertLocked
  dsimp only
  rw [hmark.sealed, hmark.toTable i]
  rcases Bool.eq_false_or_eq_true (d.supersedeFlight i key).sealed with hs | hs
  · rw [if_pos hs, if_pos hs]
    exact hmark
  · rw [if_neg (by simp [hs]), if_neg (by simp [hs])]
    split
    · exact (hmark.overwriteLocked ..).trans (publish ..).symm
    · rw [if_neg (by simp [hallow])]
      exact ((hmark.trans (recordHashCollisionLocked ..).symm).insertLocked i _).trans
        (publish ..).symm

theorem upsertLocked (key : K) (value : V) (weight effectiveTTL : ℤ) (sliding : Bool) (rawTTL : ℤ)
    (tags : List String) :
    Alike (c.upsertLocked cfg env i key value weight effectiveTTL sliding rawTTL tags)
      (d.upsertLocked (cfg.withAsync b) env i key value weight effectiveTTL sliding rawTTL tags) := by
  have hmark := h.supersedeFlight i key
  unfold Cache.upsertLocked
  dsimp only
  rw [hmark.sealed, hmark.toTable i]
  split_ifs
  · exact hmark
  · split
    · exact ((publish ..).trans (hmark.overwriteLocked ..)).trans (publish ..).symm
    · exact hmark
  · split
    · exact ((publish ..).trans (hmark.overwriteLocked ..)).trans (publish ..).symm
    · have hseen : Alike ((c.supersedeFlight i key).recordHashCollisionLocked cfg i key)
          ((d.supersedeFlight i key).recordHashCollisionLocked (cfg.withAsync b) i key) :=
        ((recordHashCollisionLocked ..).trans hmark).trans (recordHashCollisionLocked ..).symm
      exact ((publish ..).trans (hseen.insertLocked i _)).trans (publish ..).symm

variable [NeZero n]

theorem shedPass (reason : EvictionReason) (last : Option (Fin n)) :
    Alike (c.shedPass cfg env reason last).1 (d.shedPass (cfg.withAsync b) env reason last).1 ∧
      (c.shedPass cfg env reason last).2 = (d.shedPass (cfg.withAsync b) env reason last).2 := by
  have hstart : c.shedNext = d.shedNext := h.congr Cache.shedNext fun _ ↦ rfl
  have hnext : Alike { c with shedNext := d.shedNext + 1 } { d with shedNext := d.shedNext + 1 } :=
    congrArg (fun a : Cache K V n ↦ ({ a with shedNext := d.shedNext + 1 } : Cache K V n)) h
  unfold Cache.shedPass
  rw [hstart]
  exact hnext.shedAll reason _

theorem shedPasses (reason : EvictionReason) (last : Option (Fin n)) (fuel : ℕ) :
    Alike (shedPasses cfg env reason last fuel c)
      (Cache.shedPasses (cfg.withAsync b) env reason last fuel d) := by
  induction fuel generalizing c d with
  | zero => exact h
  | succ fuel ih =>
    obtain ⟨hpass, hcount⟩ := h.shedPass reason last
    unfold Cache.shedPasses
    rw [h.overBudget]
    dsimp only
    split_ifs with hover h₁ h₂ h₂
    · exact hpass
    · exact absurd (hcount.symm.trans h₁) h₂
    · exact absurd (hcount.trans h₂) h₁
    · exact ih hpass
    · exact h

theorem shedOverBudget (reason : EvictionReason) (last : Option (Fin n)) :
    Alike (c.shedOverBudget cfg env reason last)
      (d.shedOverBudget (cfg.withAsync b) env reason last) := by
  have hcount : c.trackedCount = d.trackedCount := h.congr trackedCount fun _ ↦ rfl
  unfold Cache.shedOverBudget
  rw [hcount]
  exact h.shedPasses reason last _

theorem flushAndUnlock :
    Alike (c.flushAndUnlock cfg env i) (d.flushAndUnlock (cfg.withAsync b) env i) :=
  (h.releaseShard i).shedOverBudget .capacity (some i)

/-! ### Groups -/

theorem removeAndFlush (key : K) (reason : EvictionReason) :
    Alike (c.removeAndFlush cfg env key reason)
      (d.removeAndFlush (cfg.withAsync b) env key reason) := by
  have hshard : (shardFor (cfg.withAsync b) key : Fin n) = shardFor cfg key := rfl
  unfold Cache.removeAndFlush
  dsimp only
  rw [hshard, h.toTable]
  split
  · exact h.flushAndUnlock _
  · exact (h.removeLocked _ _ reason).flushAndUnlock _

theorem shrinkGroup (tag : String) (capacity fuel : ℕ) :
    Alike (shrinkGroup cfg env tag capacity fuel c)
      (Cache.shrinkGroup (cfg.withAsync b) env tag capacity fuel d) := by
  induction fuel generalizing c d with
  | zero => exact h
  | succ fuel ih =>
    have hlive : c.countLiveMembers cfg (c.tagged tag) =
        d.countLiveMembers (cfg.withAsync b) (d.tagged tag) :=
      h.congr (fun a ↦ a.countLiveMembers cfg (a.tagged tag)) fun _ ↦ rfl
    have holdest : c.findOldestMember cfg (c.tagged tag) =
        d.findOldestMember (cfg.withAsync b) (d.tagged tag) :=
      h.congr (fun a ↦ a.findOldestMember cfg (a.tagged tag)) fun _ ↦ rfl
    unfold Cache.shrinkGroup
    rw [hlive, holdest]
    split_ifs
    · exact h
    · split
      · exact h
      · next k _ => exact ih (h.removeAndFlush k .tag)

theorem enforceGroupBudgets (tags : List String) :
    Alike (c.enforceGroupBudgets cfg env tags) (d.enforceGroupBudgets (cfg.withAsync b) env tags) := by
  unfold Cache.enforceGroupBudgets
  induction tags generalizing c d with
  | nil => exact h
  | cons tag tags ih =>
    refine ih ?_
    have hstored : c.stored = d.stored := h.congr Cache.stored fun _ ↦ rfl
    have hgroups : (cfg.withAsync b).groups = cfg.groups := rfl
    dsimp only
    rw [hgroups, hstored]
    cases hg : cfg.groups.find? fun g ↦ g.1 = tag with
    | none => exact h
    | some g => exact h.shrinkGroup tag g.2 _

end Alike

end Cache

end Memcache
