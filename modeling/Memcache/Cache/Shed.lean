import Memcache.Cache.Invariant

/-!
# Back within the bounds

Three loops cooperate on the bounds: a shard evicts after an insert and keeps one entry, a sweep over
the shards then sheds what is left to shed and keeps none, and a snapshot load evicts against the
total. The sweep alone carries the guarantee. It visits every shard, and each visit leaves the cache
within its bounds or that shard **empty**, because `shedVictim` has an answer as long as the policy
tracks anything; so after one sweep the cache is within its bounds or holds nothing at all
(`Core.Settled`).
-/

namespace Memcache

variable {K V : Type*} {n : ℕ}

namespace Core

/-- Whether the counters are above the live bounds. -/
def overBudget (c : Core K V n) : Bool :=
  (0 < c.maxEntries ∧ (c.maxEntries : ℤ) < c.entries) ∨
    (0 < c.maxBytes ∧ (c.maxBytes : ℤ) < c.bytes)

/-- Within the bounds, or empty. -/
def Settled (c : Core K V n) : Prop :=
  c.overBudget = false ∨ ∀ i, (c.shards i).storage = []

end Core

namespace Cache

variable [BEq K] (cfg : Config K V) (env : Env K) (c : Cache K V n) (i : Fin n)

/-! ### What a removal does to the table and the counters -/

theorem budget_countReadMiss (s : Shard K V) : (countReadMiss s).budget = s.budget := by
  unfold countReadMiss promoteReadMapLocked
  split_ifs
  · split
    · rfl
    · split_ifs <;> rfl
  · rfl

/-- One shard loses an entry, and the counters its share. -/
theorem core_dropLocked (e : Entry K V) (reason : EvictionReason) :
    ∃ s : CoreShard K V, (c.dropLocked cfg env i e reason).core =
        (c.core.set i s).add (-1) (-e.weight) ∧
      s.toTable = dropEntry (c.core.shards i).toTable e ∧
      s.budget = (c.core.shards i).budget := by
  simp only [dropLocked, core_queueCallback]
  generalize hd : ((((c.modifyTable i fun t ↦ dropEntry t e).forgetHashLocked cfg i
    e.key).enqueueUntag env e.key e.tags).addCounters (-1) (-e.weight)) = d
  have hcore : d.core = (c.core.set i { c.core.shards i with
      toTable := dropEntry (c.core.shards i).toTable e }).add (-1) (-e.weight) := by
    rw [← hd]
    simp
  have hshard : d.core.shards i = { c.core.shards i with
      toTable := dropEntry (c.core.shards i).toTable e } := by
    rw [hcore, Core.add_shards, Core.set_shards_self]
  unfold markInvalidated
  split_ifs
  · refine ⟨(countReadMiss { d.shards i with dead := e.id :: (d.shards i).dead }).core, ?_, ?_, ?_⟩
    · rw [core_modify, hcore, Core.add_set, Core.set_set]
    · show (countReadMiss _).toTable = _
      rw [toTable_countReadMiss]
      exact congrArg CoreShard.toTable hshard
    · show (countReadMiss _).budget = _
      rw [budget_countReadMiss]
      exact congrArg CoreShard.budget hshard
  · exact ⟨_, hcore, rfl, rfl⟩

theorem core_removeLocked (e : Entry K V) (reason : EvictionReason) :
    ∃ s : CoreShard K V, (c.removeLocked cfg env i e reason).core =
        (c.core.set i s).add (-1) (-e.weight) ∧
      s.toTable = dropEntry (c.core.shards i).toTable e ∧
      s.budget = (c.core.shards i).budget := by
  unfold removeLocked
  split_ifs
  · obtain ⟨s, hcore, hs⟩ := (c.supersedeFlight i e.key).core_dropLocked cfg env i e reason
    rw [core_supersedeFlight, Core.set_set] at hcore
    rw [core_supersedeFlight, Core.set_shards_self] at hs
    exact ⟨s, hcore, hs⟩
  · exact c.core_dropLocked cfg env i e reason

/-- The victim leaves with the policy as the choice of it left it. -/
theorem core_evict {r : Ref K} {p : Policy K} {e : Entry K V}
    (hsome : (c.shards i).byId r.id = some e) (reason : EvictionReason) :
    ∃ s : CoreShard K V, (c.evict cfg env i r p reason).core =
        (c.core.set i s).add (-1) (-e.weight) ∧
      s.toTable = dropEntry { (c.core.shards i).toTable with policy := p } e ∧
      s.budget = (c.core.shards i).budget := by
  have hsome' : ((c.modifyTable i fun t ↦ { t with policy := p }).shards i).byId r.id = some e := by
    rw [modifyTable_toTable]
    exact hsome
  obtain ⟨s, hcore, hs⟩ := (c.modifyTable i fun t ↦ { t with policy := p }).core_removeLocked
    cfg env i e reason
  rw [core_modifyTable, Core.set_set] at hcore
  rw [core_modifyTable, Core.set_shards_self] at hs
  refine ⟨s, ?_, hs⟩
  simp only [evict, hsome', core_countEviction]
  exact hcore

theorem evict_of_none {r : Ref K} {p : Policy K} (hnone : (c.shards i).byId r.id = none)
    (reason : EvictionReason) :
    c.evict cfg env i r p reason = c.modifyTable i fun t ↦ { t with policy := p } := by
  have hnone' : ((c.modifyTable i fun t ↦ { t with policy := p }).shards i).byId r.id = none := by
    rw [modifyTable_toTable]
    exact hnone
  simp only [evict, hnone']

/-! ### One shard -/

variable {cfg env c i} [PartialEquivBEq K]

theorem inv_of_steps {T : Licence K V} [T.Proper] {b : Cache K V n} (h : Steps cfg T c b)
    (hc : c.core.Inv) : b.core.Inv :=
  h.invariant (I := Core.Inv) Core.Inv.step hc

omit [PartialEquivBEq K] in
/-- A round that finds no victim is the last: the cache is within its bounds, or the shard's policy
tracks nothing. -/
theorem tracked_of_nextVictim (hwf : (c.shards i).policy.WellFormed)
    (hstored : (c.shards i).storage = [] → (c.shards i).policy.tracked = [])
    (h : (c.nextVictim cfg i 0).1 = none) :
    c.overBudget = false ∨ (c.shards i).policy.tracked = [] := by
  by_contra hcon
  obtain ⟨hover, hne⟩ := not_or.1 hcon
  have hlen : 0 < (c.shards i).storage.length := List.length_pos_iff.2 (mt hstored hne)
  have hover : c.overBudget = true := by simpa using hover
  have hs : (shardVictim cfg (c.shards i)).1 = none := by
    by_contra hs
    unfold nextVictim at h
    rw [if_neg (fun hn ↦ hs (Option.isNone_iff_eq_none.1 hn.1))] at h
    exact hs h
  have hshed : c.nextVictim cfg i 0 = (shardVictim cfg (c.shards i)).2.shedVictim cfg.hash false := by
    unfold nextVictim
    rw [if_pos ⟨Option.isNone_iff_eq_none.2 hs, hlen, hover⟩]
    rfl
  -- the shard's own victim declined, so its policy still tracks every entry
  have hpick := (yields_shardVictim cfg (c.shards i)).picks hwf
  rw [hs] at hpick
  have hperm : (shardVictim cfg (c.shards i)).2.tracked.Perm (c.shards i).policy.tracked := hpick
  refine ((yields_shardVictim cfg (c.shards i)).wellFormed hwf).shedVictim_ne_none cfg.hash
    (fun hnil ↦ hne ?_) (hshed ▸ h)
  rw [hnil, List.nil_perm] at hperm
  exact hperm

omit [PartialEquivBEq K] in
/-- Then the shard is empty, when its policy tracks what is stored. -/
theorem nextVictim_eq_none (hc : c.core.Inv) (h : (c.nextVictim cfg i 0).1 = none) :
    c.overBudget = false ∨ (c.shards i).storage = [] := by
  have hperm : (c.shards i).policy.tracked.Perm ((c.shards i).storage.map Entry.ref) :=
    (hc.table i).tracked
  refine (tracked_of_nextVictim (hc.table i).policy (fun hnil ↦ ?_) h).imp_right fun hnil ↦ ?_
  · rw [hnil, List.map_nil, List.perm_nil] at hperm
    exact hperm
  · rw [hnil, List.nil_perm] at hperm
    exact List.map_eq_nil_iff.1 hperm

variable {reason : EvictionReason}

omit [BEq K] [PartialEquivBEq K] in
theorem storage_setPolicy (c : Cache K V n) (i j : Fin n) (p : Policy K) :
    ((c.modifyTable i fun t ↦ { t with policy := p }).core.shards j).storage =
      (c.core.shards j).storage := by
  rw [core_modifyTable]
  exact Core.set_cases j rfl fun _ _ ↦ rfl

omit [PartialEquivBEq K] in
/-- Shedding leaves an empty shard empty. -/
theorem shedding_empty (cfg : Config K V) (env : Env K) (reason : EvictionReason) (j : Fin n) :
    Shedding cfg env reason fun c c' ↦
      (c.core.shards j).storage = [] → (c'.core.shards j).storage = [] where
  refl _ := id
  trans h h' := h' ∘ h
  policy c i p _ h := (storage_setPolicy c i j p).trans h
  evict c i r p _ h := by
    cases hid : (c.shards i).byId r.id with
    | none =>
      rw [evict_of_none cfg env c i hid reason]
      exact (storage_setPolicy c i j p).trans h
    | some e =>
      obtain ⟨s, hcore, hs, -⟩ := core_evict cfg env c i (p := p) hid reason
      rw [hcore, Core.add_shards]
      by_cases hj : j = i
      · subst hj
        rw [Core.set_shards_self, hs, dropEntry, h, List.filter_nil]
      · rw [Core.set_shards_of_ne _ _ hj]
        exact h
  release c i h := by rwa [core_releaseShard]
  next _ _ := id

/-- An eviction takes one entry out of its shard. -/
theorem length_storage_evict (cfg : Config K V) (env : Env K) (hc : c.core.Inv) {r : Ref K} {p : Policy K}
    (h : (c.shards i).policy.Yields p (some r)) (reason : EvictionReason) :
    ((c.evict cfg env i r p reason).shards i).storage.length + 1 =
      (c.shards i).storage.length := by
  obtain ⟨e, he, -, hid⟩ := hc.byId_of_yields h
  obtain ⟨s, hcore, hs, -⟩ := core_evict cfg env c i (p := p) hid reason
  have hst : ((c.evict cfg env i r p reason).core.shards i).storage =
      NodeList.unlink Entry.id e.id (c.core.shards i).storage := by
    rw [hcore, Core.add_shards, Core.set_shards_self, hs]
    exact (hc.table i).filter_key he
  show ((c.evict cfg env i r p reason).core.shards i).storage.length + 1 = _
  rw [hst]
  exact (hc.table i).distinct.length_unlink he

/-- **Enough rounds that keep nothing** meet the bounds or empty the shard. -/
theorem evictRounds_settles (hc : c.core.Inv) {fuel : ℕ} (hf : (c.shards i).storage.length < fuel) :
    (evictRounds cfg env i reason 0 fuel c).1.core.overBudget = false ∨
      ((evictRounds cfg env i reason 0 fuel c).1.core.shards i).storage = [] := by
  induction fuel generalizing c with
  | zero => exact absurd hf (Nat.not_lt_zero _)
  | succ fuel ih =>
    have hy := c.yields_nextVictim i cfg 0
    unfold evictRounds
    split
    · next p hp =>
      rw [core_modifyTable, Core.set_shards_self]
      exact nextVictim_eq_none hc (by rw [hp])
    · next r p hp =>
      have hy : (c.shards i).policy.Yields p (some r) := by rwa [hp] at hy
      refine ih (inv_of_steps (T := .all) (c.steps_evict i hy reason) hc) ?_
      have := length_storage_evict cfg env hc hy reason
      omega

theorem shed_settles (cfg : Config K V) (env : Env K) (hc : c.core.Inv) (i : Fin n)
    (reason : EvictionReason) :
    (c.shed cfg env reason i).1.core.overBudget = false ∨
      ((c.shed cfg env reason i).1.core.shards i).storage = [] := by
  unfold shed
  split
  · rw [core_releaseShard]
    -- the policy tracks one entry for each one stored
    refine evictRounds_settles hc ?_
    have := (hc.table i).tracked.length_eq
    rw [List.length_map] at this
    exact (Nat.lt_succ_iff.2 this.ge)
  · next h => exact .inl (Bool.eq_false_of_not_eq_true h)

/-! ### The sweep -/

omit [PartialEquivBEq K] in
theorem shedAll_of_within {is : List (Fin n)} (h : c.core.overBudget = false) :
    shedAll cfg env reason is c = (c, 0) := by
  have hshed (i : Fin n) : c.shed cfg env reason i = (c, 0) :=
    if_neg (by rw [show c.overBudget = c.core.overBudget from rfl, h]; simp)
  induction is with
  | nil => rfl
  | cons i is ih => simp only [shedAll, hshed, ih]

theorem shedAll_settles (cfg : Config K V) (env : Env K) (hc : c.core.Inv)
    (reason : EvictionReason) (is : List (Fin n)) :
    (shedAll cfg env reason is c).1.core.overBudget = false ∨
      ∀ i ∈ is, ((shedAll cfg env reason is c).1.core.shards i).storage = [] := by
  induction is generalizing c with
  | nil => exact .inr nofun
  | cons i is ih =>
    have hinv : (c.shed cfg env reason i).1.core.Inv :=
      inv_of_steps (T := .all) ((shedding_steps reason).shed c i) hc
    obtain hwithin | hnil := shed_settles cfg env hc i reason
    · left
      show (shedAll cfg env reason is (c.shed cfg env reason i).1).1.core.overBudget = false
      rw [shedAll_of_within hwithin]
      exact hwithin
    · obtain hwithin | hrest := ih hinv
      · exact .inl hwithin
      · refine .inr fun j hj ↦ ?_
        obtain rfl | hj := List.mem_cons.1 hj
        · exact (shedding_empty cfg env reason j).shedAll (c.shed cfg env reason j).1 is hnil
        · exact hrest j hj

variable [NeZero n]

omit [BEq K] [PartialEquivBEq K] in
/-- A sweep visits every shard. -/
theorem mem_shedOrder (start : ℕ) (last : Option (Fin n)) (i : Fin n) :
    i ∈ shedOrder start last := by
  unfold shedOrder
  rw [List.mem_append]
  by_cases hl : some i = last
  · exact .inr (by simp [← hl])
  · refine .inl (List.mem_filter.2 ⟨List.mem_map.2 ?_, by simpa using hl⟩)
    -- count on from the start, around the end if need be
    have hdiv := Nat.div_add_mod start n
    have hmod : start % n < n := Nat.mod_lt _ i.pos
    obtain hle | hlt := le_or_gt (start % n) (i : ℕ)
    · refine ⟨i - start % n, List.mem_range.2 (by omega), Fin.ext ?_⟩
      rw [Fin.val_ofNat, show start + (i - start % n) = n * (start / n) + i by omega,
        Nat.mul_add_mod, Nat.mod_eq_of_lt i.isLt]
    · refine ⟨i + n - start % n, List.mem_range.2 (by omega), Fin.ext ?_⟩
      have hsum : start + (i + n - start % n) = n * (start / n + 1) + i := by
        rw [Nat.mul_add]
        omega
      rw [Fin.val_ofNat, hsum, Nat.mul_add_mod, Nat.mod_eq_of_lt i.isLt]

/-- **One sweep is enough.** -/
theorem settled_shedPass (hc : c.core.Inv) (reason : EvictionReason) (last : Option (Fin n)) :
    (c.shedPass cfg env reason last).1.core.Settled := by
  obtain h | h := shedAll_settles cfg env (c := { c with shedNext := c.shedNext + 1 }) hc reason
    (shedOrder (c.shedNext + 1) last)
  · exact .inl h
  · exact .inr fun i ↦ h i (mem_shedOrder _ last i)

theorem settled_shedPasses (hc : c.core.Inv) {last : Option (Fin n)} {fuel : ℕ}
    (h : 0 < fuel ∨ c.core.Settled) : (shedPasses cfg env reason last fuel c).core.Settled := by
  induction fuel generalizing c with
  | zero => exact h.resolve_left (Nat.lt_irrefl 0)
  | succ fuel ih =>
    have hpass : (c.shedPass cfg env reason last).1.core.Settled := settled_shedPass hc reason last
    simp only [shedPasses]
    split
    · split
      · exact hpass
      · exact ih (inv_of_steps (T := .all) ((shedding_steps reason).shedPass c last) hc) (.inr hpass)
    · next hover => exact .inl (Bool.eq_false_of_not_eq_true hover)

/-- **The sweeps settle the cache.** -/
theorem settled_shedOverBudget (hc : c.core.Inv) (reason : EvictionReason)
    (last : Option (Fin n)) : (c.shedOverBudget cfg env reason last).core.Settled :=
  settled_shedPasses hc (.inl (Nat.succ_pos _))

end Cache

end Memcache
