import Memcache.Cache.Budgets
import Memcache.Cache.Fade
import Memcache.Cache.LockFree
import Memcache.Policy.Shield

/-!
# What an insert evicts

An insert is followed by two evictions: its shard evicts but keeps one entry, and a sweep over the
shards, which comes to the insert's own shard last, keeps none. Whether the entry just inserted
survives is decided in the first round of the first. In that round **the entry goes exactly when its
policy exposes it, the cache was full and the shard holds another entry** (`Displaced`); in every
later round the cache is within its bound again, and what a shard evicts for its own budget is never
an exposed entry. If the shard holds nothing else, the sweep meets the bound in other shards first.
-/

namespace Memcache

variable {K V : Type*} {n : ℕ}

namespace Cache

variable [BEq K] {cfg : Config K V} {env : Env K} {c : Cache K V n} {i : Fin n} {e : Entry K V}

omit [BEq K] in
theorem overBudget_iff (h : c.maxBytes = 0) :
    c.overBudget = true ↔ 0 < c.maxEntries ∧ (c.maxEntries : ℤ) < c.entries := by
  simp [overBudget, h]

omit [BEq K] in
theorem budget_of_core {d : Cache K V n} (h : d.core = c.core) (i : Fin n) :
    (d.shards i).budget = (c.shards i).budget :=
  congrArg (fun b : Core K V n ↦ (b.shards i).budget) h

/-! ### The rounds that keep one entry -/

/-- A shard holds and protects an entry, and the cache is at most one entry above its bound. -/
structure Guarded (c : Cache K V n) (i : Fin n) (e : Entry K V) : Prop where
  inv : c.core.Inv
  mem : e ∈ (c.shards i).storage
  shields : (c.shards i).policy.Shields e.id
  fitted : (c.shards i).policy.Fitted (c.shards i).budget
  two_le : 2 ≤ (c.shards i).budget
  noBytes : c.maxBytes = 0
  entries_le : c.entries ≤ c.maxEntries + 1

namespace Guarded

/-- Being guarded is a property of the core. -/
theorem of_core {d : Cache K V n} (hg : c.Guarded i e) (h : d.core = c.core) : d.Guarded i e where
  inv := h ▸ hg.inv
  mem := by
    rw [toTable_of_core h]
    exact hg.mem
  shields := by
    rw [toTable_of_core h]
    exact hg.shields
  fitted := by
    rw [toTable_of_core h, budget_of_core h]
    exact hg.fitted
  two_le := by
    rw [budget_of_core h]
    exact hg.two_le
  noBytes := (congrArg Core.maxBytes h).trans hg.noBytes
  entries_le := by
    rw [show d.entries = c.entries from congrArg Core.entries h,
      show d.maxEntries = c.maxEntries from congrArg Core.maxEntries h]
    exact hg.entries_le

variable (hg : c.Guarded i e)
include hg

theorem length_tracked : (c.shards i).policy.tracked.length = (c.shards i).storage.length := by
  have := (hg.inv.table i).tracked.length_eq
  rwa [List.length_map] at this

/-- A shard above its own budget exposes nothing. -/
theorem not_exposes (h : (c.shards i).budget < (c.shards i).storage.length) :
    ¬ (c.shards i).policy.Exposes e.id := by
  intro hx
  have := hx.length_le hg.fitted hg.two_le
  rw [hg.length_tracked] at this
  omega

theorem spared_shardVictim (cfg : Config K V) :
    Spared (Policy.Shields e.id) (fun p id ↦ p.onRemove id) e.id (shardVictim cfg (c.shards i)) := by
  unfold shardVictim
  split_ifs with h
  · refine hg.shields.spared_victim cfg.hash (hg.inv.table i).policy ?_ (hg.not_exposes h.2)
    have := hg.two_le
    rw [hg.length_tracked]
    omega
  · exact nofun

/-- A shard that has no victim for itself protects the entry as before. -/
theorem declined_shardVictim (h : (shardVictim cfg (c.shards i)).1 = none) :
    (shardVictim cfg (c.shards i)).2.Shields e.id ∧ (¬ (c.shards i).policy.Exposes e.id →
      ¬ (shardVictim cfg (c.shards i)).2.Exposes e.id) := by
  unfold shardVictim at h ⊢
  split_ifs at h ⊢
  · exact hg.shields.of_declined cfg.hash (hg.inv.table i).policy h
  · exact ⟨hg.shields, fun h ↦ h⟩

/-- The policy's entries after the shard had no victim for itself. -/
theorem length_tracked_declined (h : (shardVictim cfg (c.shards i)).1 = none) :
    (shardVictim cfg (c.shards i)).2.tracked.length = (c.shards i).storage.length := by
  have hpick := (yields_shardVictim cfg (c.shards i)).picks (hg.inv.table i).policy
  rw [h] at hpick
  exact hpick.length_eq.trans hg.length_tracked

/-- **A round takes another entry**, unless the cache is over its bound and the entry exposed. -/
theorem spared_nextVictim (cfg : Config K V)
    (hx : c.overBudget → ¬ (c.shards i).policy.Exposes e.id) :
    Spared (Policy.Shields e.id) (fun p id ↦ p.onRemove id) e.id (c.nextVictim cfg i 1) := by
  unfold nextVictim
  split_ifs with h
  · have hnone := Option.isNone_iff_eq_none.1 h.1
    obtain ⟨hshields, hexposes⟩ := hg.declined_shardVictim hnone
    refine hshields.spared_shedVictim cfg.hash ?_ ?_ (hexposes (hx h.2.2))
    · exact (yields_shardVictim cfg _).wellFormed (hg.inv.table i).policy
    · rw [hg.length_tracked_declined hnone]
      exact h.2.1
  · exact hg.spared_shardVictim cfg

/-- A round without a victim is the last: the cache is within its bound, or the entry alone. -/
theorem nextVictim_eq_none (h : (c.nextVictim cfg i 1).1 = none) :
    c.overBudget = false ∨ (c.shards i).storage.length ≤ 1 := by
  by_contra hcon
  obtain ⟨hover, hlen⟩ := not_or.1 hcon
  rw [Bool.not_eq_false] at hover
  unfold nextVictim at h
  split_ifs at h with hcond
  · have hnone := Option.isNone_iff_eq_none.1 hcond.1
    refine (hg.declined_shardVictim hnone).1.shedVictim_ne_none cfg.hash ?_ ?_ h
    · exact (yields_shardVictim cfg _).wellFormed (hg.inv.table i).policy
    · rw [hg.length_tracked_declined hnone]
      omega
  · exact hcond ⟨by rw [h]; rfl, by omega, hover⟩

/-- The eviction of another entry leaves the entry guarded, and the cache within its bound. -/
theorem of_evict [PartialEquivBEq K] (cfg : Config K V) (env : Env K) {r : Ref K} {p : Policy K}
    (hy : (c.shards i).policy.Yields p (some r)) (hne : r.id ≠ e.id)
    (hs : (p.onRemove r.id).Shields e.id) (reason : EvictionReason) :
    (c.evict cfg env i r p reason).Guarded i e ∧
      (c.evict cfg env i r p reason).overBudget = false := by
  obtain ⟨v, hv, hvid, hbyId⟩ := hg.inv.byId_of_yields hy
  obtain ⟨s, hcore, htable, hbudget⟩ := core_evict cfg env c i (p := p) hbyId reason
  set d := c.evict cfg env i r p reason with hd
  have hshard : (d.shards i).core = s := by
    rw [← core_shards, hcore, Core.add_shards, Core.set_shards_self]
  have htab : (d.shards i).toTable =
      dropEntry { (c.core.shards i).toTable with policy := p } v := by
    rw [← htable, ← hshard]
    rfl
  have hb : (d.shards i).budget = (c.shards i).budget := by
    rw [show (d.shards i).budget = s.budget from congrArg CoreShard.budget hshard, hbudget]
    rfl
  have hpol : (d.shards i).policy = p.onRemove r.id := by
    rw [htab, ← hvid]
    rfl
  have hentries : d.entries = c.entries + -1 := congrArg Core.entries hcore
  have hmax : d.maxEntries = c.maxEntries := congrArg Core.maxEntries hcore
  have hbytes : d.maxBytes = 0 := (congrArg Core.maxBytes hcore).trans hg.noBytes
  have hle := hg.entries_le
  refine ⟨⟨inv_of_steps (T := .all) (c.steps_evict i hy reason) hg.inv, ?_, ?_, ?_, ?_, hbytes, ?_⟩,
    ?_⟩
  · rw [htab]
    show e ∈ (c.core.shards i).storage.filter _
    rw [(hg.inv.table i).filter_key hv]
    exact NodeList.mem_unlink.2 ⟨hg.mem, fun h ↦ hne (hvid ▸ h.symm)⟩
  · rw [hpol]
    exact hs
  · rw [hpol, hb]
    exact (hy.fitted _ hg.fitted).onRemove _
  · rw [hb]
    exact hg.two_le
  · rw [hentries, hmax]
    omega
  · rw [Bool.eq_false_iff, ne_eq, overBudget_iff hbytes, hentries, hmax]
    omega

/-- **The rounds after an insert keep the entry**, unless the first one finds it exposed. They end
with the cache within its bound, or the entry alone in its shard. -/
theorem mem_evictRounds [PartialEquivBEq K] (hx : c.overBudget → ¬ (c.shards i).policy.Exposes e.id)
    {reason : EvictionReason} {fuel : ℕ} (hf : (c.shards i).storage.length < fuel) :
    e ∈ ((evictRounds cfg env i reason 1 fuel c).1.shards i).storage ∧
      ((evictRounds cfg env i reason 1 fuel c).1.overBudget = false ∨
        ((evictRounds cfg env i reason 1 fuel c).1.shards i).storage.length ≤ 1) := by
  induction fuel generalizing c with
  | zero => exact absurd hf (Nat.not_lt_zero _)
  | succ fuel ih =>
    have hy := c.yields_nextVictim i cfg 1
    have hspared := hg.spared_nextVictim cfg hx
    unfold evictRounds
    split
    · next p hp =>
      rw [modifyTable_toTable]
      exact ⟨hg.mem, hg.nextVictim_eq_none (by rw [hp])⟩
    · next r p hp =>
      have hy : (c.shards i).policy.Yields p (some r) := by rwa [hp] at hy
      obtain ⟨hne, hs⟩ := hspared r (by rw [hp])
      rw [hp] at hs
      obtain ⟨hg', hover⟩ := hg.of_evict cfg env hy hne hs reason
      -- from here on only the shard's own budget asks for victims
      refine ih hg' (fun h ↦ absurd h (by rw [hover]; exact Bool.false_ne_true)) ?_
      have := length_storage_evict cfg env hg.inv hy reason
      omega

end Guarded

/-! ### The sweep after an insert -/

/-- A visit changes the visited shard only. -/
theorem shards_evict_of_ne {r : Ref K} {p : Policy K} {j : Fin n} (hj : j ≠ i)
    (reason : EvictionReason) :
    (c.evict cfg env i r p reason).core.shards j = c.core.shards j := by
  cases hid : (c.shards i).byId r.id with
  | none => rw [evict_of_none cfg env c i hid, core_modifyTable, Core.set_shards_of_ne _ _ hj]
  | some v =>
    obtain ⟨s, hcore, -⟩ := core_evict cfg env c i (p := p) hid reason
    rw [hcore, Core.add_shards, Core.set_shards_of_ne _ _ hj]

theorem shards_evictRounds_of_ne {j : Fin n} (hj : j ≠ i) (reason : EvictionReason)
    (keep fuel : ℕ) :
    (evictRounds cfg env i reason keep fuel c).1.core.shards j = c.core.shards j := by
  induction fuel generalizing c with
  | zero => rfl
  | succ fuel ih =>
    unfold evictRounds
    split
    · rw [core_modifyTable, Core.set_shards_of_ne _ _ hj]
    · exact ih.trans (shards_evict_of_ne hj reason)

theorem shards_shedAll_of_notMem {j : Fin n} {is : List (Fin n)} (hj : j ∉ is)
    (reason : EvictionReason) :
    (shedAll cfg env reason is c).1.core.shards j = c.core.shards j := by
  induction is generalizing c with
  | nil => rfl
  | cons i is ih =>
    obtain ⟨hji, hj⟩ := not_or.1 (List.mem_cons.not.1 hj)
    have hshed : (c.shed cfg env reason i).1.core.shards j = c.core.shards j := by
      unfold shed
      split
      · rw [core_releaseShard]
        exact shards_evictRounds_of_ne hji reason 0 _
      · rfl
    exact (ih hj).trans hshed

/-- With every other shard empty, one entry is all there is. -/
theorem entries_eq_of_alone (hc : c.core.Inv) (h : ∀ j ≠ i, (c.core.shards j).storage = []) :
    c.entries = (c.shards i).storage.length := by
  refine hc.entries.trans (Finset.sum_eq_single i (fun j _ hj ↦ ?_) fun hi ↦ ?_)
  · show ((c.core.shards j).storage.length : ℤ) = 0
    rw [h j hj]
    rfl
  · exact absurd (Finset.mem_univ i) hi

theorem shedAll_append (reason : EvictionReason) (is js : List (Fin n)) :
    (shedAll cfg env reason (is ++ js) c).1 =
      (shedAll cfg env reason js (shedAll cfg env reason is c).1).1 := by
  induction is generalizing c with
  | nil => rfl
  | cons i is ih => exact ih

theorem shards_shedPass_of_alone [PartialEquivBEq K] [NeZero n] (cfg : Config K V) (env : Env K) (hc : c.core.Inv)
    (hb : c.maxBytes = 0) (hm : 1 ≤ c.maxEntries) (h : (c.shards i).storage.length ≤ 1)
    (reason : EvictionReason) :
    (c.shedPass cfg env reason (some i)).1.core.shards i = c.core.shards i ∧
      (c.shedPass cfg env reason (some i)).1.overBudget = false := by
  -- every shard but this one, then this one
  set others := ((List.range n).map fun j ↦ Fin.ofNat n (c.shedNext + 1 + j)).filter
    (fun j ↦ some j ≠ some i) with hothers
  set b : Cache K V n := { c with shedNext := c.shedNext + 1 } with hbdef
  set d := (shedAll cfg env reason others b).1 with hd
  have hsteps : Steps cfg .fixed c d := Steps.trans (.of_eq rfl) ((shedding_steps reason).shedAll b others)
  have hsame := sameBounds_of_steps hsteps fun h ↦ h
  have hnotMem : i ∉ others := fun hi ↦ by simp [hothers] at hi
  have hshard : d.core.shards i = c.core.shards i := shards_shedAll_of_notMem hnotMem reason
  have hover : d.overBudget = false := by
    obtain hwithin | hnil := shedAll_settles cfg env (c := b) hc reason others
    · exact hwithin
    · have halone : d.entries = (d.shards i).storage.length := by
        refine entries_eq_of_alone (inv_of_steps hsteps hc) fun j hj ↦ hnil j ?_
        have := mem_shedOrder (c.shedNext + 1) (some i) j
        simpa [shedOrder, hothers, hj] using this
      have hlen : (d.shards i).storage.length ≤ 1 := by
        rw [show (d.shards i).storage = (c.shards i).storage from
          congrArg (fun s : CoreShard K V ↦ s.storage) hshard]
        exact h
      have hmax : d.maxEntries = c.maxEntries := hsame.maxEntries
      rw [Bool.eq_false_iff, ne_eq, overBudget_iff (c := d) (hsame.maxBytes.trans hb)]
      omega
  have hpass : (c.shedPass cfg env reason (some i)).1 = d := by
    show (shedAll cfg env reason (others ++ [i]) b).1 = d
    rw [shedAll_append, ← hd, shedAll_of_within hover]
  rw [hpass]
  exact ⟨hshard, hover⟩

/-- **The sweep leaves alone a shard that holds one entry**, when it comes to it last. -/
theorem shards_shedOverBudget_of_alone [PartialEquivBEq K] [NeZero n] (hc : c.core.Inv)
    (hb : c.maxBytes = 0) (hm : 1 ≤ c.maxEntries)
    (h : c.overBudget = false ∨ (c.shards i).storage.length ≤ 1) (reason : EvictionReason) :
    (c.shedOverBudget cfg env reason (some i)).core.shards i = c.core.shards i := by
  -- the first sweep meets the bound, so there is no second
  have hstop {d : Cache K V n} (hd : d.overBudget = false) (fuel : ℕ) :
      shedPasses cfg env reason (some i) fuel d = d := by
    cases fuel with
    | zero => rfl
    | succ fuel => simp only [shedPasses, hd, Bool.false_eq_true, if_false]
  unfold shedOverBudget
  cases hover : c.overBudget with
  | false => rw [hstop hover]
  | true =>
    obtain ⟨hshard, hwithin⟩ := shards_shedPass_of_alone cfg env hc hb hm
      (h.resolve_left (by simp [hover])) reason
    simp only [shedPasses, hover, if_true]
    split
    · exact hshard
    · rw [hstop hwithin]
      exact hshard

/-! ### An exposed entry -/

/-- A shard within its own budget has no round to make when the cache is within its bounds, or the
shard holds no more than it keeps. -/
theorem core_evictRounds_of_within (cfg : Config K V) (env : Env K)
    (hlen : (c.shards i).storage.length ≤ (c.shards i).budget)
    {keep : ℕ} (h : c.overBudget = false ∨ (c.shards i).storage.length ≤ keep)
    (reason : EvictionReason) (fuel : ℕ) :
    (evictRounds cfg env i reason keep fuel c).1.core = c.core := by
  have hnext : c.nextVictim cfg i keep = (none, (c.shards i).policy) := by
    have hcond : ¬ (keep < (c.shards i).storage.length ∧ c.overBudget = true) := by
      rintro ⟨hk, hover⟩
      obtain h | h := h
      · rw [hover] at h
        cases h
      · omega
    simp [nextVictim, shardVictim, hcond, Nat.not_lt.2 hlen]
  cases fuel with
  | zero => rfl
  | succ fuel =>
    simp only [evictRounds, hnext, core_modifyTable]
    exact Core.set_eq_self c.core i

/-- **The first round takes an exposed entry**, and there is no second. -/
theorem Guarded.get_evictRounds_of_exposes [PartialEquivBEq K] (hg : c.Guarded i e)
    (hover : c.overBudget = true) (hx : (c.shards i).policy.Exposes e.id)
    (h₂ : 2 ≤ (c.shards i).storage.length) (reason : EvictionReason) (fuel : ℕ) :
    ((evictRounds cfg env i reason 1 (fuel + 1) c).1.core.shards i).get e.key = none ∧
      (evictRounds cfg env i reason 1 (fuel + 1) c).1.overBudget = false := by
  have hle : (c.shards i).storage.length ≤ (c.shards i).budget :=
    Nat.not_lt.1 fun h ↦ hg.not_exposes h hx
  have hnext : c.nextVictim cfg i 1 = (c.shards i).policy.shedVictim cfg.hash true := by
    simp [nextVictim, shardVictim, hover, Nat.not_lt.2 hle, show 1 < (c.shards i).storage.length from h₂]
  obtain ⟨r, hr, hrid⟩ := hx.shedVictim hg.shields cfg.hash
  have hy := c.yields_nextVictim i cfg 1
  rw [hnext, hr] at hy
  obtain ⟨v, hv, hvref, hbyId⟩ := hg.inv.byId_of_yields hy
  obtain rfl : v = e := (hg.inv.table i).distinct.eq_of_ident hv hg.mem (by
    rw [show v.id = r.id from congrArg Ref.id hvref, hrid])
  set p := ((c.shards i).policy.shedVictim cfg.hash true).2
  obtain ⟨s, hcore, htable, hbudget⟩ := core_evict cfg env c i (p := p) hbyId reason
  have hlen := length_storage_evict cfg env hg.inv hy reason
  set d := c.evict cfg env i r p reason
  have hshard : d.core.shards i = s := by rw [hcore, Core.add_shards, Core.set_shards_self]
  have hwithin : d.overBudget = false := by
    have hentries : d.entries = c.entries + -1 := congrArg Core.entries hcore
    have hmax : d.maxEntries = c.maxEntries := congrArg Core.maxEntries hcore
    have := hg.entries_le
    rw [Bool.eq_false_iff, ne_eq, overBudget_iff ((congrArg Core.maxBytes hcore).trans hg.noBytes),
      hentries, hmax]
    omega
  have hrest : (evictRounds cfg env i reason 1 (fuel + 1) c).1.core = d.core := by
    have hpair : c.nextVictim cfg i 1 = (some r, p) := by
      rw [hnext]
      exact Prod.ext hr rfl
    simp only [evictRounds, hpair]
    refine core_evictRounds_of_within cfg env ?_ (.inl hwithin) reason fuel
    have hb : (d.shards i).budget = (c.shards i).budget :=
      (congrArg CoreShard.budget hshard).trans hbudget
    omega
  constructor
  · rw [hrest, hshard, htable]
    exact get_dropEntry ((hg.inv.table i).taken v hv)
  · rw [show (evictRounds cfg env i reason 1 (fuel + 1) c).1.overBudget =
      d.overBudget from congrArg Core.overBudget hrest]
    exact hwithin

/-! ### The insert -/

/-- When an insert of a key is undone: the cache is full, the key's shard holds an entry, and the
policy would expose the new one. -/
def Displaced (c : Cache K V n) (i : Fin n) (key : K) : Prop :=
  c.entries = c.maxEntries ∧ (c.shards i).storage ≠ [] ∧ (c.shards i).policy.ExposesInsert key

/-- What holds between operations, of a cache without a byte bound. -/
structure Quiet (c : Cache K V n) : Prop where
  inv : c.core.Inv
  settled : c.core.Settled
  sized : c.core.Sized
  fitted : c.core.Fitted
  noBytes : c.maxBytes = 0
  one_le : 1 ≤ c.maxEntries

namespace Quiet

theorem entries_le (hc : c.Quiet) : c.entries ≤ c.maxEntries := by
  obtain hwithin | hnil := hc.settled
  · have : c.overBudget = false := hwithin
    rw [Bool.eq_false_iff, ne_eq, overBudget_iff hc.noBytes] at this
    have := hc.one_le
    omega
  · have : c.entries = 0 := hc.inv.entries.trans (Finset.sum_eq_zero fun i _ ↦ by
      show ((c.core.shards i).storage.length : ℤ) = 0
      rw [hnil i]
      rfl)
    omega

/-- A stored entry shows in the counters, which are over the bound if they had reached it. -/
theorem overBudget_storeEntry (hc : c.Quiet) (cfg : Config K V) :
    (c.storeEntry cfg i e).overBudget = true ↔ c.entries = c.maxEntries := by
  have hcore := c.core_storeEntry i cfg e
  have hentries : (c.storeEntry cfg i e).entries = c.entries + 1 := congrArg Core.entries hcore
  have hmax : (c.storeEntry cfg i e).maxEntries = c.maxEntries := congrArg Core.maxEntries hcore
  have hbytes : (c.storeEntry cfg i e).maxBytes = 0 :=
    (congrArg Core.maxBytes hcore).trans hc.noBytes
  have := hc.entries_le
  have := hc.one_le
  rw [overBudget_iff hbytes, hentries, hmax]
  omega

/-- The policy exposes a stored entry in the shapes `ExposesInsert` names. -/
theorem exposes_storeEntry (hc : c.Quiet) (cfg : Config K V) :
    ((c.storeEntry cfg i e).shards i).policy.Exposes c.nextId ↔
      (c.shards i).policy.ExposesInsert e.key := by
  rw [toTable_storeEntry]
  exact Policy.exposes_onInsert (e := ⟨c.nextId, e.key⟩) (hc.inv.table i).tracked_ne cfg.hash

variable [PartialEquivBEq K]

theorem guarded_storeEntry [NeZero n] (hc : c.Quiet) (cfg : Config K V)
    (habsent : (c.shards i).get e.key = none) (hkey : e.key == e.key) (h₁ : 1 ≤ e.weight)
    (h₂ : e.weight ≤ maxEntryWeight) :
    (c.storeEntry cfg i e).Guarded i { e with id := c.nextId } := by
  have hcore := c.core_storeEntry i cfg e
  have hsteps : Steps cfg .fixed c (c.storeEntry cfg i e) :=
    c.steps_storeEntry i habsent hkey h₁ h₂
  have hsame := sameBounds_of_steps hsteps fun h ↦ h
  have hbudget : 2 ≤ (c.shards i).budget := by
    rw [show (c.shards i).budget = _ from hc.sized i]
    exact two_le_perShardBudget hc.one_le (Nat.pos_of_ne_zero (NeZero.ne n))
  refine ⟨inv_of_steps hsteps hc.inv, ?_, ?_,
    hsteps.invariant (I := Core.Fitted) Core.Fitted.step hc.fitted i, ?_,
    hsame.maxBytes.trans hc.noBytes, ?_⟩
  · rw [toTable_storeEntry]
    exact List.mem_append_right _ (List.mem_singleton_self _)
  · rw [toTable_storeEntry]
    exact Policy.shields_onInsert (hc.fitted i) (le_trans one_le_two hbudget) cfg.hash ⟨c.nextId, e.key⟩
  · rw [show ((c.storeEntry cfg i e).shards i).budget = (c.shards i).budget from hsame.budget i]
    exact hbudget
  · rw [show (c.storeEntry cfg i e).entries = c.entries + 1 from congrArg Core.entries hcore,
      show (c.storeEntry cfg i e).maxEntries = c.maxEntries from hsame.maxEntries]
    exact Int.add_le_add_right hc.entries_le 1

variable [NeZero n] {d : Cache K V n}

/-- An insert makes its rounds from a state in which the new entry is guarded. -/
theorem exists_guarded (hc : c.Quiet) (cfg : Config K V) (env : Env K)
    (habsent : (c.shards i).get e.key = none) (hkey : e.key == e.key) (h₁ : 1 ≤ e.weight)
    (h₂ : e.weight ≤ maxEntryWeight) :
    ∃ b : Cache K V n, b.Guarded i { e with id := c.nextId } ∧
      c.insertLocked cfg env i e =
        (evictRounds cfg env i .capacity 1 ((b.shards i).storage.length + 1) b).1 ∧
      (b.shards i).storage = (c.shards i).storage ++ [{ e with id := c.nextId }] ∧
      (b.overBudget = true ↔ c.entries = c.maxEntries) ∧
      ((b.shards i).policy.Exposes c.nextId ↔ (c.shards i).policy.ExposesInsert e.key) := by
  have hcore : ((c.storeEntry cfg i e).countInsert.startJanitorFor cfg i e.expireAt).core =
      (c.storeEntry cfg i e).core := by simp
  have hg := (hc.guarded_storeEntry cfg habsent hkey h₁ h₂).of_core hcore
  refine ⟨_, hg, ?_, ?_, ?_, ?_⟩
  · rw [← hg.length_tracked]
    rfl
  · rw [toTable_of_core hcore, toTable_storeEntry]
    rfl
  · rw [← hc.overBudget_storeEntry (i := i) (e := e) cfg]
    exact Bool.eq_iff_iff.1 (congrArg Core.overBudget hcore)
  · rw [toTable_of_core hcore]
    exact hc.exposes_storeEntry cfg

/-- The rounds of the insert's own shard keep the new entry, unless it is displaced. -/
theorem mem_insertLocked (hc : c.Quiet) (cfg : Config K V) (env : Env K)
    (habsent : (c.shards i).get e.key = none) (hkey : e.key == e.key) (h₁ : 1 ≤ e.weight) (h₂ : e.weight ≤ maxEntryWeight)
    (hd : ¬ c.Displaced i e.key) :
    ({ e with id := c.nextId } : Entry K V) ∈ ((c.insertLocked cfg env i e).shards i).storage ∧
      ((c.insertLocked cfg env i e).overBudget = false ∨
        ((c.insertLocked cfg env i e).shards i).storage.length ≤ 1) := by
  obtain ⟨b, hg, hrounds, hstorage, hover, hexposes⟩ := hc.exists_guarded cfg env habsent hkey h₁ h₂
  rw [hrounds]
  by_cases hnil : (c.shards i).storage = []
  · -- the new entry is alone, and one entry is what the rounds keep
    have hlen : (b.shards i).storage.length = 1 := by rw [hstorage, hnil]; rfl
    have hcore := core_evictRounds_of_within cfg env
      (hlen ▸ le_trans one_le_two hg.two_le) (.inr hlen.le) .capacity
      ((b.shards i).storage.length + 1)
    rw [toTable_of_core hcore]
    exact ⟨hg.mem, .inr hlen.le⟩
  · exact hg.mem_evictRounds (fun ho hx ↦ hd ⟨hover.1 ho, hnil, hexposes.1 hx⟩)
      (Nat.lt_succ_self _)

/-- A displaced entry goes in the first round. -/
theorem get_insertLocked_of_displaced (hc : c.Quiet) (cfg : Config K V) (env : Env K)
    (habsent : (c.shards i).get e.key = none) (hkey : e.key == e.key) (h₁ : 1 ≤ e.weight) (h₂ : e.weight ≤ maxEntryWeight)
    (hd : c.Displaced i e.key) :
    ((c.insertLocked cfg env i e).shards i).get e.key = none ∧
      (c.insertLocked cfg env i e).overBudget = false := by
  obtain ⟨b, hg, hrounds, hstorage, hover, hexposes⟩ := hc.exists_guarded cfg env habsent hkey h₁ h₂
  obtain ⟨hfull, hne, hx⟩ := hd
  rw [hrounds]
  refine hg.get_evictRounds_of_exposes (hover.2 hfull) (hexposes.2 hx) ?_ .capacity _
  rw [hstorage, List.length_append]
  have := List.length_pos_iff.2 hne
  exact Nat.succ_le_succ this

/-- **An insert is undone exactly when it is displaced.** -/
theorem get_flushAndUnlock_insertLocked (hc : c.Quiet) (habsent : (c.shards i).get e.key = none)
    (hkey : e.key == e.key) (h₁ : 1 ≤ e.weight) (h₂ : e.weight ≤ maxEntryWeight)
    (hd : d.core = (c.insertLocked cfg env i e).core) :
    (¬ c.Displaced i e.key → ((d.flushAndUnlock cfg env i).shards i).get e.key =
        some { e with id := c.nextId }) ∧
      (c.Displaced i e.key → ((d.flushAndUnlock cfg env i).shards i).get e.key = none) := by
  have hsteps : Steps cfg .fixed c (d.releaseShard i) :=
    (c.steps_insertLocked i habsent hkey h₁ h₂).frame ((core_releaseShard ..).trans hd)
  have hsame := sameBounds_of_steps hsteps fun h ↦ h
  have hinv := inv_of_steps hsteps hc.inv
  have hcore : (d.releaseShard i).core = (c.insertLocked cfg env i e).core :=
    (core_releaseShard ..).trans hd
  have htable := toTable_of_core hcore i
  -- the sweep leaves this shard as it is
  have hsweep (h : (d.releaseShard i).overBudget = false ∨
      ((d.releaseShard i).shards i).storage.length ≤ 1) :
      ((d.flushAndUnlock cfg env i).shards i).toTable =
        ((c.insertLocked cfg env i e).shards i).toTable :=
    (congrArg CoreShard.toTable (shards_shedOverBudget_of_alone hinv
      (hsame.maxBytes.trans hc.noBytes) (le_of_le_of_eq hc.one_le hsame.maxEntries.symm) h
      .capacity)).trans htable
  have hoverEq : (d.releaseShard i).overBudget = (c.insertLocked cfg env i e).overBudget :=
    congrArg Core.overBudget hcore
  constructor
  · intro hnd
    obtain ⟨hmem, halone⟩ := hc.mem_insertLocked cfg env habsent hkey h₁ h₂ hnd
    rw [hsweep (by rw [hoverEq, htable]; exact halone)]
    exact ((hcore ▸ hinv).table i).get_eq hmem hkey
  · intro hdis
    obtain ⟨hget, hover⟩ := hc.get_insertLocked_of_displaced cfg env habsent hkey h₁ h₂ hdis
    rw [hsweep (.inl (hoverEq.trans hover))]
    exact hget

end Quiet

/-- Writing a key neither closes nor opens the cache. -/
theorem closed_upsertLocked [PartialEquivBEq K] (key : K) (value : V) (weight effectiveTTL : ℤ)
    (sliding : Bool) (rawTTL : ℤ) (tags : List String) :
    (c.upsertLocked cfg env i key value weight effectiveTTL sliding rawTTL tags).closed =
      c.closed := by
  simp only [upsertLocked]
  split
  · rfl
  · split
    · exact (sheds_publish _ _).closed.trans (sheds_startJanitorFor _ _).closed
    · split_ifs
      · rfl
      · refine (sheds_publish _ _).closed.trans ((sheds_evictRounds _ rfl 1 _).closed.trans ?_)
        exact (sheds_startJanitorFor _ _).closed.trans (sheds_recordHashCollisionLocked _ key).closed

/-! ### Runs -/

theorem quiet_of_reachable [EquivBEq K] [NeZero n] [Inhabited V] (hc : Reachable cfg c)
    (hb : c.maxBytes = 0) (hm : 1 ≤ c.maxEntries) : c.Quiet := by
  have hinv := (readInv_of_reachable hc).1
  have hsettled := settled_of_reachable hc
  obtain ⟨ops, rfl⟩ := hc
  obtain ⟨hsized, hfitted⟩ := sized_fitted_run cfg ops
  exact ⟨hinv, hsettled, hsized, hfitted, hb, hm⟩

/-- Marks on loads and hashes do not show. -/
theorem Quiet.supersede [PartialEquivBEq K] (hc : c.Quiet) (cfg : Config K V) (i : Fin n)
    (key : K) : ((c.supersedeFlight i key).recordHashCollisionLocked cfg i key).Quiet := by
  have hcore : ((c.supersedeFlight i key).recordHashCollisionLocked cfg i key).core =
      (c.supersedeFlight i key).core := core_recordHashCollisionLocked ..
  have hsteps : Steps cfg .fixed c ((c.supersedeFlight i key).recordHashCollisionLocked cfg i key) :=
    (c.steps_supersedeFlight i key).frame hcore
  have hsame := sameBounds_of_steps hsteps fun h ↦ h
  have hinv := inv_of_steps hsteps hc.inv
  refine ⟨hinv, hc.settled.of_gauge hc.inv hinv ?_, hc.sized.of_sameBounds hsame,
    hsteps.invariant (I := Core.Fitted) Core.Fitted.step hc.fitted,
    hsame.maxBytes.trans hc.noBytes, le_of_le_of_eq hc.one_le hsame.maxEntries.symm⟩
  rw [hcore]
  rfl

section Upsert

variable [PartialEquivBEq K] {key : K} {weight : ℤ}

/-- **After the upsert of a new key and its evictions, the key is stored exactly when the insert is
not displaced.** -/
theorem Quiet.get_upsertLocked [NeZero n] (hc : c.Quiet) (cfg : Config K V) (hopen : c.sealed = false)
    (habsent : (c.shards i).get key = none) (hkey : key == key) (hadmits : env.admits key = true)
    (h₁ : 1 ≤ weight) (h₂ : weight ≤ maxEntryWeight) (value : V) (ttl rawTTL : ℤ) (sliding : Bool)
    (tags : List String) :
    (¬ c.Displaced i key →
        (((c.upsertLocked cfg env i key value weight ttl sliding rawTTL tags).flushAndUnlock cfg env
          i).shards i).get key = some { newEntry key value weight env.now (deadline env ttl) sliding
            rawTTL tags with id := c.nextId }) ∧
      (c.Displaced i key →
        (((c.upsertLocked cfg env i key value weight ttl sliding rawTTL tags).flushAndUnlock cfg env
          i).shards i).get key = none) := by
  set b := (c.supersedeFlight i key).recordHashCollisionLocked cfg i key with hb
  have hcore : b.core = (c.supersedeFlight i key).core := core_recordHashCollisionLocked ..
  have htable : (b.shards i).toTable = (c.shards i).toTable := by
    rw [toTable_of_core hcore, supersedeFlight, modify_shards_self]
  have hid : b.nextId = c.nextId := congrArg Core.nextId hcore
  have hdisplaced : b.Displaced i key ↔ c.Displaced i key := by
    rw [Displaced, htable, show b.entries = c.entries from congrArg Core.entries hcore,
      show b.maxEntries = c.maxEntries from congrArg Core.maxEntries hcore]
    exact Iff.rfl
  have hupsert : (c.upsertLocked cfg env i key value weight ttl sliding rawTTL tags).core =
      (b.insertLocked cfg env i (newEntry key value weight env.now (deadline env ttl) sliding rawTTL
        tags)).core := by
    have habsent' : ((c.supersedeFlight i key).shards i).get key = none := by
      rw [supersedeFlight, modify_shards_self]
      exact habsent
    simp only [upsertLocked, show (c.supersedeFlight i key).sealed = false from hopen, habsent',
      hadmits, Bool.not_true, Bool.false_eq_true, if_false]
    exact core_publish ..
  have := (hc.supersede cfg i key).get_flushAndUnlock_insertLocked
    (e := newEntry key value weight env.now (deadline env ttl) sliding rawTTL tags)
    (by rw [← hb, htable]; exact habsent) hkey h₁ h₂ hupsert
  rw [← hb, hid, show (newEntry key value weight env.now (deadline env ttl) sliding rawTTL tags).key =
    key from rfl, hdisplaced] at this
  exact this

end Upsert

/-! ### The read after a write -/

section SetGet

variable [NeZero n] {key : K} {value : V} {tags : List String}

/-- Tags outside every group enforce nothing. -/
theorem enforceGroupBudgets_of_none (h : ∀ t ∈ tags, (cfg.groups.find? fun g ↦ g.1 = t) = none) :
    c.enforceGroupBudgets cfg env tags = c := by
  unfold enforceGroupBudgets
  induction tags with
  | nil => rfl
  | cons t tags ih =>
    rw [List.foldl_cons]
    simp only [h t List.mem_cons_self]
    exact ih fun t' ht' ↦ h t' (List.mem_cons_of_mem _ ht')

omit [BEq K] [NeZero n] in
theorem closed_of_checkSet {weight : ℤ} (h : c.checkSet cfg key value tags = .ok weight) :
    c.closed = false := by
  unfold checkSet at h
  split_ifs at h with hcl
  simpa using hcl

/-- A queued write covers its key. -/
theorem get_asyncSet [EquivBEq K] {env' : Env K} {ttl : ℤ} {sliding : Bool}
    (h : (c.asyncSet cfg env key value ttl sliding tags).1 = .ok ()) :
    ((c.asyncSet cfg env key value ttl sliding tags).2.get cfg env' key).1 = .hit value := by
  cases hcheck : c.checkSet cfg key value tags with
  | error err => simp [asyncSet, hcheck] at h
  | ok weight =>
    simp [asyncSet, hcheck, get, enqueuePending, asyncReadHit, closed_of_checkSet hcheck,
      KeyMap.get_insert, modify]

/-- What an accepted write in place is. -/
theorem set_eq_of_ok (hasync : cfg.asyncWrites = false) (h : (c.set cfg env key value).1 = .ok ())
    (hgroups : ∀ t ∈ cfg.autoTags value, (cfg.groups.find? fun g ↦ g.1 = t) = none) :
    ∃ weight, c.checkSet cfg key value (cfg.autoTags value) = .ok weight ∧
      (c.set cfg env key value).2 =
        (c.upsertLocked cfg env (shardFor cfg key) key value weight
          (cfg.effectiveTTL env ((cfg.valueTTL value).getD cfg.defaultTTL)) cfg.slidingTTL
          ((cfg.valueTTL value).getD cfg.defaultTTL) (cfg.autoTags value)).flushAndUnlock cfg env
            (shardFor cfg key) := by
  cases hcheck : c.checkSet cfg key value (cfg.autoTags value) with
  | error err => simp [set, setTTL, hasync, hcheck] at h
  | ok weight =>
    refine ⟨weight, rfl, ?_⟩
    simp only [set, setTTL, hasync, hcheck, Bool.false_eq_true, if_false]
    exact enforceGroupBudgets_of_none hgroups

/-- **A new key survives its own insert**, in every reachable state without a byte bound, exactly
when the insert is not displaced; and a read right after the write then hits. A queued write is read
from the queue. -/
theorem insert_kept_iff [EquivBEq K] [Inhabited V] (hc : Reachable cfg c) (hbytes : c.maxBytes = 0)
    (hmax : 1 ≤ c.maxEntries) (hopen : c.sealed = false) (env env' : Env K) (key : K) (value : V)
    (habsent : (c.shards (shardFor cfg key)).get key = none) (hadmits : env.admits key = true) :
    (∀ (weight ttl rawTTL : ℤ) (sliding : Bool) (tags : List String), 1 ≤ weight →
      weight ≤ maxEntryWeight →
        (((((c.upsertLocked cfg env (shardFor cfg key) key value weight ttl sliding rawTTL
          tags).flushAndUnlock cfg env (shardFor cfg key)).shards (shardFor cfg key)).get key).map
            Entry.value = some value ↔ ¬ c.Displaced (shardFor cfg key) key)) ∧
    ((c.set cfg env key value).1 = .ok () → (cfg.valueTTL value).getD cfg.defaultTTL ≤ 0 →
      (∀ t ∈ cfg.autoTags value, (cfg.groups.find? fun g ↦ g.1 = t) = none) →
      (∀ e : Entry K V, e.key = key → e.expireAt = 0 →
        entryExpiredLocked cfg e env'.now = false) →
        (((c.set cfg env key value).2.get cfg env' key).1 = .hit value ↔
          cfg.asyncWrites = true ∨ ¬ c.Displaced (shardFor cfg key) key)) := by
  have hquiet := quiet_of_reachable hc hbytes hmax
  refine ⟨fun weight ttl rawTTL sliding tags h₁ h₂ ↦ ?_, fun hok httl hgroups hfresh ↦ ?_⟩
  · obtain ⟨hkept, hgone⟩ := hquiet.get_upsertLocked cfg hopen habsent BEq.rfl hadmits h₁ h₂
      value ttl rawTTL sliding tags
    by_cases hd : c.Displaced (shardFor cfg key) key
    · rw [hgone hd]
      simp [hd]
    · rw [hkept hd]
      simp [hd, newEntry]
  · have hreach : Reachable cfg (c.set cfg env key value).2 := hc.step env (.set key value)
    cases hasync : cfg.asyncWrites with
    | true =>
      simp only [true_or, iff_true]
      simp only [set, setTTL, hasync, if_true] at hok ⊢
      exact get_asyncSet hok
    | false =>
      have hpending := pending_of_reachable hreach hasync (shardFor cfg key) key
      obtain ⟨hinv, hread⟩ := readInv_of_reachable hreach
      obtain ⟨weight, hcheck, hset⟩ := set_eq_of_ok hasync hok hgroups
      obtain ⟨h₁, h₂⟩ := c.checkSet_eq_ok hcheck
      obtain ⟨hkept, hgone⟩ := hquiet.get_upsertLocked cfg hopen habsent BEq.rfl hadmits h₁ h₂
        value (cfg.effectiveTTL env ((cfg.valueTTL value).getD cfg.defaultTTL))
        ((cfg.valueTTL value).getD cfg.defaultTTL) cfg.slidingTTL (cfg.autoTags value)
      rw [← hset] at hkept hgone
      simp only [Bool.false_eq_true, false_or]
      by_cases hd : c.Displaced (shardFor cfg key) key
      · exact iff_of_false (get_ne_hit hinv hread hpending (hgone hd) value) (not_not_intro hd)
      · refine iff_of_true (get_eq_hit hinv hread ?_ hpending (hkept hd) (hfresh _ rfl ?_) rfl) hd
        · rw [hset]
          exact (sheds_flushAndUnlock _).closed.trans
            ((closed_upsertLocked ..).trans (closed_of_checkSet hcheck))
        · rw [show cfg.effectiveTTL env _ = _ from if_pos httl]
          exact if_neg (not_lt.2 httl)

end SetGet

/-- A cache for two entries, the keys spread by parity. -/
def pairConfig (policy : PolicyKind) : Config ℕ ℕ :=
  { defaultConfig (fun k ↦ (k % 2).toUInt64) with policy := policy, maxEntries := 2 }

/-- Write each key in turn. -/
def setEach (keys : List ℕ) : List (Env ℕ × Op ℕ ℕ n) :=
  keys.map fun k ↦ (.instant 1, .set k k)

theorem insert_kept_iff_lru :
    ((((run (pairConfig .lru) (new (pairConfig .lru) 1) (setEach [1, 2])).set (pairConfig .lru)
      (.instant 1) 3 3).2.get (pairConfig .lru) (.instant 1) 3).1 = .hit 3) :=
  ((insert_kept_iff ⟨setEach [1, 2], rfl⟩ (by decide) (by decide) (by decide) (.instant 1)
    (.instant 1) 3 3 (by decide) rfl).2 (by decide) (by decide) (by decide)
      (fun e _ he ↦ by simp [entryExpiredLocked, Entry.expired, he, pairConfig, defaultConfig])).2
    (.inr fun h ↦ h.2.2)

/-- `2Q` with both entries in `Am`. -/
def twoQFull : Cache ℕ ℕ 1 :=
  run (pairConfig .twoQ) (new (pairConfig .twoQ) 1) (setEach [1, 2, 3, 1, 2])

/-- `W-TinyLFU` with one entry in each shard, that of shard 0 in `Protected`. -/
def tinyLfuFull : Cache ℕ ℕ 2 :=
  run (pairConfig .tinyLfu) (new (pairConfig .tinyLfu) 2)
    (setEach [0, 2, 4] ++ [(.instant 1, .get 0), (.instant 1, .delete 4)] ++ setEach [1])

/-- `2Q` gives up a key that is alone in `A1in`, and `W-TinyLFU` one that is alone in `Window`, with
another entry resident in the same shard. -/
theorem set_get_absent :
    (twoQFull.stored = 2 ∧ (twoQFull.set (pairConfig .twoQ) (.instant 1) 4 4).1 = .ok () ∧
      ((twoQFull.set (pairConfig .twoQ) (.instant 1) 4 4).2.get (pairConfig .twoQ) (.instant 1)
        4).1 = .absent) ∧
    (tinyLfuFull.stored = 2 ∧
      (tinyLfuFull.set (pairConfig .tinyLfu) (.instant 1) 6 6).1 = .ok () ∧
      ((tinyLfuFull.set (pairConfig .tinyLfu) (.instant 1) 6 6).2.get (pairConfig .tinyLfu)
        (.instant 1) 6).1 = .absent) := by
  decide +kernel

end Cache

end Memcache
