import Memcache.Cache.Tracked
import Memcache.Cache.Fade
import Memcache.Cache.Shed
import Memcache.Cache.Budgets
import Memcache.Policy.Histories

/-!
# A shard within its own budget

After an insert a shard evicts while it holds more than its budget, whether or not the cache as a
whole is within its bounds. It stops at the first round in which the policy has no victim, so the
bound rests on the policies: the shard ends within its budget **exactly when its policy never
declines over budget**, and the one policy that does is `W-TinyLFU` with a budget of one or two.

The other way for a shard to stay over its budget is a key that does not equal itself: an entry
under it leaves the policy and the counters, but not the map.
-/

namespace Memcache

variable {K V : Type*} {n : ℕ}

/-! ### The shards' policies -/

namespace Core

/-- Every policy has the budgets of a fresh one for its shard's budget. -/
def Suited (cfg : Config K V) (c : Core K V n) : Prop :=
  ∀ i, (c.shards i).policy.blank = (Policy.new cfg.policy (c.shards i).budget).blank

variable [BEq K] {cfg : Config K V} {T : Licence K V} {c d : Core K V n}

theorem Suited.step (h : CoreStep cfg T c d) (hc : c.Suited cfg) : d.Suited cfg := by
  have one {i : Fin n} {s : CoreShard K V}
      (hs : s.policy.blank = (Policy.new cfg.policy s.budget).blank) : (c.set i s).Suited cfg :=
    forall_set (P := fun s ↦ s.policy.blank = (Policy.new cfg.policy s.budget).blank) hc hs
  have rewritten (i : Fin n) (e' : Entry K V) (fix access : Bool) :
      (Memcache.rewriteTable cfg.hash (c.shards i).toTable e' fix access).policy.blank =
        (c.shards i).policy.blank := by
    unfold Memcache.rewriteTable
    split <;> simp
  rcases h with _ | _ | ⟨_, i, s, hs⟩ | ⟨_, i, e⟩ | ⟨_, i, e, e', fix, access⟩ |
    ⟨_, i, e, now, expireAt⟩ | ⟨_, i, e⟩ | ⟨_, i, p, hp⟩ | ⟨_, i, r, p, hp⟩ | ⟨_, i, r, p, e, hp⟩ |
    ⟨_, i⟩ | ⟨_, i⟩ | _ | ⟨_, i, per⟩
  · exact one (hc _)
  · exact one (hc _)
  · rcases hs with _ | _ <;> exact one (hc i)
  · exact one ((Policy.blank_onInsert ..).trans (hc i))
  · exact one ((rewritten i e' fix access).trans (hc i))
  · exact one ((rewritten i _ true true).trans (hc i))
  · exact one ((Policy.blank_onRemove ..).trans (hc i))
  · exact one (hp.blank.trans (hc i))
  · exact one (hp.blank.trans (hc i))
  · exact one ((Policy.blank_onRemove ..).trans (hp.blank.trans (hc i)))
  · exact one (hc i)
  · exact one ((Policy.blank_reset _).trans (hc i))
  · exact hc
  · refine one ?_
    show ((c.shards i).policy.setBudget per).blank = _
    rw [Policy.blank_setBudget, Policy.kind_of_blank (hc i)]

end Core

namespace Cache

theorem suited_new (cfg : Config K V) : (new cfg n).core.Suited cfg := fun _ ↦ rfl

/-! ### The rounds -/

section Rounds

variable [BEq K] [EquivBEq K] [NeZero n] {cfg : Config K V} {env : Env K} {c : Cache K V n}
  {i : Fin n}

omit [EquivBEq K] [NeZero n] in
/-- A round without a victim finds the shard within its budget. -/
theorem length_le_of_nextVictim (hc : c.core.Inv) (hs : c.core.Suited cfg)
    (hpulled : (c.shards i).policy.pulledIds = []) (hb : 1 ≤ (c.shards i).budget)
    (hk : cfg.policy ≠ .tinyLfu ∨ 3 ≤ (c.shards i).budget) {keep : ℕ}
    (h : (c.nextVictim cfg i keep).1 = none) :
    (c.shards i).storage.length ≤ (c.shards i).budget := by
  by_contra hover
  have hlen : (c.shards i).policy.len = (c.shards i).storage.length := by
    rw [Policy.len_eq hpulled, ← List.length_map (f := Entry.ref)]
    exact (hc.table i).tracked.length_eq
  obtain ⟨r, -, hr⟩ := Policy.exists_victim cfg.hash (hc.table i).policy hpulled (hs i)
    hb hk (hlen ▸ not_le.1 hover)
  have hv : (shardVictim cfg (c.shards i)).1 = some r := by
    unfold shardVictim
    rw [if_pos ⟨hb, not_le.1 hover⟩]
    exact hr
  unfold nextVictim at h
  rw [if_neg (fun hn ↦ by rw [hv] at hn; exact absurd hn.1 (by simp)), hv] at h
  cases h

/-- **Enough rounds bring the shard within its budget.** -/
theorem evictRounds_within {b : ℕ} (hc : c.core.Inv) (hs : c.core.Suited cfg)
    (ht : c.core.Tracks fun _ ↦ []) (hbudget : (c.core.shards i).budget = b) (hb : 1 ≤ b)
    (hk : cfg.policy ≠ .tinyLfu ∨ 3 ≤ b) (reason : EvictionReason) {keep fuel : ℕ}
    (hf : (c.shards i).storage.length < fuel) :
    ((evictRounds cfg env i reason keep fuel c).1.core.shards i).storage.length ≤ b := by
  induction fuel generalizing c with
  | zero => exact absurd hf (Nat.not_lt_zero _)
  | succ fuel ih =>
    have hy := c.yields_nextVictim i cfg keep
    unfold evictRounds
    split
    · next p hp =>
      rw [core_modifyTable, Core.set_shards_self]
      subst hbudget
      exact length_le_of_nextVictim hc hs (ht i).pulled hb hk (by rw [hp])
    · next r p hp =>
      have hy : (c.shards i).policy.Yields p (some r) := by rwa [hp] at hy
      have hsteps {T : Licence K V} : Steps cfg T c (c.evict cfg env i r p reason) :=
        c.steps_evict i hy reason
      have hlen := length_storage_evict cfg env hc hy reason
      refine ih (inv_of_steps (T := .all) hsteps hc)
        (hsteps.invariant (T := .all) (I := Core.Suited cfg) Core.Suited.step hs)
        (Steps.tracks hsteps hc ht) ?_ (by omega)
      rw [(sameBounds_of_steps (T := .fixed) hsteps fun h ↦ h).budget, hbudget]

end Rounds

/-! ### Keys that do not equal themselves -/

section Unequal

variable [BEq K] [PartialEquivBEq K] {cfg : Config K V} {env : Env K} {c : Cache K V n} {i : Fin n}

/-- No stored entry is found under its own key. -/
def Unequal (c : Cache K V n) (i : Fin n) : Prop :=
  ∀ e ∈ (c.core.shards i).storage, (e.key == e.key) = false

/-- The removal of such an entry leaves it in the map. -/
theorem storage_dropEntry_of_unequal {t : Table K V} {e : Entry K V}
    (h : (e.key == e.key) = false) : (dropEntry t e).storage = t.storage := by
  refine List.filter_eq_self.2 fun a _ ↦ ?_
  rcases Bool.eq_false_or_eq_true (a.key == e.key) with hk | hk
  · rw [PartialEquivBEq.trans (BEq.symm hk) hk] at h
    cases h
  · simp [hk]

theorem Unequal.storage_evict (h : c.Unequal i) (r : Ref K) (p : Policy K)
    (reason : EvictionReason) : ((c.evict cfg env i r p reason).core.shards i).storage =
      (c.core.shards i).storage := by
  rcases hid : (c.shards i).byId r.id with _ | e
  · rw [evict_of_none cfg env c i hid, storage_setPolicy]
  · obtain ⟨s, hcore, hs, -⟩ := core_evict cfg env c i (p := p) hid reason
    have he : e ∈ (c.core.shards i).storage := List.mem_of_find?_eq_some hid
    rw [hcore, Core.add_shards, Core.set_shards_self, hs,
      storage_dropEntry_of_unequal (h e he)]

theorem Unequal.storage_evictRounds (h : c.Unequal i) (reason : EvictionReason) (keep fuel : ℕ) :
    ((evictRounds cfg env i reason keep fuel c).1.core.shards i).storage =
      (c.core.shards i).storage := by
  induction fuel generalizing c with
  | zero => rfl
  | succ fuel ih =>
    unfold evictRounds
    split
    · rw [core_modifyTable, Core.set_shards_self]
    · next r p _ =>
      have hstep : ((c.evict cfg env i r p reason).core.shards i).storage =
          (c.core.shards i).storage := h.storage_evict r p reason
      have hnext : (c.evict cfg env i r p reason).Unequal i := by
        unfold Unequal
        rwa [hstep]
      exact (ih hnext).trans hstep

/-- An insert adds an entry and its evictions take none away. -/
theorem Unequal.insertLocked (h : c.Unequal i) {e : Entry K V} (he : (e.key == e.key) = false) :
    (c.insertLocked cfg env i e).Unequal i ∧
      ((c.insertLocked cfg env i e).core.shards i).storage.length =
        (c.core.shards i).storage.length + 1 := by
  set b := (c.storeEntry cfg i e).countInsert.startJanitorFor cfg i e.expireAt with hb
  have hstored : (b.core.shards i).storage =
      (c.core.shards i).storage ++ [{ e with id := c.nextId }] := by
    rw [hb, core_startJanitorFor, core_countInsert]
    exact congrArg Table.storage (c.toTable_storeEntry i cfg e)
  have hu : b.Unequal i := by
    intro a ha
    rw [hstored] at ha
    rcases List.mem_append.1 ha with ha | ha
    · exact h a ha
    · obtain rfl := List.mem_singleton.1 ha
      exact he
  have hrounds : ((c.insertLocked cfg env i e).core.shards i).storage =
      (b.core.shards i).storage := hu.storage_evictRounds .capacity 1 _
  refine ⟨?_, ?_⟩
  · unfold Unequal
    rwa [hrounds]
  · rw [hrounds, hstored, List.length_append, List.length_singleton]

end Unequal

/-- **Inserts under a key that does not equal itself pile up**, whatever the shard's budget. -/
theorem exists_reached_unequal [BEq K] [PartialEquivBEq K] [Inhabited V] {key : K}
    (hkey : (key == key) = false) (kind : PolicyKind) (b m : ℕ) :
    ∃ (cfg : Config K V) (c : Cache K V 1), cfg.policy = kind ∧ Reached cfg c ∧
      c.sealed = false ∧ (c.core.shards 0).budget = b ∧ c.Unequal 0 ∧
      (c.core.shards 0).storage.length = m := by
  set cfg : Config K V := { defaultConfig (fun _ ↦ 0) with policy := kind } with hcfg
  -- any key may be given to the shard, and the bounds stay
  set T : Licence K V := ⟨.fixed, fun _ _ ↦ True, True⟩ with hT
  refine ⟨cfg, ?_⟩
  induction m with
  | zero =>
    refine ⟨(new cfg 1).modify 0 fun s ↦ { s with budget := b, policy := s.policy.setBudget b },
      rfl, (Reached.new cfg).locked (.instant 0) (.setBudget 0 b), rfl, ?_, ?_, ?_⟩
    · rw [core_modify, Core.set_shards_self]
      rfl
    · intro e he
      rw [core_modify, Core.set_shards_self] at he
      cases he
    · rw [core_modify, Core.set_shards_self]
      rfl
  | succ m ih =>
    obtain ⟨c, hk, hc, hopen, hbudget, hu, hm⟩ := ih
    set e : Entry K V := newEntry key default 1 0 0 false 0 [] with he
    have habsent : ((c.supersedeFlight 0 key).core.shards 0).get key = none := by
      rw [core_supersedeFlight, Core.set_shards_self]
      refine List.find?_eq_none.2 fun a ha hak ↦ ?_
      rw [PartialEquivBEq.trans (BEq.symm hak) hak] at hkey
      cases hkey
    have hd : c.upsertWithAbsoluteExpiryLocked cfg (.instant 0) 0 key default 1 0 [] =
        (c.supersedeFlight 0 key).insertLocked cfg (.instant 0) 0 e := by
      have hsealed : (c.supersedeFlight 0 key).sealed = false := hopen
      have hget : ((c.supersedeFlight 0 key).shards 0).get key = none := habsent
      simp only [upsertWithAbsoluteExpiryLocked, hsealed, hget, Bool.false_eq_true, if_false]
      rfl
    have hu' : (c.supersedeFlight 0 key).Unequal 0 := by
      intro a ha
      rw [core_supersedeFlight, Core.set_shards_self] at ha
      exact hu a ha
    obtain ⟨hu₁, hlen⟩ : ((c.supersedeFlight 0 key).insertLocked cfg (.instant 0) 0 e).Unequal 0 ∧
        (((c.supersedeFlight 0 key).insertLocked cfg (.instant 0) 0 e).core.shards 0).storage.length =
          ((c.supersedeFlight 0 key).core.shards 0).storage.length + 1 := hu'.insertLocked hkey
    have hsteps : Steps cfg T c (c.upsertWithAbsoluteExpiryLocked cfg (.instant 0) 0 key default
        1 0 []) :=
      (c.steps_supersedeFlight 0 key).trans
        (c.steps_upsertWithAbsoluteExpiryLocked 0 trivial le_rfl (by decide) 0)
    refine ⟨c.upsertWithAbsoluteExpiryLocked cfg (.instant 0) 0 key default 1 0 [], hk, ?_, ?_, ?_,
      ?_, ?_⟩
    · exact hc.locked (.instant 0)
        (.upsertWithAbsoluteExpiryLocked key default 1 0 [] le_rfl (by decide))
    · rw [hd]
      exact ((sheds_evictRounds _ rfl 1 _).sealed.trans
        (sheds_startJanitorFor _ _).sealed).trans hopen
    · rw [(sameBounds_of_steps hsteps fun h ↦ h).budget, hbudget]
    · rw [hd]
      exact hu₁
    · rw [hd, hlen, core_supersedeFlight, Core.set_shards_self]
      exact congrArg (· + 1) hm

end Cache

/-! ### Within the budget, or not -/

/-- Over a budget of `b`, a policy of the kind has a victim among the entries it tracks. -/
def Policy.Answers (K : Type) [BEq K] (kind : PolicyKind) (b : ℕ) : Prop :=
  ∀ (hash : K → UInt64) (p : Policy K), Policy.Attained hash kind b p → b < p.len →
    ∃ r ∈ p.tracked, (p.victim hash).1 = some r

/-- A shard of budget `b` ends its evictions after an insert with at most `b` entries. -/
def Cache.EndsWithin (K V : Type) [BEq K] [Inhabited V] (kind : PolicyKind) (b : ℕ) : Prop :=
  ∀ (n : ℕ) [NeZero n] (cfg : Config K V) (c : Cache K V n) (env : Env K) (i : Fin n)
    (reason : EvictionReason), cfg.policy = kind → Reached cfg c → (c.shards i).budget = b →
    ((c.evictOverBudgetLocked cfg env i reason 1).1.shards i).storage.length ≤ b

theorem Policy.answers {K : Type} [BEq K] {kind : PolicyKind} {b : ℕ} (hb : 1 ≤ b)
    (hk : kind ≠ .tinyLfu ∨ 3 ≤ b) : Policy.Answers K kind b :=
  fun hash _ hp ↦ Policy.exists_victim hash hp.wellFormed hp.pulledIds hp.blank hb hk

theorem Cache.endsWithin {K V : Type} [BEq K] [EquivBEq K] [Inhabited V] {kind : PolicyKind} {b : ℕ}
    (hb : 1 ≤ b) (hk : kind ≠ .tinyLfu ∨ 3 ≤ b) : Cache.EndsWithin K V kind b := by
  intro n _ cfg c env i reason hpolicy hc hbudget
  have hinv := hc.inv_timely.1
  refine Cache.evictRounds_within hinv (hc.invariant Core.Suited.step (suited_new cfg)) hc.tracks
    hbudget hb (hpolicy ▸ hk) reason ?_
  have htracked := (hinv.table i).tracked.length_eq
  rw [List.length_map] at htracked
  exact Nat.lt_succ_iff.2 htracked.ge

/-- A key that does not equal itself takes any shard over its budget. -/
theorem Cache.not_endsWithin {K V : Type} [BEq K] [PartialEquivBEq K] [Inhabited V] {key : K}
    (hkey : (key == key) = false) (kind : PolicyKind) (b : ℕ) : ¬ Cache.EndsWithin K V kind b := by
  intro h
  obtain ⟨cfg, c, hk, hc, -, hbudget, hu, hlen⟩ :=
    Cache.exists_reached_unequal (V := V) hkey kind b (b + 1)
  have hle := h 1 cfg c (.instant 0) 0 .capacity hk hc hbudget
  have hst : ((Cache.evictRounds cfg (.instant 0) 0 .capacity 1
      ((c.shards 0).policy.tracked.length + 1) c).1.core.shards 0).storage =
        (c.core.shards 0).storage := hu.storage_evictRounds .capacity 1 _
  have : ((c.evictOverBudgetLocked cfg (.instant 0) 0 .capacity 1).1.core.shards 0).storage.length
      = b + 1 := by
    rw [← hlen]
    exact congrArg List.length hst
  exact absurd hle (not_le.2 (this ▸ Nat.lt_succ_self b))

/-- **`W-TinyLFU` over a budget of one or two may have no victim**: each of its three lists holds
one entry. -/
theorem Policy.not_answers_tinyLfu {b : ℕ} (hb : 1 ≤ b) (h : b < 3) :
    ¬ Policy.Answers ℕ .tinyLfu b := by
  intro hall
  have hnone {p : Policy ℕ} (hp : Policy.Attained UInt64.ofNat .tinyLfu b p) (hlen : b < p.len)
      (hv : (p.victim UInt64.ofNat).1 = none) : False := by
    obtain ⟨r, -, hr⟩ := hall UInt64.ofNat p hp hlen
    rw [hv] at hr
    cases hr
  have start : Policy.Attained UInt64.ofNat .tinyLfu b (.new .tinyLfu b) := .new b
  obtain rfl | rfl : b = 1 ∨ b = 2 := by omega
  · have hp := (start.op (.insert ⟨0, 0⟩) (by decide)).op (.insert ⟨1, 1⟩) (by decide +kernel)
    exact hnone hp (by decide +kernel) (by decide +kernel)
  · -- the first entry reaches `Protected`, the next two fill the other lists
    have hp := ((((start.op (.insert ⟨0, 0⟩) (by decide)).op (.insert ⟨1, 1⟩)
      (by decide +kernel)).op .evict trivial).op (.access 0) trivial).op (.insert ⟨2, 2⟩)
      (by decide +kernel)
    exact hnone hp (by decide +kernel) (by decide +kernel)

/-- **A policy over its budget has a victim, and its shard ends within the budget**, for every
policy but `W-TinyLFU` with a budget below three; for every shard, the keys must equal
themselves. -/
theorem Cache.answers_and_endsWithin_iff {kind : PolicyKind} {b : ℕ} (hb : 1 ≤ b) :
    ((∀ (K V : Type) [BEq K] [EquivBEq K] [Inhabited V],
        Policy.Answers K kind b ∧ Cache.EndsWithin K V kind b) ↔ kind ≠ .tinyLfu ∨ 3 ≤ b) ∧
      ∀ (K V : Type) [BEq K] [PartialEquivBEq K] [Inhabited V] (key : K), (key == key) = false →
        ¬ Cache.EndsWithin K V kind b := by
  refine ⟨⟨fun h ↦ ?_, fun hk K V _ _ _ ↦ ⟨Policy.answers hb hk, Cache.endsWithin hb hk⟩⟩,
    fun K V _ _ _ key hkey ↦ Cache.not_endsWithin hkey kind b⟩
  by_contra hcon
  obtain ⟨rfl, hlt⟩ : kind = .tinyLfu ∧ b < 3 := by
    simpa only [not_or, not_not, not_le] using hcon
  exact Policy.not_answers_tinyLfu hb hlt (h ℕ ℕ).1

/-- `S3-FIFO` with the smallest budget a shard is given. -/
theorem Cache.answers_and_endsWithin_s3fifo :
    Policy.Answers ℕ .s3fifo 2 ∧ Cache.EndsWithin ℕ ℕ .s3fifo 2 :=
  (Cache.answers_and_endsWithin_iff (by decide)).1.2 (.inl (by decide)) ℕ ℕ

/-- Four entries allowed, in four shards of budget two. -/
def tinyConfig : Config ℕ ℕ :=
  { defaultConfig UInt64.ofNat with policy := .tinyLfu, maxEntries := 4 }

/-- Four keys of one shard, the first one read in between: three are stored at the end, although the
shard's budget is two, the cache is within its bounds and the shard has just evicted. -/
theorem Cache.length_tinyLfu_three :
    let c : Cache ℕ ℕ 4 := run tinyConfig (new tinyConfig 4)
      [(.instant 1, .set 0 0), (.instant 2, .set 4 0), (.instant 3, .set 8 0), (.instant 4, .get 0),
        (.instant 5, .set 12 0)]
    (c.shards 0).budget = 2 ∧ c.overBudget = false ∧ (c.shards 0).policy.len = 3 ∧
      ((c.shards 0).policy.victim tinyConfig.hash).1 = none ∧
      ((c.evictOverBudgetLocked tinyConfig (.instant 6) 0 .capacity 1).1.shards 0).storage.length
        = 3 := by
  decide +kernel

end Memcache
