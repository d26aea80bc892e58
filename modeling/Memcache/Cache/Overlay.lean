import Memcache.Cache.Keep
import Memcache.Cache.Lookup
import Memcache.Cache.ReadMap

/-!
# Queued writes over storage

Under asynchronous writes a `Set` or `Delete` is accepted into a queue that keeps one write per key,
and a drain moves writes to storage: all of a shard's at once, or the one of a key that another
method is about to work on. A read looks at the queue before it looks at storage. So the cache is one
map (`overlay`) that is kept in two places, and moving a write between them does not show: **a read
finds what the last accepted write of its key left, at every point of a run in which nothing is
evicted**.
-/

namespace Memcache

variable {K V : Type*} {n : ℕ} [BEq K]

/-! ### Queued writes -/

namespace PendingOp

/-- What a queued write leaves under its key. -/
def effect (op : PendingOp K V) : Option V :=
  match op.kind with
  | .set => some op.value
  | .delete => none

/-- A queued write without a TTL. -/
structure Plain (op : PendingOp K V) : Prop where
  expireAt : op.expireAt ≤ 0
  effectiveTTL : op.effectiveTTL ≤ 0
  sliding : op.sliding = true → op.rawTTL ≤ 0

end PendingOp

namespace Cache

variable {cfg : Config K V} {env : Env K} {c c' : Cache K V n} {i : Fin n}

/-- What the writes leave under a key, the last of them first. -/
def assignAll : List (PendingOp K V) → K → Option (Option V)
  | [], _ => none
  | op :: ops, k => (assignAll ops k).or (assign op.key op.effect k)

/-- A queue with one write per key, each under its own key and without a TTL. -/
structure QueueOk (m : KeyMap K (PendingOp K V)) : Prop where
  unique : m.Unique
  keyed : ∀ p ∈ m.pairs, p.2.key = p.1
  plain : ∀ op ∈ m.values, op.Plain

theorem assignAll_eq_none {ops : List (PendingOp K V)} {k : K}
    (h : ∀ op ∈ ops, (op.key == k) = false) : assignAll ops k = none := by
  induction ops with
  | nil => rfl
  | cons op ops ih =>
    rw [assignAll, ih fun o ho ↦ h o (List.mem_cons_of_mem _ ho), assign, h op List.mem_cons_self]
    rfl

variable {op : PendingOp K V}

namespace QueueOk

variable {m : KeyMap K (PendingOp K V)}

/-- The order in which a queue is applied does not matter. -/
theorem assignAll_values [PartialEquivBEq K] (h : QueueOk m) (k : K) :
    assignAll m.values k = (m.get k).map PendingOp.effect := by
  obtain ⟨l⟩ := m
  obtain ⟨hunique, hkeyed, -⟩ := h
  induction l with
  | nil => rfl
  | cons p l ih =>
    obtain ⟨hp, hl⟩ := List.pairwise_cons.1 hunique
    have hkey : p.2.key = p.1 := hkeyed p List.mem_cons_self
    show (assignAll (KeyMap.values ⟨l⟩) k).or (assign p.2.key p.2.effect k) = _
    rw [KeyMap.get_cons, hkey, assign]
    split_ifs with hk
    · have hrest : assignAll (KeyMap.values ⟨l⟩) k = none := by
        refine assignAll_eq_none fun op hop ↦ ?_
        obtain ⟨q, hq, rfl⟩ := List.mem_map.1 hop
        rw [hkeyed q (List.mem_cons_of_mem _ hq)]
        refine Bool.eq_false_iff.2 fun hqk ↦ ?_
        exact Bool.eq_false_iff.1 (hp q hq) (PartialEquivBEq.trans hk (BEq.symm hqk))
      rw [hrest]
      rfl
    · rw [Option.or_none]
      exact ih hl fun q hq ↦ hkeyed q (List.mem_cons_of_mem _ hq)

theorem erase (h : QueueOk m) (k : K) : QueueOk (m.erase k) where
  unique := h.unique.erase k
  keyed p hp := h.keyed p (KeyMap.mem_of_mem_erase hp).1
  plain op hop := h.plain op (KeyMap.mem_values_of_erase hop)

theorem insert [PartialEquivBEq K] (h : QueueOk m) (hop : op.Plain) :
    QueueOk (m.insert op.key op) where
  unique := h.unique.insert _ _
  keyed p hp := by
    rcases KeyMap.mem_of_mem_insert hp with rfl | ⟨hp, -⟩
    · rfl
    · exact h.keyed p hp
  plain o ho := by
    rcases KeyMap.mem_values_insert ho with rfl | ho
    · exact hop
    · exact h.plain o ho

theorem empty : QueueOk (.empty : KeyMap K (PendingOp K V)) := ⟨.nil, nofun, nofun⟩

end QueueOk

section Apply

variable [PartialEquivBEq K]

/-- A queued write is assigned to its key. -/
theorem assigns_applyPendingOpLocked (hd : NodeList.Distinct Entry.id (c.shards i).storage)
    (hopen : c.sealed = false) (hallow : env.admits op.key = true) (hop : op.Plain) :
    Assigns c (c.applyPendingOpLocked cfg env i op) i (assign op.key op.effect) := by
  unfold applyPendingOpLocked PendingOp.effect
  rcases op.kind with - | -
  · dsimp only
    rw [if_neg (not_lt.2 hop.expireAt)]
    exact assigns_upsertLocked hd hopen hallow op.value op.weight hop.effectiveTTL hop.sliding op.tags
  · exact assigns_removeKeyLocked op.key .deleted

theorem assigns_applyAll [NeZero n] {ops : List (PendingOp K V)} {c : Cache K V n}
    (hbare : c.core.Bare (.placed cfg n True)) (hopen : c.sealed = false)
    (hallow : ∀ key, env.admits key = true)
    (hops : ∀ op ∈ ops, op.Plain ∧ op.Ok ((Licence.placed (V := V) cfg n True).takes i)) :
    Assigns c (ops.foldl (fun c op ↦ c.applyPendingOpLocked cfg env i op) c) i (assignAll ops) := by
  induction ops generalizing c with
  | nil => exact .of_keeps (.refl c)
  | cons op ops ih =>
    obtain ⟨hplain, hok⟩ := hops op List.mem_cons_self
    have hone : Assigns c (c.applyPendingOpLocked cfg env i op) i (assign op.key op.effect) :=
      assigns_applyPendingOpLocked (hbare i).distinct hopen (hallow _) hplain
    have hsteps : Steps cfg (.placed cfg n True) c (c.applyPendingOpLocked cfg env i op) :=
      (c.steps_supersedeFlight i op.key).trans (c.steps_applyPendingOpLocked i hok)
    have hbare' := hsteps.invariant (I := Core.Bare (.placed cfg n True)) Core.Bare.step hbare
    exact hone.trans (ih hbare' (hone.sealed.trans hopen)
      fun o ho ↦ hops o (List.mem_cons_of_mem _ ho))

end Apply

/-! ### The map a read sees -/

variable [NeZero n]

/-- The queued write of a key, or else what storage holds. -/
def overlay (cfg : Config K V) (c : Cache K V n) (key : K) : Option V :=
  match (c.shards (shardFor cfg key)).pending.get key with
  | some op => op.effect
  | none => (c.lookupKey cfg key).map Entry.value

variable [Inhabited V]

/-- An open cache with nothing in it, queued or stored, that expires. -/
structure Ordinary (cfg : Config K V) (c : Cache K V n) : Prop where
  reached : Reached cfg c
  opened : c.closed = false
  unsealed : c.sealed = false
  queue : ∀ i, QueueOk (c.shards i).pending
  plain : ∀ i, ∀ e ∈ (c.shards i).storage, e.Plain

/-- `d` is `c` without the queued writes of a shard that leave `g`. -/
structure Unqueues (c d : Cache K V n) (i : Fin n) (g : K → Option (Option V)) : Prop where
  storage : ∀ j, (d.shards j).storage = (c.shards j).storage
  others : ∀ j ≠ i, (d.shards j).pending = (c.shards j).pending
  queue : QueueOk (c.shards i).pending → QueueOk (d.shards i).pending
  moved : QueueOk (c.shards i).pending → ∀ k,
    (c.shards i).pending.get k = (d.shards i).pending.get k ∧ g k = none ∨
      (d.shards i).pending.get k = none ∧ g k = ((c.shards i).pending.get k).map PendingOp.effect
  stats : d.stats = c.stats
  closed : d.closed = c.closed
  sealed : d.sealed = c.sealed

omit [NeZero n] [Inhabited V] in
theorem Unqueues.refl (c : Cache K V n) (i : Fin n) : Unqueues c c i fun _ ↦ none :=
  ⟨fun _ ↦ rfl, fun _ _ ↦ rfl, id, fun _ _ ↦ .inl ⟨rfl, rfl⟩, rfl, rfl, rfl⟩

omit [NeZero n] [Inhabited V] in
/-- A change of one shard's queue. -/
theorem Unqueues.of_modify (c : Cache K V n) (i : Fin n) {m : KeyMap K (PendingOp K V)}
    {g : K → Option (Option V)} (hqueue : QueueOk (c.shards i).pending → QueueOk m)
    (hmoved : QueueOk (c.shards i).pending → ∀ k, (c.shards i).pending.get k = m.get k ∧ g k = none ∨
      m.get k = none ∧ g k = ((c.shards i).pending.get k).map PendingOp.effect) :
    Unqueues c (c.modify i fun s ↦ { s with pending := m }) i g where
  storage j := modify_cases j rfl fun _ _ ↦ rfl
  others j hj := by rw [modify_shards_of_ne _ _ hj]
  queue := by
    rw [modify_shards_self]
    exact hqueue
  moved := by
    rw [modify_shards_self]
    exact hmoved
  stats := rfl
  closed := rfl
  sealed := rfl

/-- **Writes that move from the queue of a shard to its storage do not show.** -/
theorem Ordinary.of_unqueues (h : Ordinary cfg c) {d : Cache K V n} {g : K → Option (Option V)}
    (hu : Unqueues c d i g) (ha : Assigns d c' i g)
    (heq : c'.stats.evictions = c.stats.evictions) (hreached : Reached cfg c') :
    Ordinary cfg c' ∧ ∀ key, c'.overlay cfg key = c.overlay cfg key := by
  have heq : c'.stats.evictions = d.stats.evictions := by rw [heq, hu.stats]
  refine ⟨⟨hreached, ?_, ?_, fun j ↦ ?_, fun j ↦ ?_⟩, fun key ↦ ?_⟩
  · rw [ha.closed, hu.closed, h.opened]
  · rw [ha.sealed, hu.sealed, h.unsealed]
  · rw [ha.pending]
    rcases eq_or_ne j i with rfl | hj
    · exact hu.queue (h.queue j)
    · rw [hu.others j hj]
      exact h.queue j
  · rcases eq_or_ne j i with rfl | hj
    · exact ha.plain heq (hu.storage j ▸ h.plain j)
    · rw [ha.others heq j hj, hu.storage j]
      exact h.plain j
  · have hget (j : Fin n) : (d.shards j).get key = (c.shards j).get key := by
      show List.find? _ _ = List.find? _ _
      rw [hu.storage j]
    unfold overlay lookupKey
    rw [ha.pending]
    by_cases hj : shardFor cfg key = i
    · subst hj
      rcases hu.moved (h.queue _) key with ⟨hsame, hg⟩ | ⟨hnone, hg⟩
      · rw [hsame]
        rcases (d.shards (shardFor cfg key)).pending.get key with - | op
        · dsimp only
          rw [ha.value heq, hg, hget]
          rfl
        · rfl
      · rw [hnone]
        dsimp only
        rw [ha.value heq, hg, hget]
        rcases (c.shards (shardFor cfg key)).pending.get key with - | op <;> rfl
    · have hstore : (c'.shards (shardFor cfg key)).get key =
          (c.shards (shardFor cfg key)).get key := by
        rw [← hget]
        show List.find? _ _ = List.find? _ _
        rw [ha.others heq _ hj]
      rw [hu.others _ hj, hstore]

variable [PartialEquivBEq K]

/-! ### Moving writes to storage -/

omit [BEq K] [Inhabited V] [PartialEquivBEq K] in
theorem enforceGroupBudgets_of_nil [BEq K] (hgroups : cfg.groups = []) (c : Cache K V n)
    (tags : List String) : c.enforceGroupBudgets cfg env tags = c :=
  enforceGroupBudgets_of_none fun t _ ↦ by rw [hgroups]; rfl

/-- `drainShard` applies the whole queue of a shard. -/
theorem Ordinary.drainShard (h : Ordinary cfg c) (hgroups : cfg.groups = [])
    (hallow : ∀ key, env.admits key = true) (i : Fin n)
    (heq : (c.drainShard cfg env i).stats.evictions = c.stats.evictions) :
    Ordinary cfg (c.drainShard cfg env i) ∧
      (∀ key, (c.drainShard cfg env i).overlay cfg key = c.overlay cfg key) ∧
      ((c.drainShard cfg env i).shards i).pending = .empty := by
  have hreached : Reached cfg (c.drainShard cfg env i) := h.reached.op env (.drainShard i)
  by_cases hnil : (c.shards i).pending.values = []
  · have hsame : c.drainShard cfg env i = c := by
      unfold Cache.drainShard
      rw [hnil]
      rfl
    rw [hsame]
    refine ⟨h, fun _ ↦ rfl, ?_⟩
    rcases hm : (c.shards i).pending with ⟨l⟩
    rw [hm] at hnil
    obtain rfl : l = [] := List.map_eq_nil_iff.1 hnil
    rfl
  · set d := c.modify i fun s ↦ { s with pending := .empty } with hd
    have hu : Unqueues c d i (assignAll (c.shards i).pending.values) :=
      .of_modify c i (fun _ ↦ .empty) fun hq k ↦ .inr ⟨rfl, hq.assignAll_values k⟩
    have hbare : d.core.Bare (.placed cfg n True) := by
      intro j
      have hj : (d.shards j).storage = (c.shards j).storage := hu.storage j
      exact (h.reached.bare j).sublist (hj ▸ List.Sublist.refl _)
    have hops : ∀ op ∈ (c.shards i).pending.values,
        op.Plain ∧ op.Ok ((Licence.placed (V := V) cfg n True).takes i) := fun op hop ↦
      ⟨(h.queue i).plain op hop, (h.reached.ready True i).1 op hop⟩
    have hdrain : c.drainShard cfg env i = ((c.shards i).pending.values.foldl
        (fun c op ↦ c.applyPendingOpLocked cfg env i op) d).flushAndUnlock cfg env i := by
      unfold Cache.drainShard
      dsimp only
      rw [if_neg hnil]
      simp only [enforceGroupBudgets_of_nil hgroups, ite_self, List.foldl_fixed]
      rfl
    have hassign : Assigns d (c.drainShard cfg env i) i (assignAll (c.shards i).pending.values) := by
      rw [hdrain]
      exact (assigns_applyAll hbare h.unsealed hallow hops).keeps (keeps_flushAndUnlock _)
    obtain ⟨ho, hoverlay⟩ := h.of_unqueues hu hassign heq hreached
    refine ⟨ho, hoverlay, ?_⟩
    rw [hassign.pending, hd, modify_shards_self]

/-- `applyPendingKey` applies the queued write of a key. -/
theorem Ordinary.applyPendingKey (h : Ordinary cfg c) (hgroups : cfg.groups = [])
    (hallow : ∀ key, env.admits key = true) (key : K)
    (heq : (c.applyPendingKey cfg env key).stats.evictions = c.stats.evictions) :
    Ordinary cfg (c.applyPendingKey cfg env key) ∧
      ∀ k, (c.applyPendingKey cfg env key).overlay cfg k = c.overlay cfg k := by
  have hreached : Reached cfg (c.applyPendingKey cfg env key) :=
    h.reached.op env (.applyPendingKey key)
  have hunlock (d : Cache K V n) (tags : List String) :
      Keeps d (d.unlockAfter cfg env (shardFor cfg key) tags) := by
    unfold unlockAfter
    rw [enforceGroupBudgets_of_nil hgroups]
    exact (keeps_releaseShard d).trans (keeps_shedOverBudget _ rfl _)
  by_cases hasync : cfg.asyncWrites
  · rcases hop : (c.shards (shardFor cfg key)).pending.get key with - | op
    · have hsame : c.applyPendingKey cfg env key = c.unlockAfter cfg env (shardFor cfg key) [] := by
        unfold Cache.applyPendingKey
        dsimp only
        rw [if_pos hasync, applyPendingKeyLocked, hop]
      refine h.of_unqueues (.refl c (shardFor cfg key)) ?_ heq hreached
      rw [hsame]
      exact .of_keeps (hunlock c [])
    · obtain ⟨p, hp, hpk, rfl⟩ := KeyMap.get_eq_some hop
      have hkey : p.2.key == key := (h.queue _).keyed p hp ▸ hpk
      have hu : Unqueues c (c.unqueue (shardFor cfg key) key) (shardFor cfg key)
          (assign p.2.key p.2.effect) := by
        refine .of_modify c _ (fun hq ↦ hq.erase key) fun hq k ↦ ?_
        rw [KeyMap.get_erase, assign]
        by_cases hk : key == k
        · right
          rw [if_pos hk, if_pos (PartialEquivBEq.trans hkey hk), ← KeyMap.get_congr hk, hop]
          exact ⟨rfl, rfl⟩
        · left
          rw [if_neg hk, if_neg fun hpk ↦ hk (PartialEquivBEq.trans (BEq.symm hkey) hpk)]
          exact ⟨rfl, rfl⟩
      have hd : NodeList.Distinct Entry.id
          ((c.unqueue (shardFor cfg key) key).shards (shardFor cfg key)).storage := by
        rw [hu.storage]
        exact (h.reached.bare _).distinct
      have hplain : p.2.Plain := (h.queue _).plain _ (List.mem_map_of_mem hp)
      refine h.of_unqueues hu ?_ heq hreached
      rw [applyPendingKey_eq hasync env hop]
      exact (assigns_applyPendingOpLocked hd h.unsealed (hallow _) hplain).keeps (hunlock _ _)
  · have hsame : c.applyPendingKey cfg env key = c := if_neg hasync
    rw [hsame]
    exact ⟨h, fun _ ↦ rfl⟩

/-! ### Reads -/

omit [NeZero n] [Inhabited V] [PartialEquivBEq K] in
/-- A hit rewrites its entry with the value it has. -/
theorem assigns_put {key : K} {e e' : Entry K V} (he : (c.shards i).get key = some e)
    (hd : NodeList.Distinct Entry.id (c.shards i).storage) {f : Table K V → Table K V}
    (hf : ∀ t, (f t).storage = (t.put e').storage) (hid : e'.id = e.id) (hkey : e'.key = e.key)
    (hvalue : e'.value = e.value) (hplain : e.Plain → e'.Plain) :
    Assigns c (c.modifyTable i f) i fun _ ↦ none := by
  have hmem : e ∈ (c.shards i).storage := Table.mem_of_get he
  have hself : ((c.modifyTable i f).shards i).storage = ((c.shards i).toTable.put e').storage := by
    rw [modifyTable_toTable, hf]
  refine ⟨(still_modifyTable c i f).toFrame, le_rfl, fun _ j hj ↦ ?_, fun _ k ↦ ?_, fun _ hp a ha ↦ ?_⟩
  · rw [modifyTable, modify_shards_of_ne _ _ hj]
  · show Option.map _ (List.find? _ _) = _
    rw [hself]
    show Option.map _ (((c.shards i).toTable.put e').get k) = _
    rw [Table.get_put_eq hd hmem hid hkey, Option.map_map]
    rcases hold : (c.shards i).get k with - | a
    · rfl
    · refine congrArg some ?_
      show (if a.id = e'.id then e' else a).value = a.value
      split_ifs with ha
      · rw [hd.eq_of_ident (Table.mem_of_get hold) hmem (ha.trans hid), hvalue]
      · rfl
  · rw [hself] at ha
    rcases NodeList.mem_replace ha with rfl | ⟨ha, -⟩
    · exact hplain (hp e hmem)
    · exact hp a ha

omit [NeZero n] [Inhabited V] [PartialEquivBEq K] in
theorem keeps_countReadMiss (c : Cache K V n) (i : Fin n) : Keeps c (c.modify i countReadMiss) where
  toFrame := (sheds_countReadMiss c i (c.shards i).dead).toFrame
  counted := le_rfl
  storage _ j := modify_cases j (congrArg Table.storage (toTable_countReadMiss _)) fun _ _ ↦ rfl

omit [BEq K] [NeZero n] [Inhabited V] [PartialEquivBEq K] in
/-- A plain entry is fresh, and a read leaves it plain. -/
theorem entryExpiredLocked_of_plain {e : Entry K V} (hexp : cfg.expireFunc = none) (he : e.Plain)
    (now : ℤ) : entryExpiredLocked cfg e now = false := by
  simp [entryExpiredLocked, Entry.expired, hexp, he.expireAt]

omit [BEq K] [NeZero n] [Inhabited V] [PartialEquivBEq K] in
theorem touchAccess_of_plain {e : Entry K V} (he : e.Plain) (now : ℤ) :
    (e.touchAccess now).1 = { e with lastAccess := now } := by
  unfold Entry.touchAccess
  rw [if_pos]
  rcases Bool.eq_false_or_eq_true e.sliding with hs | hs
  · exact .inr (he.sliding hs)
  · exact .inl (by rw [hs]; rfl)

omit [Inhabited V] in
theorem getLocked_of_plain (hexp : cfg.expireFunc = none) (hd : NodeList.Distinct Entry.id (c.shards i).storage)
    (hplain : ∀ e ∈ (c.shards i).storage, e.Plain) (env : Env K) (key : K) :
    (c.getLocked cfg env i key).1.value = ((c.shards i).get key).map Entry.value ∧
      Assigns c (c.getLocked cfg env i key).2 i fun _ ↦ none := by
  rcases he : (c.shards i).get key with - | e
  · have heq : c.getLocked cfg env i key = (.absent, c.flushAndUnlock cfg env i) := by
      unfold getLocked
      rw [he]
    rw [heq]
    exact ⟨rfl, .of_keeps (keeps_flushAndUnlock c)⟩
  · have hp := hplain e (Table.mem_of_get he)
    have hcount : Assigns c (c.countHit i e) i fun _ ↦ none :=
      assigns_put he hd (fun _ ↦ rfl) rfl rfl rfl fun _ ↦ ⟨hp.expireAt, hp.negative, hp.sliding⟩
    rcases Bool.eq_false_or_eq_true (servesUnderReadLock cfg (c.shards i) e env.now) with hs | hs
    · have heq : c.getLocked cfg env i key = (.hit e.value,
          if cfg.lockFreeRead then (c.countHit i e).recordReadMiss i key else c.countHit i e) := by
        unfold getLocked
        rw [he]
        dsimp only
        rw [if_pos hs]
      rw [heq]
      refine ⟨rfl, ?_⟩
      dsimp only
      unfold recordReadMiss
      split_ifs
      · exact hcount
      · exact hcount.keeps (keeps_countReadMiss _ i)
      · exact hcount
    · set e₁ := (({ e with hits := e.hits + 1 } : Entry K V).touchAccess env.now).1 with he₁
      have hp₁ : ({ e with hits := e.hits + 1 } : Entry K V).Plain :=
        ⟨hp.expireAt, hp.negative, hp.sliding⟩
      have htouched : e₁ = { e with hits := e.hits + 1, lastAccess := env.now } :=
        touchAccess_of_plain hp₁ env.now
      have hlate : shouldRefreshAhead cfg e₁ env.now = false := by
        simp [shouldRefreshAhead, htouched, hp.expireAt]
      have htouch : Assigns c (c.touchEntry cfg env i e) i fun _ ↦ none := by
        have hsame : e₁.id = e.id ∧ e₁.key = e.key ∧ e₁.value = e.value ∧ e₁.Plain := by
          rw [htouched]
          exact ⟨rfl, rfl, rfl, hp.expireAt, hp.negative, hp.sliding⟩
        obtain ⟨hid, hkey, hvalue, hplain₁⟩ := hsame
        unfold touchEntry
        exact assigns_put he hd (fun _ ↦ rfl) hid hkey hvalue fun _ ↦ hplain₁
      rw [getLocked_of_live he (entryExpiredLocked_of_plain hexp hp env.now) hp.negative hs, ← he₁,
        hlate]
      refine ⟨rfl, ?_⟩
      dsimp only
      rw [if_neg Bool.false_ne_true]
      unfold maybePromoteOnSlowHit
      split_ifs
      · exact htouch.keeps (keeps_flushAndUnlock _)
      · exact htouch.keeps ((keeps_countReadMiss _ i).trans (keeps_flushAndUnlock _))

/-- **A read finds what the overlay holds**, on whichever path. -/
theorem Ordinary.get (h : Ordinary cfg c) (hexp : cfg.expireFunc = none) (env : Env K) (key : K) :
    (c.get cfg env key).1.value = c.overlay cfg key ∧
      Assigns c (c.get cfg env key).2 (shardFor cfg key) fun _ ↦ none := by
  have hbare := h.reached.bare (shardFor cfg key)
  have hread : Publishes cfg.lockFreeRead (c.shards (shardFor cfg key)).core :=
    h.reached.published (shardFor cfg key)
  unfold Cache.get overlay
  dsimp only
  rw [h.opened, if_neg Bool.false_ne_true]
  rcases hop : (c.shards (shardFor cfg key)).pending.get key with - | op
  · have hqueue : asyncReadHit (c.shards (shardFor cfg key)) key env.now = none := by
      rw [asyncReadHit, hop]
    rw [hqueue]
    dsimp only
    rcases hfree : tryLockFreeGet cfg (c.shards (shardFor cfg key)) key env.now with - | - | e
    · exact getLocked_of_plain hexp hbare.distinct (h.plain _) env key
    · rw [lookupKey, hread.get_of_miss hfree]
      exact ⟨rfl, .of_keeps (.refl c)⟩
    · have he : (c.shards (shardFor cfg key)).get key = some e := hread.get_of_hit hbare hfree
      have hp := h.plain _ e (Table.mem_of_get he)
      rw [lookupKey, he]
      exact ⟨rfl, assigns_put he hbare.distinct (fun _ ↦ rfl) rfl rfl rfl
        fun _ ↦ ⟨hp.expireAt, hp.negative, hp.sliding⟩⟩
  · have hp := (h.queue _).plain op (KeyMap.mem_values_of_get hop)
    have hqueue : asyncReadHit (c.shards (shardFor cfg key)) key env.now =
        some (match op.kind with | .set => .hit op.value | .delete => .miss) := by
      rw [asyncReadHit, hop]
      dsimp only
      rcases op.kind with - | -
      · exact if_neg fun hlt ↦ absurd hlt.1 (not_lt.2 hp.expireAt)
      · rfl
    rw [hqueue]
    refine ⟨?_, .of_keeps (.refl c)⟩
    dsimp only [PendingOp.effect]
    rcases op.kind with - | - <;> rfl

/-! ### Accepting writes -/

/-- A call accepts a write of the key into the queue, or is refused and changes nothing. -/
def Accepts (cfg : Config K V) (c : Cache K V n) (key : K) (v : Option V)
    (r : Except CacheError Unit × Cache K V n) : Prop :=
  (∃ e, r = (.error e, c)) ∨ ∃ op : PendingOp K V, op.key = key ∧ op.effect = v ∧ op.Plain ∧
    r = (.ok (), c.enqueuePending (shardFor cfg key) op)

omit [Inhabited V] [PartialEquivBEq K] in
theorem accepts_asyncSet (env : Env K) (c : Cache K V n) (key : K) (value : V) {ttl : ℤ}
    (httl : ttl = 0) (sliding : Bool) (tags : List String) :
    Accepts cfg c key (some value) (c.asyncSet cfg env key value ttl sliding tags) := by
  subst httl
  unfold asyncSet
  split
  · exact .inl ⟨_, rfl⟩
  · exact .inr ⟨_, rfl, rfl, ⟨le_rfl, le_rfl, fun _ ↦ le_rfl⟩, rfl⟩

omit [Inhabited V] [PartialEquivBEq K] in
theorem accepts_setTTL (hasync : cfg.asyncWrites = true) (env : Env K) (c : Cache K V n) (key : K)
    (value : V) {ttl : ℤ} (httl : ttl = 0) :
    Accepts cfg c key (some value) (c.setTTL cfg env key value ttl) := by
  unfold setTTL
  dsimp only
  rw [if_pos hasync]
  exact accepts_asyncSet env c key value httl _ _

omit [Inhabited V] [PartialEquivBEq K] in
theorem accepts_setWithOptions (hasync : cfg.asyncWrites = true) (env : Env K) (c : Cache K V n)
    (key : K) (value : V) (opts : List SetOption) (guard : Bool)
    (httl : (resolveOptions cfg value opts).ttl = 0)
    (hexpiry : expireNanos (resolveOptions cfg value opts).expireAt = 0) :
    Accepts cfg c key (some value) (c.setWithOptions cfg env key value opts guard) := by
  unfold setWithOptions
  dsimp only
  split
  · exact .inl ⟨_, rfl⟩
  · rw [if_pos hasync]
    unfold asyncSetOptions
    split_ifs
    · exact .inl ⟨_, rfl⟩
    · exact .inr ⟨_, rfl, rfl, ⟨hexpiry.le, le_rfl, fun _ ↦ httl.le⟩, rfl⟩
    · exact .inl ⟨_, rfl⟩
    · exact accepts_asyncSet env c key value httl _ _

/-- **An accepted write is what a read of its key finds from then on**, and of no other key. -/
theorem Ordinary.enqueue (h : Ordinary cfg c) (hop : op.Plain) {d : Cache K V n}
    (hd : d.core = (c.enqueuePending (shardFor cfg op.key) op).core) (hclosed : d.closed = c.closed)
    (hsealed : d.sealed = c.sealed) (hreached : Reached cfg d) :
    Ordinary cfg d ∧ ∀ k, d.overlay cfg k =
      if Names n cfg op.key k then op.effect else c.overlay cfg k := by
  have hpending (j : Fin n) : (d.shards j).pending =
      ((c.enqueuePending (shardFor cfg op.key) op).shards j).pending :=
    congrArg (fun b : Core K V n ↦ (b.shards j).pending) hd
  have hstorage (j : Fin n) : (d.shards j).storage = (c.shards j).storage := by
    rw [toTable_of_core hd, enqueuePending]
    rcases eq_or_ne j (shardFor cfg op.key) with rfl | hj
    · rw [modify_shards_self]
    · rw [modify_shards_of_ne _ _ hj]
  have hget (k : K) : d.lookupKey cfg k = c.lookupKey cfg k := by
    show List.find? _ _ = List.find? _ _
    rw [hstorage]
  refine ⟨⟨hreached, hclosed.trans h.opened, hsealed.trans h.unsealed, fun j ↦ ?_, fun j ↦ ?_⟩,
    fun k ↦ ?_⟩
  · rw [hpending, enqueuePending]
    rcases eq_or_ne j (shardFor cfg op.key) with rfl | hj
    · rw [modify_shards_self]
      exact (h.queue _).insert hop
    · rw [modify_shards_of_ne _ _ hj]
      exact h.queue j
  · rw [hstorage]
    exact h.plain j
  · unfold overlay
    rw [hpending, hget, enqueuePending]
    by_cases hk : (shardFor cfg k : Fin n) = shardFor cfg op.key
    · rw [hk, modify_shards_self]
      dsimp only
      rw [KeyMap.get_insert]
      by_cases hkey : op.key == k
      · rw [if_pos hkey, if_pos ⟨BEq.symm hkey, hk⟩]
      · rw [if_neg hkey, if_neg fun hn : Names n cfg op.key k ↦ hkey (BEq.symm hn.1)]
    · rw [modify_shards_of_ne _ _ hk, if_neg fun hn : Names n cfg op.key k ↦ hk hn.2]

end Cache

/-! ### Runs -/

section Run

variable [NeZero n]

/-- Reads, writes without a TTL, and drains. -/
def Op.Queues (cfg : Config K V) : Op K V n → Prop
  | .get _ | .delete _ | .applyPendingKey _ | .drainShard _ => True
  | .set _ value => (cfg.valueTTL value).getD cfg.defaultTTL = 0
  | .setWithTTL _ _ ttl => ttl = 0
  | .setWithOptions _ value opts _ =>
    (resolveOptions cfg value opts).ttl = 0 ∧
      expireNanos (resolveOptions cfg value opts).expireAt = 0
  | _ => False

/-- The write an operation makes when it is accepted: a key, and what is left under it. -/
def Op.accepted (cfg : Config K V) (env : Env K) (c : Cache K V n) : Op K V n → Option (K × Option V)
  | .set key value => if (c.set cfg env key value).1.isOk then some (key, some value) else none
  | .setWithTTL key value ttl =>
    if (c.setWithTTL cfg env key value ttl).1.isOk then some (key, some value) else none
  | .setWithOptions key value opts guard =>
    if (c.setWithOptions cfg env key value opts guard).1.isOk then some (key, some value) else none
  | .delete key => if c.closed then none else some (key, none)
  | _ => none

/-- A cache, and what the last accepted write of each key left. -/
structure QueueRun (K V : Type*) (n : ℕ) where
  cache : Cache K V n
  last : K → Option V

namespace QueueRun

variable [Inhabited V] {cfg : Config K V} {s : QueueRun K V n}

def step (cfg : Config K V) (s : QueueRun K V n) (p : Env K × Op K V n) : QueueRun K V n where
  cache := Memcache.step cfg p.1 s.cache p.2
  last :=
    match p.2.accepted cfg p.1 s.cache with
    | none => s.last
    | some w => fun k ↦ if Cache.Names n cfg w.1 k then w.2 else s.last k

def start (cfg : Config K V) (n : ℕ) : QueueRun K V n := ⟨new cfg n, fun _ ↦ none⟩

/-- A step that admits what it applies and evicts nothing. -/
structure StepOk (cfg : Config K V) (s : QueueRun K V n) (p : Env K × Op K V n) : Prop where
  op : p.2.Queues cfg
  admits : ∀ key, p.1.admits key = true
  kept : (s.step cfg p).cache.stats.evictions = s.cache.stats.evictions

/-- The overlay is what the last writes left. -/
structure Ok (cfg : Config K V) (s : QueueRun K V n) : Prop where
  ordinary : s.cache.Ordinary cfg
  last : ∀ k, s.cache.overlay cfg k = s.last k

omit [Inhabited V] in
theorem isOk_of_accepts {c : Cache K V n} {key : K} {v : Option V}
    {r : Except CacheError Unit × Cache K V n} (h : Cache.Accepts cfg c key v r) :
    r.1.isOk = false ∧ r.2 = c ∨ r.1.isOk = true ∧ ∃ op : PendingOp K V, op.key = key ∧
      op.effect = v ∧ op.Plain ∧ r.2 = c.enqueuePending (Cache.shardFor cfg key) op := by
  rcases h with ⟨e, rfl⟩ | ⟨op, hkey, heffect, hop, rfl⟩
  · exact .inl ⟨rfl, rfl⟩
  · exact .inr ⟨rfl, op, hkey, heffect, hop, rfl⟩

theorem ok_start (cfg : Config K V) : (start cfg n).Ok cfg where
  ordinary := ⟨.new cfg, rfl, rfl, fun _ ↦ .empty, fun _ _ he ↦ nomatch he⟩
  last _ := rfl

variable [PartialEquivBEq K]

/-- A write is refused, or queued as the last of its key. -/
theorem Ok.accepts (h : s.Ok cfg) {key : K} {v : Option V}
    {r : Except CacheError Unit × Cache K V n} (hr : Cache.Accepts cfg s.cache key v r)
    (hreached : Reached cfg r.2) {last : K → Option V}
    (hlast : last = match (if r.1.isOk then some (key, v) else none) with
      | none => s.last
      | some w => fun k ↦ if Cache.Names n cfg w.1 k then w.2 else s.last k) :
    Ok cfg ⟨r.2, last⟩ := by
  subst hlast
  rcases isOk_of_accepts hr with ⟨hno, hsame⟩ | ⟨hyes, op, rfl, rfl, hop, hd⟩
  · rw [hno, hsame]
    exact h
  · rw [hyes]
    obtain ⟨ho, hoverlay⟩ := h.ordinary.enqueue hop (congrArg Cache.core hd) (by rw [hd]; rfl)
      (by rw [hd]; rfl) hreached
    refine ⟨ho, fun k ↦ ?_⟩
    show r.2.overlay cfg k = if _ then _ else _
    rw [hoverlay, h.last]

/-- **The invariant of a step.** -/
theorem Ok.step (hasync : cfg.asyncWrites = true) (hexp : cfg.expireFunc = none)
    (hgroups : cfg.groups = []) (h : s.Ok cfg) {p : Env K × Op K V n} (hp : s.StepOk cfg p) :
    (s.step cfg p).Ok cfg := by
  obtain ⟨env, op⟩ := p
  have hreached : Reached cfg (Memcache.step cfg env s.cache op) := h.ordinary.reached.op env op
  have hkept : (Memcache.step cfg env s.cache op).stats.evictions = s.cache.stats.evictions := hp.kept
  cases op with
  | get key =>
    have hget := (h.ordinary.get hexp env key).2
    obtain ⟨ho, hoverlay⟩ := h.ordinary.of_unqueues (.refl _ _) hget hkept hreached
    exact ⟨ho, fun k ↦ (hoverlay k).trans (h.last k)⟩
  | applyPendingKey key =>
    obtain ⟨ho, hoverlay⟩ := h.ordinary.applyPendingKey hgroups hp.admits key hkept
    exact ⟨ho, fun k ↦ (hoverlay k).trans (h.last k)⟩
  | drainShard i =>
    obtain ⟨ho, hoverlay, -⟩ := h.ordinary.drainShard hgroups hp.admits i hkept
    exact ⟨ho, fun k ↦ (hoverlay k).trans (h.last k)⟩
  | set key value => exact h.accepts (Cache.accepts_setTTL hasync env _ key value hp.op) hreached rfl
  | setWithTTL key value ttl =>
    obtain rfl : ttl = 0 := hp.op
    have hset : s.cache.setWithTTL cfg env key value 0 = s.cache.setTTL cfg env key value 0 :=
      if_neg (lt_irrefl _)
    have hr : Cache.Accepts cfg s.cache key (some value) (s.cache.setWithTTL cfg env key value 0) :=
      hset ▸ Cache.accepts_setTTL hasync env _ key value rfl
    exact h.accepts hr hreached rfl
  | setWithOptions key value opts guard =>
    obtain ⟨httl, hexpiry⟩ := hp.op
    exact h.accepts (Cache.accepts_setWithOptions hasync env _ key value opts guard httl hexpiry)
      hreached rfl
  | delete key =>
    set op : PendingOp K V :=
      { kind := .delete, key := key, value := default, weight := 0, effectiveTTL := 0, rawTTL := 0,
        sliding := false, expireAt := 0, tags := [] } with hop
    have hdelete : s.cache.delete cfg env key =
        (s.cache.enqueuePending (Cache.shardFor cfg key) op).countDelete := by
      unfold Cache.delete
      rw [hasync, h.ordinary.opened]
      rfl
    have hstep : s.step cfg (env, .delete key) =
        ⟨s.cache.delete cfg env key,
          fun k ↦ if Cache.Names n cfg key k then none else s.last k⟩ := by
      unfold QueueRun.step Op.accepted
      dsimp only
      rw [h.ordinary.opened]
      rfl
    have hplain : op.Plain := ⟨le_rfl, le_rfl, nofun⟩
    obtain ⟨ho, hoverlay⟩ := h.ordinary.enqueue hplain (d := s.cache.delete cfg env key)
      (by rw [hdelete]; rfl) (by rw [hdelete]; rfl) (by rw [hdelete]; rfl) hreached
    rw [hstep]
    exact ⟨ho, fun k ↦ by rw [hoverlay, h.last]; rfl⟩
  | _ => exact absurd hp.op id

/-- **At every point of a run without evictions a read finds what the last accepted write of its key
left, and so does storage once the queue is drained.** -/
theorem get_eq_last (hasync : cfg.asyncWrites = true) (hexp : cfg.expireFunc = none)
    (hgroups : cfg.groups = []) {l : List (Env K × Op K V n)}
    (h : Runs.Along (step cfg) (StepOk cfg) (start cfg n) l) :
    let s := l.foldl (step cfg) (start cfg n)
    (∀ env key, (s.cache.get cfg env key).1.value = s.last key) ∧
      ∀ env i, s.StepOk cfg (env, .drainShard i) →
        ((s.cache.drainShard cfg env i).shards i).pending = .empty ∧
        ∀ key, Cache.shardFor cfg key = i →
          ((s.cache.drainShard cfg env i).lookupKey cfg key).map Entry.value = s.last key := by
  intro s
  have hs : s.Ok cfg := h.invariant (fun _ _ hp hs ↦ hs.step hasync hexp hgroups hp) (ok_start cfg)
  refine ⟨fun env key ↦ ((hs.ordinary.get hexp env key).1).trans (hs.last key), fun env i hi ↦ ?_⟩
  obtain ⟨-, hoverlay, hempty⟩ := hs.ordinary.drainShard hgroups hi.admits i hi.kept
  refine ⟨hempty, fun key hkey ↦ ?_⟩
  rw [← hs.last, ← hoverlay, Cache.overlay, hkey, hempty]
  rfl

end QueueRun

end Run

/-- A cache with asynchronous writes. -/
def asyncConfig : Config ℕ ℕ := { defaultConfig UInt64.ofNat with asyncWrites := true }

/-- A write of key 1 is applied, and then overtaken by a write that is queued. -/
def overtakenOps : List (Env ℕ × Op ℕ ℕ 1) :=
  [(.instant 1, .set 1 10), (.instant 2, .applyPendingKey 1), (.instant 3, .set 1 11),
    (.instant 4, .delete 2)]

theorem QueueRun.get_eq_last_overtaken :
    let s := overtakenOps.foldl (QueueRun.step asyncConfig) (.start asyncConfig 1)
    s.last 1 = some 11 ∧ (s.cache.lookupKey asyncConfig 1).map Entry.value = some 10 ∧
      (∀ env key, (s.cache.get asyncConfig env key).1.value = s.last key) ∧
      ((s.cache.drainShard asyncConfig (.instant 5) 0).lookupKey asyncConfig 1).map Entry.value =
        s.last 1 := by
  have hops : Runs.Along (QueueRun.step asyncConfig) (QueueRun.StepOk asyncConfig)
      (.start asyncConfig 1) overtakenOps := by
    refine ⟨⟨rfl, fun _ ↦ rfl, ?_⟩, ⟨trivial, fun _ ↦ rfl, ?_⟩, ⟨rfl, fun _ ↦ rfl, ?_⟩,
      ⟨trivial, fun _ ↦ rfl, ?_⟩, trivial⟩ <;> decide +kernel
  have h := QueueRun.get_eq_last rfl rfl rfl hops
  refine ⟨by decide +kernel, by decide +kernel, h.1, ?_⟩
  exact (h.2 (.instant 5) 0 ⟨trivial, fun _ ↦ rfl, by decide +kernel⟩).2 1 rfl

end Memcache
