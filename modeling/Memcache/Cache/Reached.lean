import Memcache.Cache.Counted
import Memcache.Cache.Sections

/-!
# Reached states

The states that a fresh cache comes to: after whole operations, between the sections of several
threads, after a janitor's sweep, and as a `Clone` of caches it came to. `Clone` reads the shards one
after another, so each may be in a state of its own, and stores what it read without looking.

What carries over to a clone holds whatever the keys are (`TableBare`): a shard stores entries of
distinct identities under keys no two of which are equal, **each in the shard its key hashes to**. So
no two entries a clone stores get in each other's way.
-/

namespace Memcache

variable {K V : Type*} {n : ℕ} [BEq K]

/-! ### Clones -/

section Clone

variable [NeZero n]

namespace Cache

/-- The options of a clone: the live bounds, and the clone's own hash and clock reading. -/
def cloneConfig (cfg : Config K V) (c : Cache K V n) (hash : K → UInt64) (origin : ℤ) : Config K V :=
  { cfg with maxEntries := c.maxEntries, maxBytes := c.maxBytes, hash := hash, origin := origin }

/-- Whether an entry is copied. -/
def cloned (cfg : Config K V) (now : ℤ) (e : Entry K V) : Bool :=
  !entryExpiredLocked cfg e now && !e.negative

/-- What is copied. `view i` is the cache when its shard `i` is read. -/
def cloneStaged (cfg : Config K V) (now : ℤ) (view : Fin n → Cache K V n) : List (Entry K V) :=
  (List.finRange n).flatMap fun i ↦ ((view i).shards i).storage.filter (cloned cfg now)

/-- Store a copied entry. -/
def cloneEntry (cfg : Config K V) (c : Cache K V n) (e : Entry K V) : Cache K V n :=
  (c.storeEntry cfg (shardFor cfg e.key) { e with hits := 0 }).startJanitorFor cfg
    (shardFor cfg e.key) e.expireAt

/-- `Clone`, from entries copied before. -/
def clone (cfg : Config K V) (staged : List (Entry K V)) : Cache K V n :=
  staged.foldl (cloneEntry cfg) (new cfg n)

theorem core_cloneEntry (cfg : Config K V) (c : Cache K V n) (e : Entry K V) :
    (c.cloneEntry cfg e).core =
      (c.storeEntry cfg (shardFor cfg e.key) { e with hits := 0 }).core :=
  core_startJanitorFor ..

variable {cfg : Config K V} {c : Cache K V n}

/-- A stored copy is not found under the keys that are still to come. -/
theorem get_cloneEntry {e : Entry K V} {key : K} {i : Fin n} (hnone : (c.shards i).get key = none)
    (hkey : shardFor cfg e.key = i → (e.key == key) = false) :
    ((c.cloneEntry cfg e).shards i).get key = none := by
  have hcore : ((c.cloneEntry cfg e).shards i).toTable =
      ((c.storeEntry cfg (shardFor cfg e.key) { e with hits := 0 }).core.shards i).toTable := by
    rw [← core_cloneEntry]
    rfl
  rw [hcore, core_storeEntry]
  show (((c.core.set _ _)).shards i).toTable.get key = none
  by_cases hi : i = shardFor cfg e.key
  · subst hi
    rw [Core.set_shards_self]
    show ((c.shards (shardFor cfg e.key)).storage ++ [_]).find? _ = none
    rw [List.find?_append, show List.find? _ _ = none from hnone]
    simp [hkey rfl]
  · rw [Core.set_shards_of_ne _ _ hi]
    exact hnone

/-- **Copies that do not meet are stored as new entries.** -/
theorem steps_cloneEntries {sweep : Prop} {staged : List (Entry K V)}
    (hmeet : staged.Pairwise fun a b ↦
      shardFor (n := n) cfg a.key = shardFor cfg b.key → (a.key == b.key) = false)
    (hw : ∀ e ∈ staged, 1 ≤ e.weight ∧ e.weight ≤ maxEntryWeight)
    (hfree : ∀ e ∈ staged, (c.shards (shardFor cfg e.key)).get e.key = none) :
    Steps cfg (.placed cfg n sweep) c (staged.foldl (cloneEntry cfg) c) := by
  induction staged generalizing c with
  | nil => exact .refl
  | cons e staged ih =>
    obtain ⟨hfirst, hrest⟩ := List.pairwise_cons.1 hmeet
    obtain ⟨h₁, h₂⟩ := hw e List.mem_cons_self
    have hstore : Steps cfg (.placed cfg n sweep) c (c.cloneEntry cfg e) :=
      (c.steps_storeEntry _ (e := { e with hits := 0 }) (hfree e List.mem_cons_self) rfl h₁
        h₂).frame (core_cloneEntry ..)
    refine hstore.trans (ih hrest (fun b hb ↦ hw b (List.mem_cons_of_mem _ hb)) fun b hb ↦ ?_)
    exact get_cloneEntry (hfree b (List.mem_cons_of_mem _ hb)) (hfirst b hb)

/-- Entries of distinct shards do not meet in a clone, nor do two of one shard. -/
theorem pairwise_cloneStaged [PartialEquivBEq K] {hash : K → UInt64} {sweep : Prop} (now origin : ℤ)
    {view : Fin n → Cache K V n} (hview : ∀ i, (view i).core.Bare (.placed cfg n sweep))
    (hhash : hash = cfg.hash ∨ ∀ a b : K, a == b → cfg.hash a = cfg.hash b) :
    (cloneStaged cfg now view).Pairwise fun a b ↦
      shardFor (n := n) (c.cloneConfig cfg hash origin) a.key =
        shardFor (c.cloneConfig cfg hash origin) b.key → (a.key == b.key) = false := by
  refine List.pairwise_flatMap.2 ⟨fun i _ ↦ ?_, ?_⟩
  · have hkeys := (hview i i).keys.sublist (List.filter_sublist (p := cloned cfg now))
    refine hkeys.imp ?_
    exact fun h _ ↦ h
  · refine (List.nodup_finRange n).imp fun {i j} hij a ha b hb hshard ↦ ?_
    have hi : ((shardFor cfg a.key : Fin n) : ℕ) = i := (hview i i).taken a (List.mem_of_mem_filter ha)
    have hj : ((shardFor cfg b.key : Fin n) : ℕ) = j := (hview j j).taken b (List.mem_of_mem_filter hb)
    refine Bool.eq_false_iff.2 fun hkey ↦ hij (Fin.ext ?_)
    rw [← hi, ← hj]
    rcases hhash with rfl | hhash
    · exact congrArg Fin.val hshard
    · unfold shardFor
      rw [hhash _ _ hkey]

/-- **A clone is stored entry by entry.** -/
theorem steps_clone [PartialEquivBEq K] {hash : K → UInt64} {sweep sweep' : Prop} (now origin : ℤ)
    {view : Fin n → Cache K V n} (hview : ∀ i, (view i).core.Bare (.placed cfg n sweep))
    (hhash : hash = cfg.hash ∨ ∀ a b : K, a == b → cfg.hash a = cfg.hash b) :
    Steps (c.cloneConfig cfg hash origin) (.placed (c.cloneConfig cfg hash origin) n sweep')
      (new (c.cloneConfig cfg hash origin) n)
      (clone (c.cloneConfig cfg hash origin) (cloneStaged cfg now view)) := by
  refine steps_cloneEntries (pairwise_cloneStaged now origin hview hhash) (fun e he ↦ ?_)
    fun _ _ ↦ rfl
  obtain ⟨i, -, he⟩ := List.mem_flatMap.1 he
  exact (hview i i).weight e (List.mem_of_mem_filter he)

end Cache

end Clone

/-! ### Reached states -/

section Reached

variable [NeZero n] [Inhabited V]

/-- The states of a cache built with some options. A clone keeps a hasher its source was given, and
otherwise has one of its own, as the source had, for which equal keys are alike. -/
inductive Reached : Config K V → Cache K V n → Prop where
  | new (cfg : Config K V) : Reached cfg (new cfg n)
  | op {cfg : Config K V} {c : Cache K V n} (h : Reached cfg c) (env : Env K) (op : Op K V n) :
      Reached cfg (step cfg env c op)
  | locked {cfg : Config K V} {c c' : Cache K V n} (h : Reached cfg c) (env : Env K)
      (h' : Locked cfg env c c') : Reached cfg c'
  | sweep {cfg : Config K V} {c : Cache K V n} (h : Reached cfg c) (env : Env K) (i : Fin n) :
      Reached cfg (c.sweepExpiredLocked cfg env i)
  | clone {cfg : Config K V} {c : Cache K V n} (h : Reached cfg c) (hopen : c.closed = false)
      (now : ℤ) {view : Fin n → Cache K V n} (hview : ∀ i, Reached cfg (view i))
      {hash : K → UInt64} (origin : ℤ)
      (hhash : hash = cfg.hash ∨ ∀ a b : K, a == b → cfg.hash a = cfg.hash b) :
      Reached (c.cloneConfig cfg hash origin)
        (Cache.clone (c.cloneConfig cfg hash origin) (Cache.cloneStaged cfg now view))

variable {cfg : Config K V} {c : Cache K V n}

theorem Reachable.reached (h : Reachable cfg c) : Reached cfg c := by
  obtain ⟨ops, rfl⟩ := h
  have hrun (c : Cache K V n) (h : Reached cfg c) : Reached cfg (Memcache.run cfg c ops) := by
    induction ops generalizing c with
    | nil => exact h
    | cons p ops ih => exact ih _ (h.op p.1 p.2)
  exact hrun _ (.new cfg)

/-- **Every reached state is a sequence of instructions away from the fresh cache**, with each
shard given keys of its own. -/
theorem steps_of_reached [PartialEquivBEq K] (h : Reached cfg c) :
    Steps cfg (.placed cfg n True) (Memcache.new cfg n) c := by
  induction h with
  | new cfg => exact .refl
  | op h env op ih => exact ih.trans (moves_step_placed (fun _ _ ↦ trivial) ((ready_new _).steps ih))
  | locked h env h' ih => exact ih.trans (h'.moves ((ready_new _).steps ih))
  | sweep h env i ih => exact ih.trans (Cache.steps_sweepExpiredLocked _ i trivial)
  | @clone cfg c h hopen now view hview hash origin hhash ih ihview =>
    have hbare (i : Fin n) : (view i).core.Bare (.placed cfg n True) :=
      (ihview i).invariant Core.Bare.step (Cache.bare_new _ _)
    exact Cache.steps_clone now origin hbare hhash

/-- **What the instructions keep holds in every reached state.** -/
theorem Reached.invariant [PartialEquivBEq K] (h : Reached cfg c) {I : Core K V n → Prop}
    (hI : ∀ {d d'}, CoreStep cfg (.placed cfg n True) d d' → I d → I d')
    (hnew : I (Memcache.new cfg n).core) : I c.core :=
  (steps_of_reached h).invariant hI hnew

theorem Reached.bare [PartialEquivBEq K] (h : Reached cfg c) : c.core.Bare (.placed cfg n True) :=
  h.invariant Core.Bare.step (Cache.bare_new _ _)

theorem Reached.unqueued [PartialEquivBEq K] (h : Reached cfg c) (hsync : cfg.asyncWrites = false) :
    c.core.Unqueued :=
  h.invariant (fun hstep hc ↦ hc.step hstep hsync) fun _ ↦ rfl

theorem Reached.ready [PartialEquivBEq K] (h : Reached cfg c) (sweep : Prop) :
    c.core.Ready (.placed cfg n sweep) := by
  have hnew : (Memcache.new cfg n).core.Ready (.placed cfg n True) := ready_new cfg
  have hc : c.core.Ready (.placed cfg n True) := hnew.steps (steps_of_reached h)
  exact hc

end Reached

end Memcache
