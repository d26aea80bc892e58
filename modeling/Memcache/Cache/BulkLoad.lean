import Memcache.Cache.Readers

/-!
# Bulk loads against writes

A bulk load watches its keys, looks them up, loads what is missing and stores each result whose token
is unmarked. With synchronous writes an operation that writes or removes a resident entry marks the
key's token in the same section. A key that is being loaded is normally **not** resident, and there
`DeletePrefix` falls short: it supersedes the loads of the keys that match, and marks the tokens of
the entries it finds, but never looks at the watches. A result loaded before the deletion is then
stored after it.
-/

namespace Memcache

open Cache (shardFor Names Voids)

variable {K V : Type*} {n : ℕ} [BEq K] [NeZero n] {cfg : Config K V} {env : Env K}
  {c : Cache K V n} {key k : K}

/-- The function of a `Compute` has a value stored or the key's fresh entry removed. -/
def computes (cfg : Config K V) (env : Env K) (c : Cache K V n) (k : K)
    (fn : Option V → Cache.ComputeResult V) : Bool :=
  match fn ((c.freshEntryLocked cfg env (shardFor cfg k) k).map Entry.value) with
  | .store value => (computeWeight cfg value).isOk
  | .delete => (c.freshEntryLocked cfg env (shardFor cfg k) k).isSome
  | .noOp | .error => false

/-- The operation writes, deletes or invalidates the key. -/
def overwrites (cfg : Config K V) (env : Env K) (c : Cache K V n) (op : Op K V n) (key : K) : Bool :=
  match op with
  | .set k value => Names n cfg key k && (c.set cfg env k value).1.isOk
  | .setWithTTL k value ttl => Names n cfg key k && (c.setWithTTL cfg env k value ttl).1.isOk
  | .setWithOptions k value opts guard =>
    Names n cfg key k && (c.setWithOptions cfg env k value opts guard).1.isOk
  | .compute k fn => Names n cfg key k && (!c.closed && computes cfg env c k fn)
  | .storeBulkLoaded k value _ w => Names n cfg key k && (!c.closed &&
    (((c.shards (shardFor cfg k)).flights.token w).any (fun t ↦ !t.superseded) &&
      (computeWeight cfg value).isOk))
  | .delete k => Names n cfg key k && !c.closed
  | .deletePrefix (some matcher) => !c.closed && matcher key
  | .invalidateTags tags => !c.closed && ((c.lookupKey cfg key).isSome &&
    (tags.flatMap c.tagged).eraseDups.any fun k ↦ Names n cfg key k)
  | .clear => !c.closed
  | .reset => true
  | _ => false

namespace Cache

variable [PartialEquivBEq K]

omit [PartialEquivBEq K] in
theorem computes_iff {fn : Option V → ComputeResult V} :
    computes cfg env c k fn = true ↔ c.Computes cfg env k fn := by
  unfold computes Computes
  cases fn ((c.freshEntryLocked cfg env (shardFor cfg k) k).map Entry.value) with
  | store value =>
    dsimp only
    cases computeWeight cfg value <;> simp [Except.isOk, Except.toBool]
  | delete => rfl
  | noOp => simp
  | error => simp

/-! ### Loops over resident entries -/

variable {e : Entry K V}

omit [NeZero n] in
/-- The loop of `DeletePrefix` over a shard comes to an entry of the key. -/
theorem voids_removeAll {i : Fin n} (hk : e.key == key) {reason : EvictionReason}
    (hreason : supersedesFlight reason = true) {ids : List ℕ} (hmem : e.id ∈ ids)
    (hinv : c.core.Inv) (he : e ∈ (c.shards i).storage) :
    Voids i key c (removeAll cfg env i reason ids c) := by
  induction ids generalizing c with
  | nil => cases hmem
  | cons id ids ih =>
    have htable : TableOk (c.shards i).toTable c.core.nextId := hinv.table i
    have hfind : (c.shards i).byId e.id = some e := htable.distinct.lookup_eq he
    unfold removeAll
    split
    · next hnone =>
      rcases List.mem_cons.1 hmem with rfl | hmem
      · cases hnone.symm.trans hfind
      · exact ih hmem hinv he
    · next a ha =>
      have hstep : Steps cfg .all c (c.removeLocked cfg env i a reason) :=
        c.steps_removeLocked i (Table.mem_of_byId ha) reason
      have hheeds : Heeds (c.removeLocked cfg env i a reason)
          (removeAll cfg env i reason ids (c.removeLocked cfg env i a reason)) :=
        .of_frame (fades_removeAll i reason ids _).toFrame
      by_cases hae : a.key == e.key
      · obtain rfl := htable.eq_of_key (Table.mem_of_byId ha) he hae
        exact ((puts_removeLocked cfg env hae hreason).voids hk).after hheeds
      · have hstay : e ∈ ((c.removeLocked cfg env i a reason).shards i).storage := by
          rw [toTable_removeLocked]
          refine List.mem_filter.2 ⟨he, ?_⟩
          rw [BEq.comm] at hae
          simpa using hae
        have hne : e.id ≠ id := by
          rintro rfl
          obtain rfl := Option.some.inj (ha.symm.trans hfind)
          exact hae (htable.taken a he)
        exact .before (.of_frame (fades_removeLocked c a reason).toFrame)
          (ih ((List.mem_cons.1 hmem).resolve_left hne) (inv_of_steps hstep hinv) hstay) hheeds

omit [NeZero n] in
theorem spares_removeAll {i : Fin n} {doomed : Fin n → Entry K V → Prop}
    (hdoom : ∀ a, doomed i a) (reason : EvictionReason) (ids : List ℕ) (hinv : c.core.Inv) :
    Spares doomed c (removeAll cfg env i reason ids c) := by
  induction ids generalizing c with
  | nil => exact .of_calm (.refl c)
  | cons id ids ih =>
    unfold removeAll
    split
    · exact ih hinv
    · next a ha =>
      have hmem := Table.mem_of_byId ha
      have hstep : Steps cfg .all c (c.removeLocked cfg env i a reason) :=
        c.steps_removeLocked i hmem reason
      exact (spares_removeLocked (hinv.table i) hmem (hdoom a) reason).trans
        (ih (inv_of_steps hstep hinv))

/-- A prefix deletion marks the token of a resident entry it matches. -/
theorem voids_deletePrefix (hc : c.Sound) (hs : c.core.Settled) (hsync : cfg.asyncWrites = false)
    (hopen : c.closed = false) {matcher : K → Bool} {i : Fin n} (he : e ∈ (c.shards i).storage)
    (hk : e.key == key) (hm : matcher e.key = true) :
    Voids i key c (c.deletePrefix cfg env (some matcher)) := by
  unfold deletePrefix applyAllPending
  rw [if_neg (by simp [hopen]), if_neg (by simp [hsync])]
  -- the loads that match are marked before a shard's entries go
  have hmark (d : Cache K V n) (j : Fin n) : Steps cfg .all d
      (d.modify j fun s ↦ { s with flights := s.flights.supersedeMatching matcher }) :=
    d.steps_flights j (f := fun s ↦ s.supersedeMatching matcher) (.supersedeMatching _ matcher)
  have hat (d : Cache K V n) (hP : d.Sound ∧ Stores i e d) :
      Voids i key d (deletePrefixShard cfg env matcher d i) := by
    obtain ⟨hd, hstores⟩ := hP
    have hmem : e ∈ ((d.modify i fun s ↦
        { s with flights := s.flights.supersedeMatching matcher }).shards i).storage := by
      rw [modify_shards_self]
      exact hstores.2
    have hrest : Heeds (d.modify i fun s ↦ { s with flights := s.flights.supersedeMatching matcher })
        (deletePrefixShard cfg env matcher d i) :=
      .of_frame ((fades_removeAll i .deletedPrefix _ _).trans (sheds_flushAndUnlock _).toFades).toFrame
    refine .before (.flights d i (.supersedeMatching · matcher)) (Voids.after ?_
      (.of_frame (sheds_flushAndUnlock _).toFrame)) hrest
    exact voids_removeAll hk rfl (List.mem_map_of_mem (List.mem_filter.2 ⟨hmem, hm⟩))
      (inv_of_steps (hmark d i) hd.inv) hmem
  refine Heeds.voids_foldl (P := fun d ↦ d.Sound ∧ Stores i e d) (fun d j ↦ heeding.deletePrefixShard d matcher j)
    (List.mem_finRange i) (fun d j hP ↦ ?_) hat ⟨hc, stores_of_settled hs he⟩
  rcases eq_or_ne j i with rfl | hj
  · exact .inl (hat d hP)
  · -- the other shards keep the entry where it is
    have hcalm : Calm d (d.modify j fun s ↦
        { s with flights := s.flights.supersedeMatching matcher }) := .modify d j fun _ ↦ ⟨rfl, rfl⟩
    have hspares : Spares (fun j' _ ↦ j' = j) d (deletePrefixShard cfg env matcher d j) :=
      (Spares.of_calm hcalm).trans ((spares_removeAll (fun _ ↦ rfl) _ _
        (inv_of_steps (hmark d j) hP.1.inv)).trans (.of_calm (calm_flushAndUnlock _ j)))
    exact .inr ⟨hP.1.steps ((settling.deletePrefixShard (T := .all) d matcher j).moves hP.1.ready),
      hspares.stores hj.symm hP.2⟩

end Cache

/-! ### Runs -/

namespace ReaderRun

variable [Inhabited V] {s : ReaderRun K V n}

/-- Every key whose watch a prefix deletion has to void is resident when the deletion comes. -/
def Resident (cfg : Config K V) (s : ReaderRun K V n) : Env K × ReaderAct K V n → Prop
  | (_, .op (.deletePrefix (some matcher))) => s.cache.closed = false → ∀ r ∈ s.readers,
      r.stale = false → matcher r.key = true →
        ∃ e, s.cache.lookupKey cfg r.key = some e ∧ matcher e.key = true
  | _ => True

/-- A stale reader's value is not stored, with or without a Store to write through to: no entry
changes. -/
def NotStored (cfg : Config K V) (s : ReaderRun K V n) : Env K × ReaderAct K V n → Prop
  | (env, .write j w) => ∀ r, s.readers[j]? = some r → r.stale = true → ∀ i,
      ((Memcache.step cfg env s.cache (writeOp cfg s.cache r w)).shards i).storage =
        (s.cache.shards i).storage
  | _ => True

variable [EquivBEq K]

/-- Every operation that overwrites a key marks its token, a prefix deletion if the key is
resident. -/
theorem stops_overwrites (hc : Reachable cfg s.cache) (hsync : cfg.asyncWrites = false)
    (op : Op K V n) (hres : s.Resident cfg (env, .op op)) : s.Stops (overwrites cfg) cfg env op := by
  intro r hr hfresh hflag
  left
  have hsound := Cache.sound_of_reachable hc
  have hsettled := Cache.settled_of_reachable hc
  have hqueue (k : K) : (s.cache.shards (shardFor cfg k)).pending.get k = none :=
    Cache.pending_of_reachable hc hsync _ k
  have hand {k : K} {b : Bool} (h : (decide (Names n cfg r.key k) && b) = true) :
      Names n cfg r.key k ∧ b = true := by
    simpa using h
  have hopen {b : Bool} (h : (!s.cache.closed && b) = true) : s.cache.closed = false ∧ b = true := by
    simpa using h
  have hdone {res : Except CacheError Unit} (h : res.isOk = true) : res = .ok () := by
    cases res
    · cases h
    · rfl
  cases op with
  | set k value =>
    obtain ⟨hk, hok⟩ := hand hflag
    exact (Cache.strikes_setTTL hsound hk hsync (hdone hok)).voids
  | setWithTTL k value ttl =>
    obtain ⟨hk, hok⟩ := hand hflag
    show Voids _ _ _ (s.cache.setWithTTL cfg env k value ttl).2
    unfold Cache.setWithTTL at hok ⊢
    split_ifs at hok ⊢
    · cases hok
    · exact (Cache.strikes_setTTL hsound hk hsync (hdone hok)).voids
  | setWithOptions k value opts guard =>
    obtain ⟨hk, hok⟩ := hand hflag
    exact (Cache.strikes_setWithOptions hsound hk hsync (hdone hok)).voids
  | compute k fn =>
    obtain ⟨hk, hrest⟩ := hand hflag
    obtain ⟨hc, hcomp⟩ := hopen hrest
    exact (Cache.strikes_compute hsound hk (hqueue k) hc (Cache.computes_iff.1 hcomp)).voids
  | storeBulkLoaded k value ttl w =>
    obtain ⟨hk, hrest⟩ := hand hflag
    obtain ⟨hc, hrest⟩ := hopen hrest
    obtain ⟨hw, hweight⟩ := Bool.and_eq_true_iff.1 hrest
    rcases hcw : computeWeight cfg value with err | weight
    · rw [hcw] at hweight
      cases hweight
    · exact (Cache.strikes_storeBulkLoaded hsound hk hc hw hcw ttl).voids
  | delete k =>
    obtain ⟨hk, hc⟩ := hand hflag
    show Voids _ _ _ (s.cache.delete cfg env k)
    unfold Cache.delete
    rw [if_pos (by simp [hsync])]
    exact (Cache.strikes_deleteKey hsound hk (hqueue k) (by simpa using hc) _).voids
  | deletePrefix matcher =>
    rcases matcher with - | matcher
    · cases hflag
    · obtain ⟨hc, hm⟩ := hopen hflag
      obtain ⟨e, he, hme⟩ := hres hc r hr hfresh hm
      exact Cache.voids_deletePrefix hsound hsettled hsync hc (Table.mem_of_get he)
        (Table.key_of_get he) hme
  | invalidateTags tags =>
    obtain ⟨hc, hrest⟩ := hopen hflag
    obtain ⟨hsome, hany⟩ := Bool.and_eq_true_iff.1 hrest
    obtain ⟨e, he⟩ := Option.isSome_iff_exists.1 hsome
    obtain ⟨k, hmem, hk⟩ := List.any_eq_true.1 hany
    exact (Cache.strikes_invalidateTags hsound hsettled hsync hc (of_decide_eq_true hk) hmem he).voids
  | clear =>
    show Voids _ _ _ (s.cache.clear cfg env)
    have hc : s.cache.closed = false := by simpa [overwrites] using hflag
    unfold Cache.clear
    rw [if_neg (by simp [hc])]
    exact (Cache.strikes_reset hsound _).voids
  | reset => exact (Cache.strikes_reset hsound _).voids
  | _ => cases hflag

/-- A write under a marked token only releases the lock. -/
theorem storage_writeOp (hsync : cfg.asyncWrites = false) (hs : c.core.Settled) {r : Reader K}
    (hr : current cfg c r = false) (w : GuardedWrite V) (i : Fin n) :
    ((Memcache.step cfg env c (writeOp cfg c r w)).shards i).storage = (c.shards i).storage := by
  cases w with
  | set value opts =>
    show (((c.setWithOptions cfg env r.key value opts (current cfg c r)).2).shards i).storage = _
    unfold Cache.setWithOptions
    dsimp only
    split
    · rfl
    · rw [hr, if_neg (by simp [hsync])]
      exact Cache.storage_flushAndUnlock hs _ i
  | bulk value ttl =>
    show ((c.storeBulkLoaded cfg env r.key value ttl r.token).shards i).storage = _
    unfold Cache.storeBulkLoaded
    dsimp only
    rw [show ((c.shards (shardFor cfg r.key)).flights.token r.token).any
      (fun t ↦ !t.superseded) = false from hr, Bool.false_and, if_neg Bool.false_ne_true]
    exact Cache.storage_flushAndUnlock hs _ i

/-- **A bulk-loaded value is stored only if its key was not written, deleted or invalidated since its
watch began**, in any interleaving whose prefix deletions find the watched keys they match
resident. -/
theorem notStored_of_resident (hsync : cfg.asyncWrites = false) {l : List (Env K × ReaderAct K V n)}
    (hl : Runs.Along (step (overwrites cfg) cfg) (Resident cfg) (start cfg n) l) :
    Runs.Along (step (overwrites cfg) cfg) (NotStored cfg) (start cfg n) l := by
  refine Runs.Along.of_invariant (I := Ok cfg) (fun s p hp hs ↦ hs.step ?_) (fun s p _ hs ↦ ?_) hl
    (ok_start cfg)
  · obtain ⟨env, a⟩ := p
    rcases a with key | j | ⟨j, w⟩ | op
    · trivial
    · trivial
    · intro r _
      refine stops_overwrites hs.reach hsync _ ?_
      cases w <;> trivial
    · exact stops_overwrites hs.reach hsync op hp
  · obtain ⟨env, a⟩ := p
    rcases a with key | j | ⟨j, w⟩ | op
    · trivial
    · trivial
    · intro r hr hstale
      exact storage_writeOp hsync (Cache.settled_of_reachable hs.reach)
        (hs.current_eq_false (List.mem_of_getElem? hr) hstale
          (Cache.pending_of_reachable hs.reach hsync _ r.key)) w
    · trivial

/-- String keys and synchronous writes, for the examples below. -/
def bulkConfig : Config String ℕ := defaultConfig fun _ ↦ 0

/-- The key is resident when its prefix is deleted, and the result is not stored. -/
theorem notStored_of_resident_written :
    Runs.Along (step (overwrites bulkConfig) bulkConfig) (NotStored bulkConfig) (start bulkConfig 1)
      [(.instant 0, .watch "k"), (.instant 0, .op (.set "k" 1)),
        (.instant 0, .op (.deletePrefix (some fun _ ↦ true))), (.instant 0, .write 0 (.bulk 2 0))] := by
  refine notStored_of_resident rfl ⟨trivial, trivial, fun _ r hr hfresh _ ↦ ?_, trivial, trivial⟩
  obtain rfl := List.mem_singleton.1 hr
  revert hfresh
  decide +kernel

/-- The key is absent, as a key that is being loaded is: its prefix is deleted, and **the result
loaded before is stored after**. -/
theorem not_notStored_absent :
    ¬ Runs.Along (step (overwrites bulkConfig) bulkConfig) (NotStored bulkConfig) (start bulkConfig 1)
      [(.instant 0, .watch "k"), (.instant 0, .op (.deletePrefix (some fun _ ↦ true))),
        (.instant 0, .write 0 (.bulk 2 0))] := by
  intro h
  have hstored := congrArg List.length (h.2.2.1 ⟨"k", 0, true⟩ (by decide +kernel) rfl 0)
  revert hstored
  decide +kernel

end ReaderRun

end Memcache
