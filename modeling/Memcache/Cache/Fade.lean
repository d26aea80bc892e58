import Memcache.Cache.Steps
import Memcache.Cache.Watches

/-!
# What a section leaves alone

Most of the code under a shard's lock only takes entries away: it evicts, expires, sheds, fires
callbacks. Such a section **fades** the cache: a lookup finds what it found before or nothing, and
the queued writes, the cached errors and the two switches of the cache are as they were; watches can
only be voided. When the
section also leaves loads and watches alone it **sheds**; only the removals that replace a key's data
do not.

The write paths are described against the same frame. After a write of a key, a lookup of it finds
the entry that was written or nothing, and **every load and watch of the key is superseded**; what
was evicted on the way shows in no other way.
-/

namespace Memcache

variable {K V : Type*} {n : ℕ}

/-! ### Lookups in a rewritten table -/

namespace Table

variable [BEq K] {t : Table K V} {key : K} {e e' : Entry K V}

/-- A rewritten entry is found under its key. -/
theorem get_put (h : t.get key = some e) (hid : e'.id = e.id) (hkey : e'.key = e.key) :
    (t.put e').get key = some e' := by
  have hk : (e'.key == key) = true := hkey ▸ key_of_get h
  unfold get put NodeList.replace at *
  dsimp only at h ⊢
  generalize t.storage = l at h
  induction l with
  | nil => cases h
  | cons a l ih =>
    rw [List.map_cons, List.find?_cons]
    split_ifs with ha
    · rw [hk]
    · rw [List.find?_cons] at h
      cases hak : a.key == key with
      | true =>
        rw [hak] at h
        exact absurd (by rw [Option.some.inj h, hid]) ha
      | false =>
        rw [hak] at h
        exact ih h

/-- Equal keys find the same entry. -/
theorem get_congr [PartialEquivBEq K] {key' : K} (h : key == key') : t.get key = t.get key' := by
  simp only [get, KeyMap.beq_congr_right h]

/-- An entry added under an absent key is found there. -/
theorem get_concat (h : t.get key = none) (hk : e.key == key) :
    (t.storage ++ [e]).find? (fun a ↦ a.key == key) = some e := by
  rw [List.find?_append, show t.storage.find? (fun a ↦ a.key == key) = none from h]
  simp [hk]

/-- Dropping an entry hides no other key. -/
theorem get_dropEntry_of_ne [PartialEquivBEq K] (t : Table K V) {e : Entry K V} {key : K}
    (hk : (e.key == key) = false) : (Cache.dropEntry t e).get key = t.get key := by
  unfold get Cache.dropEntry
  dsimp only
  rw [List.find?_filter]
  congr 1
  funext a
  by_cases hak : a.key == key
  · have : ¬ (a.key == e.key) := fun h ↦
      Bool.eq_false_iff.1 hk (PartialEquivBEq.trans (BEq.symm h) hak)
    simp [this, hak]
  · simp [hak]

theorem get_dropEntry_or [PartialEquivBEq K] (t : Table K V) (e : Entry K V) (key : K) :
    (Cache.dropEntry t e).get key = t.get key ∨ (Cache.dropEntry t e).get key = none := by
  rcases Bool.eq_false_or_eq_true (e.key == key) with hk | hk
  · exact .inr (Cache.get_dropEntry hk)
  · exact .inl (get_dropEntry_of_ne t hk)

end Table

namespace Cache

/-! ### Frames -/

/-- Queued writes, cached errors and the switches of the cache are the same, and watches were at most
voided. -/
structure Frame [BEq K] (c c' : Cache K V n) : Prop where
  pending : ∀ i, (c'.shards i).pending = (c.shards i).pending
  errors : ∀ i, (c'.shards i).errors = (c.shards i).errors
  closed : c'.closed = c.closed
  sealed : c'.sealed = c.sealed
  marks : ∀ i, Flights.Marks (c.shards i).flights (c'.shards i).flights

/-- The same frame, and no load or watch was touched. -/
structure Still [BEq K] (c c' : Cache K V n) : Prop extends Frame c c' where
  flights : ∀ i, (c'.shards i).flights = (c.shards i).flights

/-- Only entries left: a lookup finds what it found before, or nothing. -/
structure Fades [BEq K] (c c' : Cache K V n) : Prop extends Frame c c' where
  get : ∀ i key, (c'.shards i).get key = (c.shards i).get key ∨ (c'.shards i).get key = none

/-- Only entries left, and no load or watch was touched. -/
structure Sheds [BEq K] (c c' : Cache K V n) : Prop extends Fades c c', Still c c'

variable {cfg : Config K V} {env : Env K} {c c' c'' : Cache K V n} {i : Fin n} [BEq K]

theorem Frame.refl (c : Cache K V n) : Frame c c :=
  ⟨fun _ ↦ rfl, fun _ ↦ rfl, rfl, rfl, fun _ ↦ .refl _⟩

theorem Frame.trans (h : Frame c c') (h' : Frame c' c'') : Frame c c'' where
  pending j := (h'.pending j).trans (h.pending j)
  errors j := (h'.errors j).trans (h.errors j)
  closed := h'.closed.trans h.closed
  sealed := h'.sealed.trans h.sealed
  marks j := (h.marks j).trans (h'.marks j)

theorem Fades.refl (c : Cache K V n) : Fades c c := ⟨.refl c, fun _ _ ↦ .inl rfl⟩

theorem Fades.trans (h : Fades c c') (h' : Fades c' c'') : Fades c c'' where
  toFrame := h.toFrame.trans h'.toFrame
  get j key := by
    rcases h'.get j key with h₁ | h₁
    · rw [h₁]
      exact h.get j key
    · exact .inr h₁

theorem Still.trans (h : Still c c') (h' : Still c' c'') : Still c c'' :=
  ⟨h.toFrame.trans h'.toFrame, fun j ↦ (h'.flights j).trans (h.flights j)⟩

theorem Sheds.refl (c : Cache K V n) : Sheds c c := ⟨.refl c, fun _ ↦ rfl⟩

theorem Sheds.trans (h : Sheds c c') (h' : Sheds c' c'') : Sheds c c'' :=
  ⟨h.toFades.trans h'.toFades, (h.toStill.trans h'.toStill).flights⟩

/-- A key that was absent stays absent. -/
theorem Fades.get_eq_none (h : Fades c c') {key : K} (hk : (c.shards i).get key = none) :
    (c'.shards i).get key = none := by
  rcases h.get i key with h' | h'
  · exact h'.trans hk
  · exact h'

/-- What a lookup finds afterwards it would have found before. -/
theorem Fades.get_of_get (h : Fades c c') {key : K} {e : Entry K V}
    (he : (c'.shards i).get key = some e) : (c.shards i).get key = some e := by
  rcases h.get i key with h' | h'
  · exact h' ▸ he
  · rw [h'] at he
    cases he

theorem Fades.foldl {α : Type*} {f : Cache K V n → α → Cache K V n}
    (h : ∀ c a, Fades c (f c a)) (l : List α) (c : Cache K V n) : Fades c (l.foldl f c) :=
  Runs.invariant (I := Fades c) (fun d a hd ↦ hd.trans (h d a)) (.refl c) l

variable {f : Shard K V → Shard K V}

/-- A change of one shard outside its queue and its errors. -/
theorem frame_modify (i : Fin n) (hp : (f (c.shards i)).pending = (c.shards i).pending)
    (he : (f (c.shards i)).errors = (c.shards i).errors)
    (hm : Flights.Marks (c.shards i).flights (f (c.shards i)).flights) :
    Frame c (c.modify i f) where
  pending j := modify_cases j hp fun _ _ ↦ rfl
  errors j := modify_cases j he fun _ _ ↦ rfl
  closed := rfl
  sealed := rfl
  marks j := modify_cases j hm fun _ _ ↦ .refl _

/-- A change of one shard's table that only takes entries away. -/
theorem sheds_modify (i : Fin n)
    (hg : ∀ key, (f (c.shards i)).get key = (c.shards i).get key ∨ (f (c.shards i)).get key = none)
    (hf : (f (c.shards i)).flights = (c.shards i).flights)
    (hp : (f (c.shards i)).pending = (c.shards i).pending)
    (he : (f (c.shards i)).errors = (c.shards i).errors) : Sheds c (c.modify i f) where
  toFrame := frame_modify i hp he (hf ▸ .refl _)
  get j key := modify_cases j (hg key) fun _ _ ↦ .inl rfl
  flights j := modify_cases j hf fun _ _ ↦ rfl

/-- A change outside the shards and the switches. -/
theorem sheds_of_shards (hs : c'.shards = c.shards) (hc : c'.closed = c.closed)
    (hl : c'.sealed = c.sealed) : Sheds c c' where
  pending j := by rw [hs]
  errors j := by rw [hs]
  closed := hc
  sealed := hl
  marks j := by rw [hs]; exact .refl _
  get j key := .inl (by rw [hs])
  flights j := by rw [hs]

/-- A change of a shard outside its table, its loads, its queue and its errors. -/
theorem sheds_modify_same (c : Cache K V n) (i : Fin n)
    (h : ∀ s, (f s).toTable = s.toTable ∧ (f s).flights = s.flights ∧ (f s).pending = s.pending ∧
      (f s).errors = s.errors) : Sheds c (c.modify i f) :=
  sheds_modify i (fun _ ↦ .inl (by rw [(h _).1])) (h _).2.1 (h _).2.2.1 (h _).2.2.2

/-- Counting is outside the frame. -/
theorem Sheds.count (h : Sheds c c') (st : Stats) : Sheds c { c' with stats := st } :=
  h.trans (sheds_of_shards rfl rfl rfl)

theorem sheds_policy (c : Cache K V n) (p : Policy K) :
    Sheds c (c.modifyTable i fun t ↦ { t with policy := p }) :=
  sheds_modify i (fun _ ↦ .inl rfl) rfl rfl rfl

omit [BEq K] in
/-- Caches with the same core hold the same tables. -/
theorem toTable_of_core (h : c'.core = c.core) (i : Fin n) :
    (c'.shards i).toTable = (c.shards i).toTable :=
  congrArg (fun d : Core K V n ↦ (d.shards i).toTable) h

/-! ### Removal -/

variable (c)

theorem sheds_countReadMiss (i : Fin n) (ids : List ℕ) :
    Sheds c (c.modify i fun s ↦ countReadMiss { s with dead := ids }) := by
  have hs (s : Shard K V) : (countReadMiss s).flights = s.flights ∧
      (countReadMiss s).pending = s.pending ∧ (countReadMiss s).errors = s.errors := by
    unfold countReadMiss promoteReadMapLocked
    split_ifs
    · split
      · exact ⟨rfl, rfl, rfl⟩
      · split_ifs <;> exact ⟨rfl, rfl, rfl⟩
    · exact ⟨rfl, rfl, rfl⟩
  exact sheds_modify_same c i fun s ↦ ⟨toTable_countReadMiss _, hs _⟩

theorem sheds_markInvalidated (id : ℕ) : Sheds c (c.markInvalidated cfg i id) := by
  unfold markInvalidated
  split_ifs
  · exact sheds_countReadMiss c i (id :: (c.shards i).dead)
  · exact .refl c

theorem sheds_startJanitorLocked : Sheds c (c.startJanitorLocked cfg i) := by
  unfold startJanitorLocked
  split_ifs
  · exact .refl c
  · exact sheds_modify i (fun _ ↦ .inl rfl) rfl rfl rfl

theorem sheds_startJanitorFor (expireAt : ℤ) : Sheds c (c.startJanitorFor cfg i expireAt) := by
  unfold startJanitorFor
  split_ifs
  · exact sheds_startJanitorLocked c
  · exact .refl c

theorem sheds_markAmended : Sheds c (c.markAmended i) :=
  sheds_modify_same c i fun _ ↦ ⟨rfl, rfl, rfl, rfl⟩

theorem sheds_publish (ev : Event K V) : Sheds c (c.publish cfg ev) := by
  unfold publish
  split_ifs
  · exact sheds_of_shards rfl rfl rfl
  · exact .refl c

theorem sheds_recordHashCollisionLocked (key : K) :
    Sheds c (c.recordHashCollisionLocked cfg i key) := by
  have hindex (l : List (UInt64 × K)) : Sheds c (c.modify i fun s ↦ { s with hashIndex := l }) :=
    sheds_modify_same c i fun _ ↦ ⟨rfl, rfl, rfl, rfl⟩
  unfold recordHashCollisionLocked
  dsimp only
  split_ifs
  · exact .refl c
  · exact (hindex _).count _
  · exact hindex _

theorem sheds_releaseShard : Sheds c (c.releaseShard i) := by
  have h : Sheds c (c.modify i fun s ↦ { s with pendingCallbacks := [] }) :=
    sheds_modify_same c i fun _ ↦ ⟨rfl, rfl, rfl, rfl⟩
  exact h.trans (sheds_of_shards rfl rfl rfl)

variable [PartialEquivBEq K]

theorem sheds_dropLocked (e : Entry K V) (reason : EvictionReason) :
    Sheds c (c.dropLocked cfg env i e reason) := by
  have htable : Sheds c (c.modifyTable i fun t ↦ dropEntry t e) :=
    sheds_modify i (fun key ↦ Table.get_dropEntry_or _ e key) rfl rfl rfl
  have hhash (d : Cache K V n) : Sheds d (d.forgetHashLocked cfg i e.key) :=
    sheds_modify i (fun _ ↦ .inl rfl) rfl rfl rfl
  have huntag (d : Cache K V n) : Sheds d (d.enqueueUntag env e.key e.tags) := by
    unfold enqueueUntag
    split_ifs
    · exact .refl d
    · exact sheds_of_shards rfl rfl rfl
    · exact sheds_of_shards rfl rfl rfl
  have hadd (d : Cache K V n) : Sheds d (d.addCounters (-1) (-e.weight)) :=
    sheds_of_shards rfl rfl rfl
  have hcall (d : Cache K V n) : Sheds d (d.queueCallback cfg i e reason) := by
    unfold queueCallback
    split_ifs
    · exact sheds_modify i (fun _ ↦ .inl rfl) rfl rfl rfl
    · exact .refl d
  exact htable.trans ((hhash _).trans ((huntag _).trans ((hadd _).trans
    ((sheds_markInvalidated _ e.id).trans (hcall _)))))

theorem fades_supersedeFlight (key : K) : Fades c (c.supersedeFlight i key) where
  toFrame := frame_modify i rfl rfl (.supersedeFlight _ key)
  get j key' := by
    rcases eq_or_ne j i with rfl | hj
    · exact .inl (by simp [supersedeFlight])
    · exact .inl (by rw [supersedeFlight, modify_shards_of_ne _ _ hj])

/-- Any removal fades the cache. -/
theorem fades_removeLocked (e : Entry K V) (reason : EvictionReason) :
    Fades c (c.removeLocked cfg env i e reason) := by
  unfold removeLocked
  split_ifs
  · exact (fades_supersedeFlight c e.key).trans (sheds_dropLocked _ e reason).toFades
  · exact (sheds_dropLocked c e reason).toFades

variable {reason : EvictionReason}

/-- A removal that does not replace the key's data leaves its load alone. -/
theorem sheds_removeLocked (e : Entry K V) (h : supersedesFlight reason = false) :
    Sheds c (c.removeLocked cfg env i e reason) := by
  unfold removeLocked
  rw [h, if_neg Bool.false_ne_true]
  exact sheds_dropLocked c e reason

/-! ### Eviction and shedding -/

theorem sheds_evict (r : Ref K) (p : Policy K) (h : supersedesFlight reason = false) :
    Sheds c (c.evict cfg env i r p reason) := by
  unfold evict
  dsimp only
  split
  · exact sheds_policy c p
  · exact ((sheds_policy c p).trans (sheds_removeLocked _ _ h)).count _

theorem shedding_sheds (h : supersedesFlight reason = false) :
    Shedding cfg env reason (Sheds (K := K) (V := V) (n := n)) where
  refl := .refl
  trans := .trans
  policy c _ p _ := sheds_policy c p
  evict c _ r p _ := sheds_evict c r p h
  release c _ := sheds_releaseShard c
  next _ _ := sheds_of_shards rfl rfl rfl

theorem sheds_evictRounds (h : supersedesFlight reason = false) (keep fuel : ℕ) :
    Sheds c (evictRounds cfg env i reason keep fuel c).1 :=
  (shedding_sheds h).evictRounds c i keep fuel

theorem sheds_shedOverBudget [NeZero n] (h : supersedesFlight reason = false)
    (last : Option (Fin n)) : Sheds c (c.shedOverBudget cfg env reason last) :=
  (shedding_sheds h).shedOverBudget c last

theorem sheds_flushAndUnlock [NeZero n] : Sheds c (c.flushAndUnlock cfg env i) :=
  (shedding_sheds rfl).flushAndUnlock c i

omit [PartialEquivBEq K] in
variable {c} in
/-- Within the bounds there is nothing to shed. -/
theorem shedOverBudget_of_within [NeZero n] (h : c.overBudget = false) (reason : EvictionReason)
    (last : Option (Fin n)) : c.shedOverBudget cfg env reason last = c := by
  unfold shedOverBudget shedPasses
  rw [h, if_neg Bool.false_ne_true]

omit [PartialEquivBEq K] in
variable {c} in
theorem flushAndUnlock_of_within [NeZero n] (h : c.overBudget = false) (cfg : Config K V)
    (env : Env K) (i : Fin n) : c.flushAndUnlock cfg env i = c.releaseShard i :=
  shedOverBudget_of_within (c := c.releaseShard i) h _ _

theorem sheds_removeExpired (ids : List ℕ) : Sheds c (removeExpired cfg env i ids c) := by
  induction ids generalizing c with
  | nil => exact .refl c
  | cons id ids ih =>
    unfold removeExpired
    split
    · exact ih c
    · exact ((sheds_removeLocked c _ rfl).count _).trans (ih _)

/-- The janitor takes entries away and does nothing else. -/
theorem sheds_sweep [NeZero n] : Sheds c (c.sweep cfg env i) := by
  have httl : Sheds c (c.modifyTable i fun t ↦ { t with ttl := (t.ttl.sweep env.now).2 }) :=
    sheds_modify i (fun _ ↦ .inl rfl) rfl rfl rfl
  exact (httl.trans (sheds_removeExpired _ _)).trans (sheds_flushAndUnlock _)

/-! ### Groups -/

theorem fades_removeAndFlush [NeZero n] (key : K) (reason : EvictionReason) :
    Fades c (c.removeAndFlush cfg env key reason) := by
  unfold removeAndFlush
  dsimp only
  split
  · exact (sheds_flushAndUnlock c).toFades
  · exact (fades_removeLocked c _ reason).trans (sheds_flushAndUnlock _).toFades

theorem fades_shrinkGroup [NeZero n] (tag : String) (capacity fuel : ℕ) :
    Fades c (shrinkGroup cfg env tag capacity fuel c) := by
  induction fuel generalizing c with
  | zero => exact .refl c
  | succ fuel ih =>
    unfold shrinkGroup
    split_ifs
    · exact .refl c
    · split
      · exact .refl c
      · exact (fades_removeAndFlush c _ .tag).trans (ih _)

/-- Group budgets only take entries away. -/
theorem fades_enforceGroupBudgets [NeZero n] (tags : List String) :
    Fades c (c.enforceGroupBudgets cfg env tags) := by
  refine Fades.foldl (fun d tag ↦ ?_) tags c
  split
  · exact .refl d
  · exact fades_shrinkGroup d tag _ _

theorem fades_unlockAfter [NeZero n] (tags : List String) :
    Fades c (c.unlockAfter cfg env i tags) :=
  (sheds_releaseShard c).toFades.trans
    ((fades_enforceGroupBudgets _ tags).trans (sheds_shedOverBudget _ rfl _).toFades)

end Cache

end Memcache
