import Memcache.Cache.Lookup
import Memcache.Cache.Operations
import Memcache.Cache.Put

/-!
# What an operation does to watches

No operation but starting and ending a watch touches the tokens in any way other than marking them,
and none drops a token from the map without its mark. Under asynchronous writes the mark comes late:
a write of a key is accepted into the queue and **marks the key's token only when it is applied**. So
the relation `Heeds` that every operation satisfies says two things at once: tokens are only marked,
and a queued write of a key leaves the queue only by marking the key's token.

`Heeds` composes, so an operation is a chain of sections each of which heeds; a section that leaves
the queue alone heeds as soon as it has a `Frame`.
-/

namespace Memcache

namespace Cache

variable {K V : Type*} {n : ℕ} [BEq K] {cfg : Config K V} {env : Env K} {c c' c'' : Cache K V n}
  {i : Fin n} {key k : K}

/-- Every queued write stands under its own key. -/
def QueueKeyed (c : Cache K V n) : Prop :=
  ∀ i k op, (c.shards i).pending.get k = some op → op.key == k

/-- The token a key was registered with is marked. -/
def Voids (i : Fin n) (key : K) (c c' : Cache K V n) : Prop :=
  ∀ w, (c.shards i).flights.watches.get key = some w → (c'.shards i).flights.Void w

/-- Tokens were only marked, and a queued write left the queue only with its key's token marked. -/
structure Heeds (c c' : Cache K V n) : Prop where
  marks : ∀ j, Flights.Marks (c.shards j).flights (c'.shards j).flights
  keyed : c.QueueKeyed → c'.QueueKeyed
  queue : c.QueueKeyed → ∀ i key, ((c.shards i).pending.get key).isSome →
    ((c'.shards i).pending.get key).isSome ∨ Voids i key c c'

/-! ### Composition -/

theorem Voids.after (h : Voids i key c c') (h' : Heeds c' c'') : Voids i key c c'' :=
  fun w hw ↦ (h'.marks i).void (h w hw)

theorem Voids.before (h : Heeds c c') (h' : Voids i key c' c'') (hh : Heeds c' c'') :
    Voids i key c c'' := by
  intro w hw
  rcases (h.marks i).dropped hw with hw' | hv
  · exact h' w hw'
  · exact (hh.marks i).void hv

namespace Heeds

/-- A section that leaves the queue alone. -/
theorem of_pending (hp : ∀ j, (c'.shards j).pending = (c.shards j).pending)
    (hm : ∀ j, Flights.Marks (c.shards j).flights (c'.shards j).flights) : Heeds c c' where
  marks := hm
  keyed hq j k op hop := hq j k op (hp j ▸ hop)
  queue _ j key hsome := .inl (by rw [hp]; exact hsome)

theorem of_frame (h : Frame c c') : Heeds c c' := of_pending h.pending h.marks

theorem of_core (h : c'.core = c.core) : Heeds c c' := by
  have hs (j : Fin n) : (c'.shards j).core = (c.shards j).core := congrArg (Core.shards · j) h
  refine of_pending (fun j ↦ congrArg CoreShard.pending (hs j)) fun j ↦ ?_
  rw [show (c'.shards j).flights = _ from congrArg CoreShard.flights (hs j)]
  exact .refl _

theorem refl (c : Cache K V n) : Heeds c c := of_frame (.refl c)

theorem trans (h : Heeds c c') (h' : Heeds c' c'') : Heeds c c'' where
  marks j := (h.marks j).trans (h'.marks j)
  keyed hq := h'.keyed (h.keyed hq)
  queue hq j key hsome := by
    rcases h.queue hq j key hsome with hsome' | hv
    · exact (h'.queue (h.keyed hq) j key hsome').imp_right fun hv ↦ .before h hv h'
    · exact .inr (hv.after h')

theorem frame (h : Heeds c c') (h' : Frame c' c'') : Heeds c c'' := h.trans (of_frame h')

theorem count (h : Heeds c c') (st : Stats) : Heeds c { c' with stats := st } :=
  h.frame ((Sheds.refl c').count st).toFrame

theorem foldl {α : Type*} {f : Cache K V n → α → Cache K V n} (h : ∀ d a, Heeds d (f d a))
    (l : List α) (c : Cache K V n) : Heeds c (l.foldl f c) :=
  Runs.invariant (I := Heeds c) (fun d a hd ↦ hd.trans (h d a)) (.refl c) l

/-- A change of one shard outside its queue. -/
theorem modify (c : Cache K V n) (i : Fin n) {f : Shard K V → Shard K V}
    (hp : (f (c.shards i)).pending = (c.shards i).pending)
    (hm : Flights.Marks (c.shards i).flights (f (c.shards i)).flights) : Heeds c (c.modify i f) :=
  of_pending (fun j ↦ modify_cases j hp fun _ _ ↦ rfl) fun j ↦ modify_cases j hm fun _ _ ↦ .refl _

/-- A change of one shard's loads. -/
theorem flights (c : Cache K V n) (i : Fin n) {f : Flights K → Flights K}
    (h : ∀ s, Flights.Marks s (f s)) :
    Heeds c (c.modify i fun s ↦ { s with flights := f s.flights }) :=
  .modify c i rfl (h _)

/-- A loop that comes to a section which marks the key's token, with what the section needs in place
until then. -/
theorem voids_foldl {α : Type*} {f : Cache K V n → α → Cache K V n} {P : Cache K V n → Prop}
    (h : ∀ d a, Heeds d (f d a)) {a : α} {l : List α} (ha : a ∈ l)
    (hkeep : ∀ d b, P d → Voids i key d (f d b) ∨ P (f d b))
    (hat : ∀ d, P d → Voids i key d (f d a)) (hP : P c) : Voids i key c (l.foldl f c) := by
  induction l generalizing c with
  | nil => cases ha
  | cons b l ih =>
    rcases List.mem_cons.1 ha with rfl | ha
    · exact (hat c hP).after (foldl h l _)
    · rcases hkeep c b hP with hv | hP'
      · exact hv.after (foldl h l _)
      · exact .before (h c b) (ih ha hP') (foldl h l _)

end Heeds

/-! ### Writes of a key -/

section Sections

variable [PartialEquivBEq K]

theorem Puts.voids {P : Entry K V → Prop} (h : Puts c c' i k P) (hk : k == key) :
    Voids i key c c' := by
  intro w hw
  rw [h.flights, Flights.supersedeFlight_congr hk]
  exact Flights.void_supersedeFlight hw

section

variable (cfg : Config K V) (env : Env K) (c : Cache K V n) (i : Fin n)

/-- An upsert supersedes the key, in a sealed cache too. -/
theorem upsertLocked_supersedes (k : K) (value : V) (weight effectiveTTL : ℤ) (sliding : Bool)
    (rawTTL : ℤ) (tags : List String) :
    ∃ P, Puts c (c.upsertLocked cfg env i k value weight effectiveTTL sliding rawTTL tags) i k P := by
  rcases Bool.eq_false_or_eq_true c.sealed with hs | hs
  · refine ⟨fun _ ↦ True, ?_⟩
    unfold upsertLocked
    dsimp only
    rw [if_pos (show (c.supersedeFlight i k).sealed = true from hs)]
    exact .of_still (Sheds.refl _).toStill fun _ _ ↦ trivial
  · exact ⟨_, puts_upsertLocked cfg env i k hs value weight effectiveTTL sliding rawTTL tags⟩

theorem upsertWithAbsoluteExpiryLocked_supersedes (k : K) (value : V) (weight expireAt : ℤ)
    (tags : List String) :
    ∃ P, Puts c (c.upsertWithAbsoluteExpiryLocked cfg env i k value weight expireAt tags) i k P := by
  rcases Bool.eq_false_or_eq_true c.sealed with hs | hs
  · refine ⟨fun _ ↦ True, ?_⟩
    unfold upsertWithAbsoluteExpiryLocked
    dsimp only
    rw [if_pos (show (c.supersedeFlight i k).sealed = true from hs)]
    exact .of_still (Sheds.refl _).toStill fun _ _ ↦ trivial
  · exact ⟨_, puts_upsertWithAbsoluteExpiryLocked cfg env i k hs value weight expireAt tags⟩

/-- So does applying a queued write, whichever it is. -/
theorem applyPendingOpLocked_supersedes (op : PendingOp K V) :
    ∃ P, Puts c (c.applyPendingOpLocked cfg env i op) i op.key P := by
  unfold applyPendingOpLocked
  split
  · split_ifs
    · exact upsertWithAbsoluteExpiryLocked_supersedes ..
    · exact upsertLocked_supersedes ..
  · exact ⟨_, puts_removeKeyLocked cfg env i op.key _⟩

end

theorem heeds_upsertLocked (c : Cache K V n) (i : Fin n) (k : K) (value : V)
    (weight effectiveTTL : ℤ) (sliding : Bool) (rawTTL : ℤ) (tags : List String) :
    Heeds c (c.upsertLocked cfg env i k value weight effectiveTTL sliding rawTTL tags) := by
  obtain ⟨P, hput⟩ := upsertLocked_supersedes cfg env c i k value weight effectiveTTL sliding rawTTL tags
  exact .of_frame hput.toFrame

theorem heeds_applyPendingOpLocked (c : Cache K V n) (i : Fin n) (op : PendingOp K V) :
    Heeds c (c.applyPendingOpLocked cfg env i op) := by
  obtain ⟨P, hput⟩ := applyPendingOpLocked_supersedes cfg env c i op
  exact .of_frame hput.toFrame

/-! ### The queue -/

theorem heeds_enqueuePending (c : Cache K V n) (i : Fin n) (op : PendingOp K V) :
    Heeds c (c.enqueuePending i op) where
  marks j := modify_cases j (.refl _) fun _ _ ↦ .refl _
  keyed hq j := by
    refine modify_cases j (fun k op' hop' ↦ ?_) fun j _ ↦ hq j
    rw [show _ = _ from KeyMap.get_insert] at hop'
    split_ifs at hop' with hk
    · exact Option.some.inj hop' ▸ hk
    · exact hq i k op' hop'
  queue _ j key hsome := by
    left
    revert hsome
    refine modify_cases j (fun hsome ↦ ?_) fun _ _ ↦ id
    show ((KeyMap.insert _ _ _).get key).isSome
    rw [KeyMap.get_insert]
    split_ifs
    · rfl
    · exact hsome

/-- A write taken off the queue and applied. -/
theorem heeds_unqueue {op : PendingOp K V} (hop : (c.shards i).pending.get k = some op) :
    Heeds c ((c.unqueue i k).applyPendingOpLocked cfg env i op) := by
  obtain ⟨P, hput⟩ := applyPendingOpLocked_supersedes cfg env (c.unqueue i k) i op
  have hflights (j : Fin n) : ((c.unqueue i k).shards j).flights = (c.shards j).flights :=
    modify_cases j rfl fun _ _ ↦ rfl
  have hpending : ((c.unqueue i k).shards i).pending = (c.shards i).pending.erase k := by
    rw [unqueue, modify_shards_self]
  have hother {j : Fin n} (hj : j ≠ i) : ((c.unqueue i k).shards j).pending =
      (c.shards j).pending := by
    rw [unqueue, modify_shards_of_ne _ _ hj]
  refine ⟨fun j ↦ hflights j ▸ hput.marks j, fun hq j k' op' hop' ↦ ?_, fun hq j key hsome ↦ ?_⟩
  · rw [hput.pending] at hop'
    rcases eq_or_ne j i with rfl | hj
    · rw [hpending, KeyMap.get_erase] at hop'
      split_ifs at hop'
      exact hq j k' op' hop'
    · exact hq j k' op' (hother hj ▸ hop')
  · rw [hput.pending]
    rcases eq_or_ne j i with rfl | hj
    · rw [hpending, KeyMap.get_erase]
      split_ifs with hk
      · refine .inr fun w hw ↦ ?_
        exact hput.voids (PartialEquivBEq.trans (hq j k op hop) hk) w (hflights j ▸ hw)
      · exact .inl hsome
    · exact .inl (hother hj ▸ hsome)

variable (c) (i)

theorem heeds_applyPendingKeyLocked (k : K) : Heeds c (c.applyPendingKeyLocked cfg env i k).1 := by
  unfold applyPendingKeyLocked
  split
  · exact .refl c
  · next op hop => exact heeds_unqueue hop

/-- The queue of a shard emptied and its writes applied. -/
theorem heeds_drain : Heeds c ((c.shards i).pending.values.foldl
    (fun c op ↦ c.applyPendingOpLocked cfg env i op)
    (c.modify i fun s ↦ { s with pending := .empty })) := by
  set d := c.modify i fun s ↦ { s with pending := .empty } with hd
  have hflights (j : Fin n) : (d.shards j).flights = (c.shards j).flights :=
    modify_cases j rfl fun _ _ ↦ rfl
  have hother {j : Fin n} (hj : j ≠ i) : (d.shards j).pending = (c.shards j).pending := by
    rw [hd, modify_shards_of_ne _ _ hj]
  have happly (b : Cache K V n) (op : PendingOp K V) :
      Heeds b (b.applyPendingOpLocked cfg env i op) := heeds_applyPendingOpLocked b i op
  have hall := Heeds.foldl happly (c.shards i).pending.values d
  have hempty (hq : c.QueueKeyed) : d.QueueKeyed := by
    intro j k op hop
    rcases eq_or_ne j i with rfl | hj
    · rw [hd, modify_shards_self] at hop
      cases hop
    · exact hq j k op (hother hj ▸ hop)
  refine ⟨fun j ↦ hflights j ▸ hall.marks j, fun hq ↦ hall.keyed (hempty hq), fun hq j key hsome ↦ ?_⟩
  rcases eq_or_ne j i with rfl | hj
  · -- the key's write is one of those applied, and its section marks the token
    obtain ⟨op, hop⟩ := Option.isSome_iff_exists.1 hsome
    refine .inr fun w hw ↦ ?_
    refine Heeds.voids_foldl (P := fun _ ↦ True) happly (KeyMap.mem_values_of_get hop)
      (fun _ _ _ ↦ .inr trivial) (fun b _ ↦ ?_) trivial w (hflights j ▸ hw)
    obtain ⟨P, hput⟩ := applyPendingOpLocked_supersedes cfg env b j op
    exact hput.voids (hq j key op hop)
  · rw [← hother hj] at hsome
    refine (hall.queue (hempty hq) j key hsome).imp_right fun hv w hw ↦ hv w (hflights j ▸ hw)

/-! ### The other sections -/

theorem fades_removeAll (i : Fin n) (reason : EvictionReason) (ids : List ℕ) (c : Cache K V n) :
    Fades c (removeAll cfg env i reason ids c) := by
  induction ids generalizing c with
  | nil => exact .refl c
  | cons id ids ih =>
    unfold removeAll
    split
    · exact ih c
    · exact (fades_removeLocked c _ reason).trans (ih _)

theorem heeds_insertNegativeTombstoneLocked [Inhabited V] (k : K) :
    Heeds c (c.insertNegativeTombstoneLocked cfg env i k) := by
  unfold insertNegativeTombstoneLocked
  dsimp only
  split_ifs
  · exact .refl c
  · split
    · next e _ =>
      have huntag : Still c (c.enqueueUntag env k e.tags) := by
        unfold enqueueUntag
        split_ifs <;> exact .of_shards rfl rfl rfl
      refine Heeds.frame (.count (.of_frame ?_) _) (sheds_startJanitorLocked _).toFrame
      exact (huntag.trans (still_modifyTable _ i _)).toFrame
    · refine Heeds.frame ?_ (sheds_evictRounds _ rfl 1 _).toFrame
      refine Heeds.frame (.count (.of_frame ?_) _) (sheds_startJanitorLocked _).toFrame
      exact (still_storeEntry cfg c i _).toFrame

variable {c} {i} in
/-- A section that runs with a key's watch out of the map. -/
theorem heeds_of_hidden (h : Frame (c.hideWatch i k) c') :
    Heeds c (c'.restoreWatch i k ((c.shards i).flights.watches.get k)) := by
  have hhide {j : Fin n} (hj : j ≠ i) : (c.hideWatch i k).shards j = c.shards j := by
    rw [hideWatch, modify_shards_of_ne _ _ hj]
  have hself : (c.hideWatch i k).shards i = { c.shards i with flights :=
      { (c.shards i).flights with watches := (c.shards i).flights.watches.erase k } } := by
    rw [hideWatch, modify_shards_self]
  have hother {j : Fin n} (hj : j ≠ i) (w : Option ℕ) :
      (c'.restoreWatch i k w).shards j = c'.shards j := by
    cases w with
    | none => rfl
    | some w => rw [restoreWatch, modify_shards_of_ne _ _ hj]
  have hpending (w : Option ℕ) : ((c'.restoreWatch i k w).shards i).pending = (c'.shards i).pending := by
    cases w with
    | none => rfl
    | some w => rw [restoreWatch, modify_shards_self]
  refine .of_pending (fun j ↦ ?_) fun j ↦ ?_
  · rcases eq_or_ne j i with rfl | hj
    · rw [hpending, h.pending, hself]
    · rw [hother hj, h.pending, hhide hj]
  · rcases eq_or_ne j i with rfl | hj
    · have hm := h.marks j
      rw [hself] at hm
      cases hw : (c.shards j).flights.watches.get k with
      | none =>
        refine .of_hidden hm rfl rfl fun k' ↦ ?_
        split_ifs with hk
        · -- nothing was hidden, and the section registers nothing
          rw [← KeyMap.get_congr hk, ← KeyMap.get_congr hk, hw, restoreWatch]
          cases hnew : (c'.shards j).flights.watches.get k with
          | none => rfl
          | some w =>
            have hold := hm.watch hnew
            rw [KeyMap.get_erase_self] at hold
            cases hold
        · rfl
      | some w =>
        rw [restoreWatch, modify_shards_self]
        refine .of_hidden hm rfl rfl fun k' ↦ ?_
        rw [KeyMap.get_insert]
        split_ifs with hk
        · rw [← KeyMap.get_congr hk, hw]
        · rfl
    · have hm := h.marks j
      rwa [hhide hj, ← hother hj ((c.shards i).flights.watches.get k)] at hm

theorem frame_upsertPromoted (k : K) (value : V) (weight storeExpireAt : ℤ) :
    Frame c (c.upsertPromoted cfg env i k value weight storeExpireAt) := by
  unfold upsertPromoted
  dsimp only
  split
  · obtain ⟨P, hput⟩ := upsertLocked_supersedes cfg env c i k value weight _ _ _ _
    exact hput.toFrame
  · obtain ⟨P, hput⟩ := upsertLocked_supersedes cfg env c i k value weight _ _ _ _
    exact hput.toFrame

/-- A promotion hides the key's watch from its own upsert. -/
theorem heeds_promoteLocked (k : K) (value : V) (storeExpireAt : ℤ) (weight : Except CacheError ℤ) :
    Heeds c (c.promoteLocked cfg env i k value storeExpireAt weight) := by
  unfold promoteLocked
  split
  · exact .refl c
  · split
    · exact .refl c
    · exact heeds_of_hidden (frame_upsertPromoted ..)

theorem heeds_applySnapshotLocked (snap : SnapRecord K V) :
    Heeds c (c.applySnapshotLocked cfg env i snap) := by
  have hsup : Heeds c (c.supersedeFlight i snap.key) :=
    .of_frame (fades_supersedeFlight c snap.key).toFrame
  unfold applySnapshotLocked
  dsimp only
  split
  · exact hsup
  · refine Heeds.frame ?_ ((shedding_sheds rfl).evictTotalRounds _ _ _).toFrame
    refine Heeds.frame ?_ (sheds_startJanitorFor _ _).toFrame
    refine Heeds.frame (hsup.frame ?_) (still_storeEntry cfg _ i _).toFrame
    unfold removeReplaced
    split
    · exact .refl _
    · exact (fades_removeLocked _ _ _).toFrame

omit [PartialEquivBEq K] in
theorem heeds_clearShard : Heeds c (c.clearShard cfg i) := by
  have huntag : Heeds c (c.untagShardLocked i) := .of_pending (fun _ ↦ rfl) fun _ ↦ .refl _
  have hsup : Heeds (c.untagShardLocked i) ((c.untagShardLocked i).supersedeAllFlights i) :=
    .flights _ i .supersedeAllFlights
  exact ((huntag.trans hsup).trans (.modify _ i rfl (.refl _))).trans
    (.of_pending (fun _ ↦ rfl) fun _ ↦ .refl _)

/-- **The sections of an operation heed the watches.** -/
theorem heeding [NeZero n] : Working (n := n) cfg env .any Heeds Heeds where
  refl := .refl
  trans := .trans
  within := id
  chain := .trans
  beside h := .of_core h.core
  shed h hr last := h.frame (sheds_shedOverBudget _ hr last).toFrame
  flights c i _ _ h := .modify c i rfl h
  remove c _ e reason _ := .of_frame (fades_removeLocked c e reason).toFrame
  removeKey _ i key reason := .of_frame (puts_removeKeyLocked cfg env i key reason).toFrame
  upsert c i key _ _ _ _ _ _ _ _ := heeds_upsertLocked c i key ..
  upsertAt c i key value w _ _ t tags := by
    obtain ⟨P, hput⟩ := upsertWithAbsoluteExpiryLocked_supersedes cfg env c i key value w t tags
    exact .of_frame hput.toFrame
  replace _ _ _ _ _ _ he _ := .of_frame (puts_replaceValueLocked cfg env he _ _).toFrame
  tombstone c i key _ _ := heeds_insertNegativeTombstoneLocked c i key
  touch c i _ _ := .of_frame (still_touchEntry cfg env c i _).toFrame
  extend c i _ _ _ :=
    .of_frame ((still_modifyTable c i _).trans (sheds_startJanitorFor _ _).toStill).toFrame
  stale c i _ _ := .of_frame (still_modifyTable c i _).toFrame
  enqueue c i _ _ _ := heeds_enqueuePending c i _
  unqueue c i key := heeds_applyPendingKeyLocked c i key
  drain c i := heeds_drain c i
  finish {c _ i _ f} _ h := by
    have hend : Heeds c (c.endFlight i f) := .modify c i rfl (.of_eq rfl rfl rfl)
    exact hend.trans (h trivial)
  promote c i key value _ storeExpireAt _ _ := heeds_promoteLocked c i key value storeExpireAt _
  sweep c i _ := .of_frame ((still_modifyTable c i _).toFrame.trans (sheds_removeExpired _ _).toFrame)
  clear := heeds_clearShard
  bound c newSize _ := by
    unfold withBound
    split_ifs <;> exact .of_pending (fun _ ↦ rfl) fun _ ↦ .refl _
  resizeShard c i _ :=
    ((Heeds.modify c i rfl (.refl _)).frame (sheds_evictRounds _ rfl _ _).toFrame).frame
      (sheds_releaseShard _).toFrame
  snapshot c i _ _ _ := heeds_applySnapshotLocked c i _

end Sections

/-! ### Runs -/

section Run

variable [PartialEquivBEq K] [NeZero n] [Inhabited V]

/-- **Every operation heeds the watches**, other than those that start and end one. -/
theorem heeds_step (hinv : c.core.Inv) (hread : c.core.ReadInv cfg) {op : Op K V n}
    (hw : ∀ k, op ≠ .watchKey k) (hu : ∀ k w, op ≠ .unwatchKey k w) :
    Heeds c (step cfg env c op) := by
  refine heeding.step c (fun _ _ ↦ trivial)
    (Op.permitted_of_permits (fun _ ↦ trivial) c fun _ _ ↦ trivial) (fun _ _ ↦ trivial) fun hapart ↦ ?_
  cases op with
  | get k => exact .of_frame (reads_get hinv hread env k).toFrame
  | watchKey k => exact absurd rfl (hw k)
  | unwatchKey k w => exact absurd rfl (hu k w)
  | _ => exact hapart.elim

end Run

end Cache

end Memcache
