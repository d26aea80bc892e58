import Memcache.Cache.Reached
import Memcache.Cache.Timely

/-!
# The structures of a shard agree

A shard keeps an entry in its storage, in its policy and, when the entry can expire, in its expiry
backend. Between sections they agree (`Table.Agrees`). The one instruction that breaks the agreement
is the backend's sweep: it gives up the entries it reports, which the janitor then removes under the
same lock. So the invariant names the identities given up and still stored (`Core.Tracks`), and
**they are gone by the end of the sweep**.
-/

namespace Memcache

variable {K V : Type*} {n : ℕ}

/-- The policy tracks the stored entries, each once, and the backend those that can expire. -/
structure Table.Agrees (t : Table K V) : Prop where
  tracked : t.policy.tracked.Perm (t.storage.map Entry.ref)
  once : (t.policy.tracked.map Ref.id).Nodup
  len : t.policy.len = t.storage.length
  dated : ∀ e ∈ t.storage, 0 < e.expireAt → t.ttl.ids.count e.id = 1
  undated : ∀ e ∈ t.storage, e.expireAt = 0 → e.id ∉ t.ttl.ids

/-- Entries that can expire are tracked, or given up; no policy keeps a victim pulled out. -/
structure TableTracks (gone : List ℕ) (t : Table K V) : Prop where
  due : ∀ e ∈ t.storage, 0 < e.expireAt → e.id ∈ t.ttl.ids ∨ e.id ∈ gone
  dated : ∀ r ∈ t.ttl.records, r.2 ≠ 0
  pulled : t.policy.pulledIds = []

namespace TableTracks

variable {gone : List ℕ} {t : Table K V} {nextId : ℕ} {e e' : Entry K V}

theorem addEntry [BEq K] (h : TableTracks gone t) (ht : TableOk t nextId) (hash : K → UInt64) :
    TableTracks gone (Cache.addEntry hash t e) where
  due := by
    intro a ha hpos
    rcases List.mem_append.1 ha with ha | ha
    · exact (h.due a ha hpos).imp_left fun ha ↦ Ttl.mem_ids_add ht.ttl ha ..
    · obtain rfl := List.mem_singleton.1 ha
      exact .inl ((Ttl.ids_add ht.ttl hpos.ne').mem_iff.2 List.mem_cons_self)
  dated := by
    intro r hr
    rcases Ttl.mem_records_add hr with ⟨hne, rfl⟩ | hr
    · exact hne
    · exact h.dated r hr
  pulled := by
    show (t.policy.onInsert hash _).pulledIds = []
    rw [Policy.pulledIds_onInsert]
    exact h.pulled

theorem rewriteTable [BEq K] (h : TableTracks gone t) (ht : TableOk t nextId) (hash : K → UInt64)
    (hmem : e ∈ t.storage) (hid : e'.id = e.id) (fix access : Bool)
    (hfix : fix = false → e'.expireAt = e.expireAt) :
    TableTracks gone (rewriteTable hash t e' fix access) := by
  have hpulled : (Memcache.rewriteTable hash t e' fix access).policy.pulledIds = [] := by
    show (if access then t.policy.onAccess hash e'.id else t.policy).pulledIds = []
    split_ifs
    · rw [Policy.pulledIds_onAccess]
      exact h.pulled
    · exact h.pulled
  rcases Bool.eq_false_or_eq_true fix with rfl | rfl
  · refine ⟨fun a ha hpos ↦ ?_, fun r hr ↦ ?_, hpulled⟩
    · show a.id ∈ (t.ttl.fix e'.id e'.expireAt).ids ∨ a.id ∈ gone
      rcases NodeList.mem_replace ha with rfl | ⟨ha, hne⟩
      · exact .inl (Ttl.mem_ids_fix_self ht.ttl hpos)
      · exact (h.due a ha hpos).imp_left fun ha ↦ Ttl.mem_ids_fix_of_ne ht.ttl hne ha _
    · rcases Ttl.mem_records_fix hr with ⟨hne, rfl⟩ | ⟨hr, -⟩
      · exact hne
      · exact h.dated r hr
  · refine ⟨fun a ha hpos ↦ ?_, h.dated, hpulled⟩
    rcases NodeList.mem_replace ha with rfl | ⟨ha, -⟩
    · rw [hid]
      exact h.due e hmem (hfix rfl ▸ hpos)
    · exact h.due a ha hpos

/-- An entry leaves, after the policy chose it or on its own. -/
theorem dropEntry [BEq K] [PartialEquivBEq K] (h : TableTracks gone t) (ht : TableOk t nextId)
    (hmem : e ∈ t.storage) {p : Policy K} (hp : (p.onRemove e.id).pulledIds = []) :
    TableTracks gone (Cache.dropEntry { t with policy := p } e) where
  due := by
    intro a ha hpos
    have ha : a ∈ NodeList.unlink Entry.id e.id t.storage := ht.filter_key hmem ▸ ha
    obtain ⟨ha, hne⟩ := NodeList.mem_unlink.1 ha
    refine (h.due a ha hpos).imp_left fun hin ↦ ?_
    show a.id ∈ (t.ttl.remove e.id).ids
    rw [Ttl.ids_remove]
    exact List.mem_filter.2 ⟨hin, by simpa using hne⟩
  dated r hr := h.dated r (Ttl.mem_records_remove hr).1
  pulled := hp

/-- The backend gives up what it reports. -/
theorem sweep (h : TableTracks [] t) (ht : t.ttl.WellFormed) (htimely : t.ttl.Timely) (now : ℤ) :
    TableTracks (t.ttl.sweep now).1 { t with ttl := (t.ttl.sweep now).2 } where
  due := by
    intro e he hpos
    have hin : e.id ∈ t.ttl.ids := (h.due e he hpos).resolve_right nofun
    exact (List.mem_append.1 ((Ttl.ids_sweep ht now).mem_iff.2 hin)).symm
  dated := by
    obtain ⟨due, -, hperm, -⟩ := Ttl.exists_due ht htimely now
    exact fun r hr ↦ h.dated r (hperm.mem_iff.1 (List.mem_append_right _ hr))
  pulled := h.pulled

/-- An identity nothing is stored under is given up no more. -/
theorem forget {id : ℕ} (h : TableTracks (id :: gone) t) (hnone : ∀ e ∈ t.storage, e.id ≠ id) :
    TableTracks gone t where
  due e he hpos := (h.due e he hpos).imp_right fun hin ↦
    (List.mem_cons.1 hin).resolve_left (hnone e he)
  dated := h.dated
  pulled := h.pulled

/-- **With nothing given up, the structures agree.** -/
theorem agrees [BEq K] (h : TableTracks [] t) (ht : TableOk t nextId) (htime : TableTimely t) :
    t.Agrees where
  tracked := ht.tracked
  once := by
    rw [(ht.tracked.map Ref.id).nodup_iff, List.map_map]
    exact ht.distinct
  len := by rw [Policy.len_eq h.pulled, ht.tracked.length_eq, List.length_map]
  dated e he hpos :=
    List.count_eq_one_of_mem ht.ttlNodup ((h.due e he hpos).resolve_right nofun)
  undated e he hzero hin := by
    rw [Ttl.ids_eq] at hin
    obtain ⟨r, hr, hid⟩ := List.mem_map.1 hin
    exact h.dated r hr ((htime.record e he r hr hid).trans hzero)

end TableTracks

/-! ### Every instruction but the backend's sweep -/

namespace Core

/-- Every shard tracks its entries but those given up. -/
def Tracks (gone : Fin n → List ℕ) (c : Core K V n) : Prop :=
  ∀ i, TableTracks (gone i) (c.shards i).toTable

variable [BEq K] [PartialEquivBEq K] {cfg : Config K V} {gone : Fin n → List ℕ}

theorem Tracks.step {T : Licence K V} [T.Proper] (hT : ¬T.sweep) {c d : Core K V n}
    (h : CoreStep cfg T c d) (hinv : c.Inv) (hc : c.Tracks gone) : d.Tracks gone := by
  have one {i : Fin n} {s : CoreShard K V} (hs : TableTracks (gone i) s.toTable) :
      (c.set i s).Tracks gone :=
    fun j ↦ set_cases j hs fun j _ ↦ hc j
  have drop {i : Fin n} {e : Entry K V} {p : Policy K} (hmem : e ∈ (c.shards i).storage)
      (hp : (p.onRemove e.id).pulledIds = []) :
      (c.set i (dropShard cfg.lockFreeRead { c.shards i with policy := p } e)).Tracks gone :=
    one ((hc i).dropEntry (hinv.table i) hmem hp)
  cases h with
  | flights _ i f hf => exact one (hc i)
  | pending _ i m hm => exact one (hc i)
  | read _ i s hs => cases hs <;> exact one (hc i)
  | insert _ i e habsent hkey hid h₁ h₂ => exact one ((hc i).addEntry (hinv.table i) cfg.hash)
  | rewrite _ i e e' fix access hmem hr hfix =>
    exact one ((hc i).rewriteTable (hinv.table i) cfg.hash hmem hr.id_eq fix access hfix)
  | tombstone _ i e now expireAt hmem hT =>
    have hid : (Cache.tombstoned e now expireAt).id = e.id := rfl
    exact one ((hc i).rewriteTable (hinv.table i) cfg.hash hmem hid true true nofun)
  | drop _ i e hmem =>
    refine drop hmem ?_
    rw [Policy.pulledIds_onRemove, (hc i).pulled, List.filter_nil]
  | policy _ i p hp => exact one { hc i with pulled := hp.pulledIds_eq_nil (hc i).pulled }
  | stray _ i r p hp hnone =>
    -- the policy tracks stored entries only
    obtain ⟨e, -, -, hsome⟩ := hinv.byId_of_yields hp
    exact absurd (hnone.symm.trans hsome) nofun
  | evict _ i r p e hp hsome =>
    refine drop (Table.mem_of_byId hsome) ?_
    rw [Table.id_of_byId hsome]
    exact hp.pulledIds_onRemove (hc i).pulled
  | ttl _ i now hsweep => exact absurd hsweep hT
  | clear _ i =>
    refine one ⟨fun _ he ↦ (nomatch he), fun r hr ↦ ?_, Policy.pulledIds_reset _⟩
    have hin : r.1 ∈ (c.shards i).ttl.reset.ids := by
      rw [Ttl.ids_eq]
      exact List.mem_map_of_mem hr
    rw [Ttl.ids_reset] at hin
    cases hin
  | bounds _ maxEntries maxBytes hT => exact hc
  | budget _ i per hT =>
    exact one { hc i with pulled := (Policy.pulledIds_setBudget ..).trans (hc i).pulled }

end Core

/-! ### Reached states -/

section Reached

variable [BEq K] [EquivBEq K] {cfg : Config K V} {gone : Fin n → List ℕ}

theorem Steps.tracks [NeZero n] {c c' : Cache K V n} (h : Steps cfg (.placed cfg n False) c c')
    (hinv : c.core.Inv) (hc : c.core.Tracks gone) : c'.core.Tracks gone :=
  (h.invariant (I := fun c ↦ c.Inv ∧ c.Tracks gone)
    (fun hstep hc ↦ ⟨hc.1.step hstep, .step id hstep hc.1 hc.2⟩) ⟨hinv, hc⟩).2

namespace Cache

omit [BEq K] [EquivBEq K] in
theorem tracks_new (cfg : Config K V) : (new cfg n).core.Tracks fun _ ↦ [] := by
  refine fun _ ↦ ⟨fun _ he ↦ (nomatch he), fun r hr ↦ ?_, Policy.pulledIds_new ..⟩
  have hin : r.1 ∈ (newTTLBackend cfg).ids := by
    rw [Ttl.ids_eq]
    exact List.mem_map_of_mem hr
  rw [ids_newTTLBackend] at hin
  cases hin

variable [NeZero n] {env : Env K} {i : Fin n}

/-- **What the janitor is told of is removed.** -/
theorem tracks_removeExpired {ids : List ℕ} {c : Cache K V n} (hinv : c.core.Inv)
    (hc : c.core.Tracks (Function.update (fun _ ↦ []) i ids)) :
    (removeExpired cfg env i ids c).core.Tracks fun _ ↦ [] := by
  induction ids generalizing c with
  | nil =>
    rw [Function.update_eq_self_iff.2 rfl] at hc
    exact hc
  | cons id ids ih =>
    -- once nothing is stored under `id`, it is given up no more
    have next {d : Cache K V n} (hd : d.core.Tracks (Function.update (fun _ ↦ []) i (id :: ids)))
        (hnone : ∀ e ∈ (d.shards i).storage, e.id ≠ id) :
        d.core.Tracks (Function.update (fun _ ↦ []) i ids) := by
      intro j
      have hj := hd j
      by_cases hij : j = i
      · subst hij
        rw [Function.update_self] at hj ⊢
        exact hj.forget hnone
      · rw [Function.update_of_ne hij] at hj ⊢
        exact hj
    rw [removeExpired]
    rcases he : (c.shards i).byId id with - | e
    · exact ih hinv (next hc (NodeList.lookup_eq_none.1 he))
    · have hmem : e ∈ (c.shards i).storage := Table.mem_of_byId he
      have hsteps : Steps cfg (.placed cfg n False) c
          (c.removeLocked cfg env i e .expired).countExpiration :=
        (c.steps_removeLocked i hmem .expired).trans (.of_eq rfl)
      refine ih (inv_of_steps hsteps hinv) (next (hsteps.tracks hinv hc) fun a ha ↦ ?_)
      have ha : a ∈ ((c.removeLocked cfg env i e .expired).shards i).toTable.storage := ha
      rw [toTable_removeLocked] at ha
      have ha : a ∈ NodeList.unlink Entry.id e.id (c.shards i).storage :=
        (hinv.table i).filter_key hmem ▸ ha
      rw [← show e.id = id from Table.id_of_byId he]
      exact (NodeList.mem_unlink.1 ha).2

theorem tracks_sweepExpiredLocked {c : Cache K V n} (hinv : c.core.Inv) (htime : c.core.Timely)
    (hc : c.core.Tracks fun _ ↦ []) :
    (c.sweepExpiredLocked cfg env i).core.Tracks fun _ ↦ [] := by
  have hcore : (c.modifyTable i fun t ↦ { t with ttl := (t.ttl.sweep env.now).2 }).core =
      c.core.set i { c.core.shards i with ttl := ((c.core.shards i).ttl.sweep env.now).2 } := by
    rw [modifyTable, core_modify]
    rfl
  refine tracks_removeExpired ?_ ?_
  · rw [hcore]
    exact hinv.set_same ((hinv.table i).sweep env.now) rfl
  · rw [hcore]
    refine fun j ↦ Core.set_cases j ?_ fun j hj ↦ ?_
    · rw [Function.update_self]
      exact (hc i).sweep (hinv.table i).ttl (htime i).timely env.now
    · rw [Function.update_of_ne hj]
      exact hc j

end Cache

variable [NeZero n] [Inhabited V] {c : Cache K V n}

theorem Reached.tracks (h : Reached cfg c) : c.core.Tracks fun _ ↦ [] := by
  induction h with
  | new cfg => exact Cache.tracks_new cfg
  | @op cfg c h env op ih =>
    obtain ⟨hinv, htime⟩ := h.inv_timely
    by_cases hop : ∃ i, op = .sweep i
    · obtain ⟨i, rfl⟩ := hop
      have hswept : (c.sweepExpiredLocked cfg env i).core.Inv :=
        (h.sweep env i).inv_timely.1
      exact Steps.tracks (Cache.steps_flushAndUnlock _ i) hswept
        (Cache.tracks_sweepExpiredLocked hinv htime ih)
    · exact Steps.tracks (moves_step_placed (fun i hi ↦ hop ⟨i, hi⟩) (h.ready False)) hinv ih
  | locked h env h' ih => exact Steps.tracks (h'.moves (h.ready False)) h.inv_timely.1 ih
  | sweep h env i ih =>
    obtain ⟨hinv, htime⟩ := h.inv_timely
    exact Cache.tracks_sweepExpiredLocked hinv htime ih
  | clone h hopen now hview origin hhash ih ihview =>
    exact Steps.tracks (Cache.steps_clone now origin (fun i ↦ (hview i).bare) hhash)
      (Cache.inv_new ..) (Cache.tracks_new _)

/-- **Whenever no lock is held, every shard's structures agree** and the counter of entries is the
number of entries stored. -/
theorem agrees_of_reached (h : Reached cfg c) :
    (∀ i, (c.shards i).toTable.Agrees) ∧ c.entries = ∑ i, ((c.shards i).storage.length : ℤ) := by
  obtain ⟨hinv, htime⟩ := h.inv_timely
  exact ⟨fun i ↦ (h.tracks i).agrees (hinv.table i) (htime i), hinv.entries⟩

end Reached

/-- Two entries, one for ten nanoseconds, and the janitor's sweep after a minute. -/
theorem agrees_of_reached_swept :
    let cfg : Config ℕ ℕ := { defaultConfig UInt64.ofNat with policy := .lfu }
    let c : Cache ℕ ℕ 1 := (run cfg (new cfg 1)
      [(.instant 1, .set 1 1), (.instant 2, .setWithTTL 2 2 10)]).sweepExpiredLocked cfg
        (.instant 60000000000) 0
    c.entries = 1 ∧ (∀ i, (c.shards i).toTable.Agrees) ∧
      c.entries = ∑ i, ((c.shards i).storage.length : ℤ) :=
  ⟨by decide +kernel, agrees_of_reached (.sweep (Reachable.reached ⟨_, rfl⟩) _ _)⟩

end Memcache
