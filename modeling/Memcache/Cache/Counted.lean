import Memcache.Cache.Invariant

/-!
# Entries that count

A key that does not equal itself cannot be taken out of storage by its key, so an evicted entry under
such a key stays there. The counter of entries and the policy do not see it any more. For keys of any
kind, then, **the counter is at most the number of entries the policies track**, and each of those is
stored (`Core.Counted`); for keys that equal themselves the three are the same.
-/

namespace Memcache

variable {K V : Type*} {n : ℕ} [BEq K]

/-! ### What holds whatever the keys are -/

namespace Core

/-- Every shard stores distinct entries under distinct keys it may be given. -/
def Bare (T : Licence K V) (c : Core K V n) : Prop :=
  ∀ i : Fin n, TableBare (T.takes i) (c.shards i).toTable c.nextId

theorem Bare.step {cfg : Config K V} {T : Licence K V} {c d : Core K V n} (h : CoreStep cfg T c d)
    (hc : c.Bare T) : d.Bare T := by
  have one {i : Fin n} {s : CoreShard K V} (hs : TableBare (T.takes i) s.toTable c.nextId) :
      (c.set i s).Bare T :=
    fun j ↦ set_cases j hs fun j _ ↦ hc j
  have same {i : Fin n} {s : CoreShard K V} (hs : s.storage.Sublist (c.shards i).storage) :
      (c.set i s).Bare T :=
    one ((hc i).sublist hs)
  cases h with
  | read _ i s hs => cases hs <;> exact same (.refl _)
  | insert _ i e habsent hkey hid h₁ h₂ =>
    intro j
    show TableBare _ ((c.set i _).shards j).toTable (c.nextId + 1)
    exact set_cases j ((hc i).addEntry cfg.hash habsent hkey hid ⟨h₁, h₂⟩)
      fun j _ ↦ (hc j).mono (Nat.le_succ _)
  | rewrite _ i e e' fix access hmem hr hfix =>
    refine one ((hc i).put hmem hr.id_eq hr.key_eq ?_ rfl)
    rcases hr.weight_eq with hw | hw
    · exact hw ▸ (hc i).weight e hmem
    · exact hw
  | tombstone _ i e now expireAt hmem hT =>
    have hid : (Cache.tombstoned e now expireAt).id = e.id := rfl
    exact one ((hc i).put hmem hid rfl ⟨le_rfl, one_le_maxEntryWeight⟩ rfl)
  | drop _ i e hmem => exact same List.filter_sublist
  | evict _ i r p e hp hsome => exact same List.filter_sublist
  | clear _ i => exact same (List.nil_sublist _)
  | bounds _ maxEntries maxBytes hT => exact hc
  | _ => exact same (.refl _)

end Core

theorem Cache.bare_new (cfg : Config K V) (T : Licence K V) : (new cfg n).core.Bare T :=
  fun _ ↦ ⟨List.nodup_nil, nofun, .nil, nofun, nofun⟩

/-! ### What is counted -/

namespace Core

/-- What the policies track is stored, and at least as much as the counter says. -/
structure Counted (T : Licence K V) (c : Core K V n) : Prop where
  bare : c.Bare T
  policy : ∀ i, (c.shards i).policy.WellFormed
  stored : ∀ i, ∀ r ∈ (c.shards i).policy.tracked, ∃ e ∈ (c.shards i).storage, e.ref = r
  entries : c.entries ≤ c.total fun s ↦ s.policy.tracked.length

namespace Counted

variable {cfg : Config K V} {T : Licence K V} {c d : Core K V n}

/-- One shard changes, and the counter no more than what its policy tracks. -/
theorem of_set (hc : c.Counted T) {i : Fin n} {s : CoreShard K V} (hbare : d.Bare T)
    (hd : d.shards = (c.set i s).shards) {k : ℤ} (hk : d.entries = c.entries + k)
    (hp : s.policy.WellFormed) (hs : ∀ r ∈ s.policy.tracked, ∃ e ∈ s.storage, e.ref = r)
    (he : k ≤ s.policy.tracked.length - (c.shards i).policy.tracked.length) : d.Counted T where
  bare := hbare
  policy := hd ▸ forall_set (P := fun s ↦ s.policy.WellFormed) hc.policy hp
  stored := hd ▸ forall_set (P := fun s ↦ ∀ r ∈ s.policy.tracked, ∃ e ∈ s.storage, e.ref = r)
    hc.stored hs
  entries := by
    have h := total_set (fun s ↦ (s.policy.tracked.length : ℤ)) c i s
    have hle := hc.entries
    rw [total] at h ⊢
    rw [hd, h, hk]
    omega

/-- One shard changes outside the counters. -/
theorem set_same (hc : c.Counted T) {i : Fin n} {s : CoreShard K V} (hbare : (c.set i s).Bare T)
    (hp : s.policy.WellFormed) (hperm : s.policy.tracked.Perm (c.shards i).policy.tracked)
    (hs : ∀ e ∈ (c.shards i).storage, ∃ e' ∈ s.storage, e'.ref = e.ref) : (c.set i s).Counted T := by
  refine hc.of_set hbare rfl (add_zero _).symm hp (fun r hr ↦ ?_) (by rw [hperm.length_eq, sub_self])
  obtain ⟨e, he, rfl⟩ := hc.stored i r (hperm.mem_iff.1 hr)
  exact hs e he

/-- An entry leaves, with the policy as the choice of it left it. -/
theorem dropShard [PartialEquivBEq K] (hc : c.Counted T) {i : Fin n} {e : Entry K V}
    (he : e ∈ (c.shards i).storage) {p : Policy K} (hp : p.WellFormed)
    (hpick : (NodeList.unlink Ref.id e.id p.tracked).Perm
      (NodeList.unlink Ref.id e.id (c.shards i).policy.tracked)) {lockFree : Bool} {bytes : ℤ}
    (hbare : ((c.set i (dropShard lockFree { c.shards i with policy := p } e)).add (-1) bytes).Bare T) :
    ((c.set i (Memcache.dropShard lockFree { c.shards i with policy := p } e)).add (-1)
      bytes).Counted T := by
  have htracked : (Memcache.dropShard lockFree { c.shards i with policy := p } e).policy.tracked.Perm
      (NodeList.unlink Ref.id e.id (c.shards i).policy.tracked) :=
    (List.Perm.of_eq (Policy.tracked_onRemove e.id p)).trans hpick
  refine hc.of_set hbare rfl rfl (hp.onRemove e.id) (fun r hr ↦ ?_) ?_
  · -- what is still tracked has another identity, and so another key
    obtain ⟨hr, hne⟩ := NodeList.mem_unlink.1 (htracked.mem_iff.1 hr)
    obtain ⟨a, ha, rfl⟩ := hc.stored i r hr
    refine ⟨a, List.mem_filter.2 ⟨ha, ?_⟩, rfl⟩
    by_contra hk
    have hkey : a.key == e.key := by simpa using hk
    exact hne (congrArg Entry.id ((hc.bare i).eq_of_key ha he hkey))
  · rw [htracked.length_eq]
    by_cases hmem : e.ref ∈ (c.shards i).policy.tracked
    · have := (hc.policy i).distinct.length_unlink hmem
      have hid : e.ref.id = e.id := rfl
      rw [hid] at this
      omega
    · rw [NodeList.unlink_of_notMem fun r hr hid ↦ hmem ?_]
      · omega
      · obtain ⟨a, ha, rfl⟩ := hc.stored i r hr
        rwa [(hc.bare i).distinct.eq_of_ident he ha hid.symm]

/-- A policy's victim is a stored entry. -/
theorem byId_of_yields (hc : c.Counted T) {i : Fin n} {r : Ref K} {p : Policy K}
    (h : (c.shards i).policy.Yields p (some r)) : ∃ e, (c.shards i).byId r.id = some e := by
  obtain ⟨e, he, rfl⟩ := hc.stored i r (h.picks (hc.policy i)).mem
  exact ⟨e, (hc.bare i).distinct.lookup_eq he⟩

/-- **Every instruction keeps the count.** -/
theorem step [PartialEquivBEq K] (h : CoreStep cfg T c d) (hc : c.Counted T) : d.Counted T := by
  have hbare : d.Bare T := hc.bare.step h
  have self {i : Fin n} : ∀ e ∈ (c.shards i).storage, ∃ e' ∈ (c.shards i).storage, e'.ref = e.ref :=
    fun e he ↦ ⟨e, he, rfl⟩
  -- a stored entry is still there after a rewrite, under its identity and key
  have kept {i : Fin n} {e b : Entry K V} (hid : b.id = e.id) (hkey : b.key = e.key)
      (hmem : e ∈ (c.shards i).storage) : ∀ a ∈ (c.shards i).storage,
      ∃ a' ∈ NodeList.replace Entry.id b (c.shards i).storage, a'.ref = a.ref := by
    intro a ha
    rcases eq_or_ne a.id b.id with heq | hne
    · obtain rfl := (hc.bare i).distinct.eq_of_ident ha hmem (heq.trans hid)
      exact ⟨b, NodeList.mem_replace_self ha heq, by rw [Entry.ref, Entry.ref, hid, hkey]⟩
    · exact ⟨a, NodeList.mem_replace_of_ne ha hne, rfl⟩
  cases h with
  | flights _ i f hf => exact hc.set_same hbare (hc.policy i) (.refl _) self
  | pending _ i m hm => exact hc.set_same hbare (hc.policy i) (.refl _) self
  | read _ i s hs => cases hs <;> exact hc.set_same hbare (hc.policy i) (.refl _) self
  | insert _ i e habsent hkey hid h₁ h₂ =>
    have hperm := Policy.tracked_onInsert cfg.hash e.ref (c.shards i).policy
    refine hc.of_set hbare rfl rfl ?_ (fun r hr ↦ ?_) ?_
    · refine (hc.policy i).onInsert cfg.hash fun r hr ↦ ?_
      obtain ⟨a, ha, rfl⟩ := hc.stored i r hr
      exact fun heq ↦ ((hc.bare i).fresh a ha).ne (heq.trans hid)
    · rcases List.mem_cons.1 (hperm.mem_iff.1 hr) with rfl | hr
      · exact ⟨e, List.mem_append_right _ (List.mem_singleton_self e), rfl⟩
      · obtain ⟨a, ha, rfl⟩ := hc.stored i r hr
        exact ⟨a, List.mem_append_left _ ha, rfl⟩
    · simp [Cache.addEntry, hperm.length_eq]
  | rewrite _ i e e' fix access hmem hr hfix =>
    have hkept := kept hr.id_eq hr.key_eq hmem
    have hperm : (rewriteTable cfg.hash (c.shards i).toTable e' fix access).policy.tracked.Perm
        (c.shards i).policy.tracked := by
      simp only [rewriteTable]
      split_ifs
      · exact (hc.policy i).tracked_onAccess cfg.hash e'.id
      · exact .refl _
    refine hc.of_set hbare rfl rfl ?_ (fun r hr ↦ ?_) (by rw [hperm.length_eq, sub_self])
    · simp only [rewriteTable]
      split_ifs
      · exact (hc.policy i).onAccess cfg.hash e'.id
      · exact hc.policy i
    · obtain ⟨a, ha, rfl⟩ := hc.stored i r (hperm.mem_iff.1 hr)
      exact hkept a ha
  | tombstone _ i e now expireAt hmem hT =>
    exact hc.set_same hbare ((hc.policy i).onAccess cfg.hash _)
      ((hc.policy i).tracked_onAccess cfg.hash _)
      (kept (e := e) (b := Cache.tombstoned e now expireAt) rfl rfl hmem)
  | drop _ i e hmem => exact hc.dropShard hmem (hc.policy i) (.refl _) hbare
  | policy _ i p hp => exact hc.set_same hbare (hp.wellFormed (hc.policy i)) (hp.picks (hc.policy i)) self
  | stray _ i r p hp hnone =>
    -- the policy tracks stored entries only, so there is no stray victim
    obtain ⟨e, hsome⟩ := hc.byId_of_yields hp
    cases hnone.symm.trans hsome
  | evict _ i r p e hp hsome =>
    have hpick := hp.picks (hc.policy i)
    have hid : e.id = r.id := Table.id_of_byId hsome
    exact hc.dropShard (Table.mem_of_byId hsome) (hp.wellFormed (hc.policy i)) (hid ▸ hpick.2.2) hbare
  | ttl _ i now _ => exact hc.set_same hbare (hc.policy i) (.refl _) self
  | clear _ i =>
    refine hc.of_set hbare rfl rfl (Policy.wellFormed_reset _) (fun r hr ↦ ?_) ?_
    · rw [Policy.tracked_reset] at hr
      cases hr
    · -- no more was tracked than there was stored
      have hle : (c.shards i).policy.tracked.length ≤ (c.shards i).storage.length := by
        have hsub : (c.shards i).policy.tracked.map Ref.id ⊆ (c.shards i).storage.map Entry.id := by
          intro id hid
          obtain ⟨r, hr, rfl⟩ := List.mem_map.1 hid
          obtain ⟨e, he, rfl⟩ := hc.stored i r hr
          exact List.mem_map_of_mem he
        simpa using (List.Nodup.subperm (hc.policy i).distinct hsub).length_le
      rw [Policy.tracked_reset]
      simp only [List.length_nil]
      omega
  | bounds _ maxEntries maxBytes hT => exact ⟨hbare, hc.policy, hc.stored, hc.entries⟩
  | budget _ i per hT =>
    exact hc.set_same hbare ((hc.policy i).setBudget per) (.of_eq (Policy.tracked_setBudget ..)) self

/-- With nothing tracked, nothing is counted. -/
theorem entries_le_zero (hc : c.Counted T) (h : ∀ i, (c.shards i).policy.tracked = []) :
    c.entries ≤ 0 := by
  refine hc.entries.trans (le_of_eq (Finset.sum_eq_zero fun i _ ↦ ?_))
  show ((c.shards i).policy.tracked.length : ℤ) = 0
  rw [h i]
  rfl

end Counted

end Core

theorem Cache.counted_new (cfg : Config K V) (T : Licence K V) : (new cfg n).core.Counted T where
  bare := Cache.bare_new cfg T
  policy _ := Policy.wellFormed_new ..
  stored i r hr := by
    have htracked : ((new cfg n).core.shards i).policy.tracked = [] := Policy.tracked_new ..
    rw [htracked] at hr
    cases hr
  entries := by simp [Cache.core, new, Core.total, Shard.core, newShard]

end Memcache
