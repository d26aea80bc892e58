import Memcache.Cache.Steps

/-!
# The invariant of the tables

A table's three structures agree: the policy tracks exactly the stored entries, the expiry backend
only stored ones, each entry is stored under a key of its own that equals itself, and weights are
within their limits (`TableOk`). Every instruction keeps this, and with it the counter of entries is
**the number of entries stored** in every run (`Core.Inv`).
-/

namespace Memcache

variable {K V : Type*} {n : ℕ} [BEq K]

/-- A table of distinct entries under distinct keys of `P`. -/
structure TableBare (P : K → Prop) (t : Table K V) (nextId : ℕ) : Prop where
  distinct : NodeList.Distinct Entry.id t.storage
  fresh : ∀ e ∈ t.storage, e.id < nextId
  keys : t.storage.Pairwise fun a b ↦ (a.key == b.key) = false
  taken : ∀ e ∈ t.storage, P e.key
  weight : ∀ e ∈ t.storage, 1 ≤ e.weight ∧ e.weight ≤ maxEntryWeight

namespace TableBare

variable {P : K → Prop} {t t' : Table K V} {nextId : ℕ} {e e' : Entry K V}

variable (h : TableBare P t nextId)
include h

theorem mono {m : ℕ} (hm : nextId ≤ m) : TableBare P t m :=
  { h with fresh := fun e he ↦ (h.fresh e he).trans_le hm }

theorem sublist (hs : t'.storage.Sublist t.storage) : TableBare P t' nextId where
  distinct := h.distinct.sublist hs
  fresh e he := h.fresh e (hs.subset he)
  keys := h.keys.sublist hs
  taken e he := h.taken e (hs.subset he)
  weight e he := h.weight e (hs.subset he)

theorem addEntry (hash : K → UInt64) (habsent : t.get e.key = none) (hkey : P e.key)
    (hid : e.id = nextId) (hw : 1 ≤ e.weight ∧ e.weight ≤ maxEntryWeight) :
    TableBare P (Cache.addEntry hash t e) (nextId + 1) := by
  -- a property of the old entries and of the new one
  have both {Q : Entry K V → Prop} (hold : ∀ a ∈ t.storage, Q a) (hnew : Q e) :
      ∀ a ∈ (Cache.addEntry hash t e).storage, Q a := by
    intro a ha
    rcases List.mem_append.1 ha with ha | ha
    · exact hold a ha
    · exact List.mem_singleton.1 ha ▸ hnew
  refine ⟨?_, both (fun a ha ↦ (h.fresh a ha).trans (Nat.lt_succ_self _)) (hid ▸ Nat.lt_succ_self _), ?_,
    both h.taken hkey, both h.weight hw⟩
  · refine (h.distinct.cons fun b hb ↦ ?_).perm (List.perm_append_singleton ..).symm
    exact hid ▸ (h.fresh b hb).ne
  · refine List.pairwise_append.2 ⟨h.keys, List.pairwise_singleton .., fun a ha b hb ↦ ?_⟩
    rw [List.mem_singleton.1 hb]
    simpa using List.find?_eq_none.1 habsent a ha

theorem put (hmem : e ∈ t.storage) (hid : e'.id = e.id) (hkey : e'.key = e.key)
    (hw : 1 ≤ e'.weight ∧ e'.weight ≤ maxEntryWeight) (ht : t'.storage = (t.put e').storage) :
    TableBare P t' nextId := by
  have both {Q : Entry K V → Prop} (hold : ∀ a ∈ t.storage, Q a) (hnew : Q e') :
      ∀ a ∈ t'.storage, Q a := by
    intro a ha
    rw [ht] at ha
    rcases NodeList.mem_replace ha with rfl | ⟨ha, -⟩
    · exact hnew
    · exact hold a ha
  have hkeys : t'.storage.map Entry.key = t.storage.map Entry.key := by
    rw [ht]
    exact h.distinct.map_replace hmem hid.symm hkey
  refine ⟨?_, both h.fresh (hid ▸ h.fresh e hmem), ?_, both h.taken (hkey ▸ h.taken e hmem),
    both h.weight hw⟩
  · have hids : t'.storage.map Entry.id = t.storage.map Entry.id := by
      rw [ht]
      exact h.distinct.map_replace hmem hid.symm hid
    show (t'.storage.map Entry.id).Nodup
    rw [hids]
    exact h.distinct
  · refine (List.pairwise_map (f := Entry.key) (R := fun a b ↦ (a == b) = false)).1 ?_
    rw [hkeys]
    exact List.pairwise_map.2 h.keys

/-- Two stored entries under equal keys are one. -/
theorem eq_of_key [PartialEquivBEq K] (he : e ∈ t.storage) (he' : e' ∈ t.storage)
    (hk : e.key == e'.key) : e = e' := by
  by_contra hne
  have : Std.Symm fun a b : Entry K V ↦ (a.key == b.key) = false :=
    ⟨fun a b hab ↦ by rw [BEq.comm, hab]⟩
  exact Bool.noConfusion ((h.keys.forall he he' hne).symm.trans hk)

end TableBare

/-- A table whose structures agree, under keys that equal themselves, with identities below
`nextId`. -/
structure TableOk (t : Table K V) (nextId : ℕ) : Prop extends
    TableBare (fun k ↦ k == k) t nextId where
  tracked : t.policy.tracked.Perm (t.storage.map Entry.ref)
  policy : t.policy.WellFormed
  ttl : t.ttl.WellFormed
  ttlNodup : t.ttl.ids.Nodup
  ttlMem : ∀ id ∈ t.ttl.ids, id ∈ t.storage.map Entry.id

variable {p : Policy K}

namespace TableOk

variable {t : Table K V} {nextId : ℕ} {e e' : Entry K V}

theorem empty {b : Ttl} (hp : p.WellFormed) (hp' : p.tracked = []) (hb : b.WellFormed)
    (hb' : b.ids = []) : TableOk (⟨[], p, b⟩ : Table K V) nextId where
  toTableBare := ⟨List.nodup_nil, nofun, .nil, nofun, nofun⟩
  tracked := by simp [hp']
  policy := hp
  ttl := hb
  ttlNodup := by simp [hb']
  ttlMem := by simp [hb']

variable (ht : TableOk t nextId)
include ht

theorem mono {m : ℕ} (h : nextId ≤ m) : TableOk t m :=
  { ht with toTableBare := ht.toTableBare.mono h }

theorem mem_tracked {r : Ref K} : r ∈ t.policy.tracked ↔ ∃ e ∈ t.storage, e.ref = r := by
  rw [ht.tracked.mem_iff, List.mem_map]

theorem tracked_ne : ∀ r ∈ t.policy.tracked, r.id ≠ nextId := by
  intro r hr
  obtain ⟨e, he, rfl⟩ := ht.mem_tracked.1 hr
  exact (ht.fresh e he).ne

theorem ttl_ne : ∀ id ∈ t.ttl.ids, id ≠ nextId := by
  intro id hid
  obtain ⟨e, he, rfl⟩ := List.mem_map.1 (ht.ttlMem id hid)
  exact (ht.fresh e he).ne

/-- An insert under an absent key. -/
theorem addEntry (hash : K → UInt64) (hid : e.id = nextId) (habsent : t.get e.key = none)
    (hkey : e.key == e.key) (h₁ : 1 ≤ e.weight) (h₂ : e.weight ≤ maxEntryWeight) :
    TableOk (Cache.addEntry hash t e) (nextId + 1) where
  toTableBare := ht.toTableBare.addEntry hash habsent hkey hid ⟨h₁, h₂⟩
  tracked := by
    refine (Policy.tracked_onInsert hash e.ref t.policy).trans ?_
    simp only [Cache.addEntry, List.map_append, List.map_cons, List.map_nil]
    exact (ht.tracked.cons _).trans (List.perm_append_singleton ..).symm
  policy := ht.policy.onInsert hash (by simpa [hid] using ht.tracked_ne)
  ttl := ht.ttl.add e.id e.expireAt
  ttlNodup := by
    by_cases h : e.expireAt = 0
    · simpa [Cache.addEntry, h] using ht.ttlNodup
    · refine (Ttl.ids_add ht.ttl h).nodup_iff.2 (List.nodup_cons.2 ⟨fun hmem ↦ ?_, ht.ttlNodup⟩)
      exact ht.ttl_ne _ hmem hid
  ttlMem := by
    intro id hmem
    simp only [Cache.addEntry, List.map_append, List.mem_append]
    by_cases h : e.expireAt = 0
    · refine .inl (ht.ttlMem id ?_)
      simpa [Cache.addEntry, h] using hmem
    · obtain rfl | hmem := List.mem_cons.1 ((Ttl.ids_add ht.ttl h).mem_iff.1 hmem)
      · exact .inr (by simp)
      · exact .inl (ht.ttlMem id hmem)

/-- A rewrite that keeps identity and key. -/
theorem rewriteTable (hash : K → UInt64) (hmem : e ∈ t.storage) (hid : e'.id = e.id)
    (hkey : e'.key = e.key) (h₁ : 1 ≤ e'.weight) (h₂ : e'.weight ≤ maxEntryWeight)
    (fix access : Bool) : TableOk (rewriteTable hash t e' fix access) nextId := by
  have hids : (NodeList.replace Entry.id e' t.storage).map Entry.id = t.storage.map Entry.id :=
    ht.distinct.map_replace hmem hid.symm hid
  exact {
    toTableBare := ht.toTableBare.put hmem hid hkey ⟨h₁, h₂⟩ rfl
    tracked := by
      have href : (NodeList.replace Entry.id e' t.storage).map Entry.ref =
          t.storage.map Entry.ref :=
        ht.distinct.map_replace hmem hid.symm (by rw [Entry.ref, Entry.ref, hid, hkey])
      simp only [Memcache.rewriteTable, Table.put, href]
      split_ifs
      · exact (ht.policy.tracked_onAccess hash e'.id).trans ht.tracked
      · exact ht.tracked
    policy := by
      simp only [Memcache.rewriteTable]
      split_ifs
      · exact ht.policy.onAccess hash e'.id
      · exact ht.policy
    ttl := by
      simp only [Memcache.rewriteTable]
      split_ifs
      · exact ht.ttl.fix e'.id e'.expireAt
      · exact ht.ttl
    ttlNodup := by
      simp only [Memcache.rewriteTable]
      split_ifs
      · obtain h | h := Ttl.ids_fix ht.ttl e'.id e'.expireAt
        · exact h.nodup_iff.2 (ht.ttlNodup.filter _)
        · exact h.nodup_iff.2 (List.nodup_cons.2 ⟨by simp, ht.ttlNodup.filter _⟩)
      · exact ht.ttlNodup
    ttlMem := by
      simp only [Memcache.rewriteTable, Table.put, hids]
      have hold : ∀ id ∈ t.ttl.ids.filter (· ≠ e'.id), id ∈ t.storage.map Entry.id :=
        fun id h ↦ ht.ttlMem id (List.mem_of_mem_filter h)
      split_ifs
      · obtain h | h := Ttl.ids_fix ht.ttl e'.id e'.expireAt
        · exact fun id hm ↦ hold id (h.mem_iff.1 hm)
        · intro id hm
          obtain rfl | hm := List.mem_cons.1 (h.mem_iff.1 hm)
          · exact hid ▸ List.mem_map_of_mem hmem
          · exact hold id hm
      · exact ht.ttlMem }

section PartialEquiv

variable [PartialEquivBEq K]

/-- Storage is emptied of a key by taking out its entry. -/
theorem filter_key (he : e ∈ t.storage) :
    (t.storage.filter fun e' ↦ !(e'.key == e.key)) = NodeList.unlink Entry.id e.id t.storage := by
  refine List.filter_congr fun e' he' ↦ ?_
  by_cases h : e'.key == e.key
  · simp [ht.eq_of_key he' he h, ht.taken e he]
  · have hne : e'.id ≠ e.id := fun hid ↦ h (ht.distinct.eq_of_ident he' he hid ▸ ht.taken e he)
    simp [h, hne]

theorem get_eq (he : e ∈ t.storage) {key : K} (h : e.key == key) : t.get key = some e := by
  cases hg : t.get key with
  | none => exact absurd h (by simpa using List.find?_eq_none.1 hg e he)
  | some e' =>
    rw [ht.eq_of_key (Table.mem_of_get hg) he
      (PartialEquivBEq.trans (Table.key_of_get hg) (BEq.symm h))]

/-- An entry leaves, after the policy chose it or on its own. -/
theorem dropEntry (he : e ∈ t.storage) (hp : p.WellFormed)
    (hpick : (NodeList.unlink Ref.id e.id p.tracked).Perm (NodeList.unlink Ref.id e.id t.policy.tracked)) :
    TableOk (Cache.dropEntry { t with policy := p } e) nextId := by
  have hst : (Cache.dropEntry { t with policy := p } e).storage =
      NodeList.unlink Entry.id e.id t.storage := ht.filter_key he
  have hsub : (Cache.dropEntry { t with policy := p } e).storage.Sublist t.storage :=
    List.filter_sublist
  exact {
    toTableBare := ht.toTableBare.sublist hsub
    tracked := by
      have href : (NodeList.unlink Entry.id e.id t.storage).map Entry.ref =
          NodeList.unlink Ref.id e.id (t.storage.map Entry.ref) :=
        NodeList.map_unlink fun _ ↦ rfl
      rw [hst, href]
      exact (List.Perm.of_eq (Policy.tracked_onRemove e.id p)).trans
        (hpick.trans (NodeList.unlink_perm ht.tracked))
    policy := hp.onRemove e.id
    ttl := ht.ttl.remove e.id
    ttlNodup := by
      rw [show (Cache.dropEntry { t with policy := p } e).ttl = t.ttl.remove e.id from rfl,
        Ttl.ids_remove]
      exact ht.ttlNodup.filter _
    ttlMem := by
      intro id hm
      have hm' : id ∈ t.ttl.ids.filter (· ≠ e.id) := Ttl.ids_remove t.ttl e.id ▸ hm
      obtain ⟨hm', hne⟩ := List.mem_filter.1 hm'
      obtain ⟨b, hb, rfl⟩ := List.mem_map.1 (ht.ttlMem id hm')
      rw [hst]
      exact List.mem_map_of_mem (NodeList.mem_unlink.2 ⟨hb, by simpa using hne⟩) }

end PartialEquiv

theorem tombstoned [Inhabited V] (hash : K → UInt64) (hmem : e ∈ t.storage) (now expireAt : ℤ) :
    TableOk (Memcache.rewriteTable hash t (Cache.tombstoned e now expireAt) true true) nextId := by
  refine ht.rewriteTable hash hmem ?_ ?_ ?_ ?_ true true
  exacts [rfl, rfl, le_rfl, one_le_maxEntryWeight]

theorem withPolicy (hp : p.WellFormed) (h : p.tracked.Perm t.policy.tracked) :
    TableOk { t with policy := p } nextId :=
  { ht with tracked := h.trans ht.tracked, policy := hp }

/-- A sweep of the expiry backend forgets entries, and tracks no new one. -/
theorem sweep (now : ℤ) : TableOk { t with ttl := (t.ttl.sweep now).2 } nextId := by
  have hids := Ttl.ids_sweep ht.ttl now
  exact { ht with
    ttl := ht.ttl.sweep now
    ttlNodup := (List.nodup_append.1 (hids.nodup_iff.2 ht.ttlNodup)).2.1
    ttlMem := fun id hid ↦ ht.ttlMem id (hids.mem_iff.1 (List.mem_append_right _ hid)) }

end TableOk

/-! ### Sums over the shards -/

namespace Core

/-- A quantity of each shard, summed. -/
def total (f : CoreShard K V → ℤ) (c : Core K V n) : ℤ := ∑ i, f (c.shards i)

omit [BEq K] in
theorem total_set (f : CoreShard K V → ℤ) (c : Core K V n) (i : Fin n) (s : CoreShard K V) :
    (c.set i s).total f = c.total f + (f s - f (c.shards i)) := by
  have h (g : Fin n → CoreShard K V) :
      ∑ j, f (g j) = f (g i) + ∑ j ∈ Finset.univ.erase i, f (g j) :=
    (Finset.add_sum_erase _ _ (Finset.mem_univ i)).symm
  have hrest : ∑ j ∈ Finset.univ.erase i, f ((c.set i s).shards j) =
      ∑ j ∈ Finset.univ.erase i, f (c.shards j) :=
    Finset.sum_congr rfl fun j hj ↦ by rw [set_shards_of_ne _ _ (Finset.ne_of_mem_erase hj)]
  rw [total, total, h, h c.shards, hrest, set_shards_self]
  omega

variable {i : Fin n} {s : CoreShard K V}

omit [BEq K] in
/-- A property of every shard, one of which changes. -/
theorem forall_set {P : CoreShard K V → Prop} {c : Core K V n} (hc : ∀ j, P (c.shards j)) (hs : P s)
    (j : Fin n) : P ((c.set i s).shards j) :=
  set_cases j hs fun j _ ↦ hc j

/-- The cache's tables agree, and the counter of entries is the number stored. -/
structure Inv (c : Core K V n) : Prop where
  table : ∀ i, TableOk (c.shards i).toTable c.nextId
  entries : c.entries = c.total fun s ↦ s.storage.length

namespace Inv

variable {c : Core K V n} {cfg : Config K V} {T : Licence K V} [T.Proper]

/-- One shard changes and the counter follows. -/
theorem set (hc : c.Inv) (hs : TableOk s.toTable c.nextId) (entries bytes : ℤ)
    (he : entries = s.storage.length - (c.shards i).storage.length) :
    ((c.set i s).add entries bytes).Inv where
  table := forall_set (P := fun s ↦ TableOk s.toTable c.nextId) hc.table hs
  entries := by
    have h := total_set (fun s ↦ (s.storage.length : ℤ)) c i s
    rw [show ((c.set i s).add entries bytes).entries = c.entries + entries from rfl, hc.entries, he]
    exact h.symm

/-- One shard changes outside its storage. -/
theorem set_same (hc : c.Inv) (hs : TableOk s.toTable c.nextId)
    (h : s.storage.length = (c.shards i).storage.length) : (c.set i s).Inv := by
  have := hc.set hs 0 0 (i := i) (by rw [h]; omega)
  rwa [add_zero_zero] at this

theorem bump (hc : c.Inv) : c.bump.Inv :=
  ⟨fun i ↦ (hc.table i).mono (Nat.le_succ _), hc.entries⟩

/-- An entry leaves a shard and the counters, with the policy as the choice of it left it. -/
theorem dropShard [PartialEquivBEq K] (hc : c.Inv) {e : Entry K V}
    (he : e ∈ (c.shards i).storage) (hp : p.WellFormed)
    (hpick : (NodeList.unlink Ref.id e.id p.tracked).Perm
      (NodeList.unlink Ref.id e.id (c.shards i).policy.tracked)) (lockFree : Bool) (bytes : ℤ) :
    ((c.set i (dropShard lockFree { c.shards i with policy := p } e)).add (-1) bytes).Inv := by
  refine hc.set ((hc.table i).dropEntry he hp hpick) _ _ ?_
  have hlen := (hc.table i).distinct.length_unlink he
  rw [← (hc.table i).filter_key he] at hlen
  simp only [Memcache.dropShard, Cache.dropEntry]
  omega

/-- A policy's victim is a stored entry. -/
theorem byId_of_yields (hc : c.Inv) {r : Ref K} (h : (c.shards i).policy.Yields p (some r)) :
    ∃ e ∈ (c.shards i).storage, e.ref = r ∧ (c.shards i).byId r.id = some e := by
  have hr := (h.picks (hc.table i).policy).mem
  obtain ⟨e, he, rfl⟩ := (hc.table i).mem_tracked.1 hr
  exact ⟨e, he, rfl, (hc.table i).distinct.lookup_eq he⟩

/-- **Every instruction keeps the tables and the counter of entries.** -/
theorem step [PartialEquivBEq K] {d : Core K V n} (h : CoreStep cfg T c d) (hc : c.Inv) :
    d.Inv := by
  cases h with
  | flights _ i f hf => exact hc.set_same (hc.table i) rfl
  | pending _ i m hm => exact hc.set_same (hc.table i) rfl
  | read _ i s hs =>
    cases hs with
    | count => exact hc.set_same (hc.table i) rfl
    | rebuild => exact hc.set_same (hc.table i) rfl
  | insert _ i e habsent hkey hid h₁ h₂ =>
    refine hc.bump.set ((hc.table i).addEntry cfg.hash hid habsent (Licence.Proper.beq_self hkey) h₁ h₂) _ _ ?_
    simp [Cache.addEntry]
  | rewrite _ i e e' fix access hmem hr hfix =>
    obtain ⟨h₁, h₂⟩ : 1 ≤ e'.weight ∧ e'.weight ≤ maxEntryWeight := by
      obtain h | h := hr.weight_eq
      · rw [h]
        exact (hc.table i).weight e hmem
      · exact h
    refine hc.set ((hc.table i).rewriteTable cfg.hash hmem hr.id_eq hr.key_eq h₁ h₂ fix access)
      _ _ ?_
    simp [Memcache.rewriteTable, Table.put]
  | tombstone _ i e now expireAt hmem hT =>
    refine hc.set_same ((hc.table i).tombstoned cfg.hash hmem now expireAt) ?_
    simp [Memcache.rewriteTable, Table.put]
  | drop _ i e hmem => exact hc.dropShard hmem (hc.table i).policy (.refl _) ..
  | policy _ i p hp =>
    have ht := hc.table i
    exact hc.set_same (ht.withPolicy (hp.wellFormed ht.policy) (hp.picks ht.policy)) rfl
  | stray _ i r p hp hnone =>
    -- the policy tracks stored entries only, so there is no stray victim
    obtain ⟨e, -, -, hsome⟩ := hc.byId_of_yields hp
    rw [hnone] at hsome
    cases hsome
  | evict _ i r p e hp hsome =>
    have hwf := hp.wellFormed (hc.table i).policy
    have hpick := hp.picks (hc.table i).policy
    have hid : e.id = r.id := Table.id_of_byId hsome
    exact hc.dropShard (Table.mem_of_byId hsome) hwf (hid ▸ hpick.2.2) ..
  | ttl _ i now _ => exact hc.set_same ((hc.table i).sweep now) rfl
  | clear _ i =>
    refine hc.set (.empty (Policy.wellFormed_reset _) (Policy.tracked_reset _)
      (hc.table i).ttl.reset (Ttl.ids_reset _)) _ _ ?_
    simp
  | bounds _ maxEntries maxBytes => exact ⟨hc.table, hc.entries⟩
  | budget _ i per =>
    exact hc.set_same ((hc.table i).withPolicy ((hc.table i).policy.setBudget per)
      (.of_eq (Policy.tracked_setBudget ..))) rfl

end Inv

/-- No write is queued. -/
def Unqueued (c : Core K V n) : Prop := ∀ i, (c.shards i).pending.values = []

/-- Only a cache with asynchronous writes queues anything. -/
theorem Unqueued.step {cfg : Config K V} {T : Licence K V} {c d : Core K V n}
    (h : CoreStep cfg T c d) (hsync : cfg.asyncWrites = false) (hc : c.Unqueued) : d.Unqueued := by
  have one {i : Fin n} {s : CoreShard K V} (hs : s.pending.values = []) : (c.set i s).Unqueued :=
    forall_set (P := fun s ↦ s.pending.values = []) hc hs
  cases h with
  | pending _ i m hm =>
    refine one (List.eq_nil_iff_forall_not_mem.2 fun op hop ↦ ?_)
    obtain hold | ⟨hasync, -⟩ := hm op hop
    · rw [hc i] at hold
      cases hold
    · rw [hsync] at hasync
      cases hasync
  | read _ i s hs => cases hs <;> exact one (hc i)
  | bounds _ maxEntries maxBytes hT => exact hc
  | _ => exact one (hc _)

theorem Unqueued.get {c : Core K V n} (hc : c.Unqueued) (i : Fin n) (key : K) :
    (c.shards i).pending.get key = none := by
  by_contra hne
  obtain ⟨op, hop⟩ := Option.ne_none_iff_exists'.1 hne
  have hmem := KeyMap.mem_values_of_get hop
  rw [hc i] at hmem
  cases hmem

end Core

namespace Cache

theorem inv_new (cfg : Config K V) (n : ℕ) : (new cfg n).core.Inv where
  table _ := .empty (Policy.wellFormed_new ..) (Policy.tracked_new ..)
    (wellFormed_newTTLBackend cfg) (ids_newTTLBackend cfg)
  entries := by simp [core, new, Core.total, Shard.core, newShard]

end Cache

end Memcache
