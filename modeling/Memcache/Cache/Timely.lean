import Memcache.Cache.LockFree
import Memcache.Expiry.Due

/-!
# The expiry backend follows the entries

Every change of a stored entry's expiry is told to the backend under the same lock. So in every run
the instant the backend tracks an entry under is the entry's own expiry (`TableTimely`), and with
what a backend guarantees, **a sweep removes no entry before it has expired**.
-/

namespace Memcache

variable {K V : Type*} {n : ℕ}

/-- A backend that hands out nothing early and tracks stored entries under their own expiry. -/
structure TableTimely (t : Table K V) : Prop where
  timely : t.ttl.Timely
  record : ∀ e ∈ t.storage, ∀ r ∈ t.ttl.records, r.1 = e.id → r.2 = e.expireAt

namespace TableTimely

variable {t : Table K V} {nextId : ℕ} {e e' : Entry K V}

/-- Entries and records may leave. -/
theorem of_subset (h : TableTimely t) {t' : Table K V} (htimely : t'.ttl.Timely)
    (hs : ∀ e ∈ t'.storage, e ∈ t.storage) (hr : ∀ r ∈ t'.ttl.records, r ∈ t.ttl.records) :
    TableTimely t' :=
  ⟨htimely, fun e he r hmem ↦ h.record e (hs e he) r (hr r hmem)⟩

theorem addEntry [BEq K] (h : TableTimely t) (ht : TableOk t nextId) (hash : K → UInt64) (hid : e.id = nextId) :
    TableTimely (Cache.addEntry hash t e) where
  timely := h.timely.add e.id e.expireAt
  record := by
    intro a ha r hr hra
    have hold (hr : r ∈ t.ttl.records) : r.1 ∈ t.ttl.ids := by
      rw [Ttl.ids_eq]
      exact List.mem_map_of_mem hr
    rcases List.mem_append.1 ha with ha | ha
    · rcases Ttl.mem_records_add hr with ⟨-, rfl⟩ | hr
      · exact absurd (hid.symm.trans hra) (ht.fresh a ha).ne'
      · exact h.record a ha r hr hra
    · obtain rfl := List.mem_singleton.1 ha
      rcases Ttl.mem_records_add hr with ⟨-, rfl⟩ | hr
      · rfl
      · exact absurd (hra.trans hid) (ht.ttl_ne r.1 (hold hr))

theorem rewriteTable (h : TableTimely t) (hash : K → UInt64) (hmem : e ∈ t.storage)
    (hid : e'.id = e.id) (fix access : Bool) (hfix : fix = false → e'.expireAt = e.expireAt) :
    TableTimely (rewriteTable hash t e' fix access) := by
  rcases Bool.eq_false_or_eq_true fix with rfl | rfl
  · refine ⟨h.timely.fix e'.id e'.expireAt, fun a ha r hr hra ↦ ?_⟩
    rcases NodeList.mem_replace ha with rfl | ⟨ha, hne⟩
    · rcases Ttl.mem_records_fix hr with ⟨-, rfl⟩ | ⟨-, hr⟩
      · rfl
      · exact absurd hra hr
    · rcases Ttl.mem_records_fix hr with ⟨-, rfl⟩ | ⟨hr, -⟩
      · exact absurd hra.symm hne
      · exact h.record a ha r hr hra
  · refine ⟨h.timely, fun a ha r hr hra ↦ ?_⟩
    rcases NodeList.mem_replace ha with rfl | ⟨ha, -⟩
    · exact (h.record e hmem r hr (hra.trans hid)).trans (hfix rfl).symm
    · exact h.record a ha r hr hra

theorem dropEntry [BEq K] (h : TableTimely t) (e : Entry K V) : TableTimely (Cache.dropEntry t e) :=
  h.of_subset (h.timely.remove e.id) (fun _ he ↦ (List.mem_filter.1 he).1)
    fun _ hr ↦ (Ttl.mem_records_remove hr).1

theorem sweep (h : TableTimely t) (ht : t.ttl.WellFormed) (now : ℤ) :
    TableTimely { t with ttl := (t.ttl.sweep now).2 } := by
  obtain ⟨due, -, hperm, -⟩ := Ttl.exists_due ht h.timely now
  exact h.of_subset (h.timely.sweep now) (fun _ he ↦ he)
    fun r hr ↦ hperm.mem_iff.1 (List.mem_append_right _ hr)

/-- **What a sweep reports has expired.** -/
theorem expired_of_mem_sweep (h : TableTimely t) (ht : t.ttl.WellFormed) {now : ℤ}
    (he : e ∈ t.storage) (hid : e.id ∈ (t.ttl.sweep now).1) : e.expireAt ≤ now := by
  obtain ⟨due, hdue, hperm, hle⟩ := Ttl.exists_due ht h.timely now
  rw [hdue] at hid
  obtain ⟨r, hr, hrid⟩ := List.mem_map.1 hid
  rw [← h.record e he r (hperm.mem_iff.1 (List.mem_append_left _ hr)) hrid]
  exact hle r hr

end TableTimely

namespace Core

variable [BEq K]

/-- Every shard's backend follows its entries. -/
def Timely (c : Core K V n) : Prop := ∀ i, TableTimely (c.shards i).toTable

/-- **Every instruction tells the backend.** -/
theorem Timely.step {cfg : Config K V} {T : Licence K V} [T.Proper] {c d : Core K V n} (h : CoreStep cfg T c d)
    (hinv : c.Inv) (hc : c.Timely) : d.Timely := by
  have one {i : Fin n} {s : CoreShard K V} (hs : TableTimely s.toTable) : (c.set i s).Timely :=
    forall_set (P := fun s ↦ TableTimely s.toTable) hc hs
  have same (i : Fin n) {t : Table K V} (hs : t.storage = (c.shards i).storage)
      (ht : t.ttl = (c.shards i).ttl) : TableTimely t :=
    (hc i).of_subset (ht ▸ (hc i).timely) (fun _ he ↦ hs ▸ he) fun _ hr ↦ ht ▸ hr
  cases h with
  | read _ i s hs => cases hs <;> exact one (hc i)
  | insert _ i e habsent hkey hid h₁ h₂ => exact one ((hc i).addEntry (hinv.table i) cfg.hash hid)
  | rewrite _ i e e' fix access hmem hr hfix =>
    exact one ((hc i).rewriteTable cfg.hash hmem hr.id_eq fix access hfix)
  | tombstone _ i e now expireAt hmem hT =>
    have hid : (Cache.tombstoned e now expireAt).id = e.id := rfl
    exact one ((hc i).rewriteTable cfg.hash hmem hid true true nofun)
  | drop _ i e hmem => exact one ((hc i).dropEntry e)
  | evict _ i r p e hp hsome =>
    exact one (TableTimely.dropEntry (t := { (c.shards i).toTable with policy := p }) (same i rfl rfl) e)
  | ttl _ i now _ => exact one ((hc i).sweep (hinv.table i).ttl now)
  | clear _ i => exact one ⟨(hc i).timely.reset, fun _ he ↦ nomatch he⟩
  | bounds _ maxEntries maxBytes hT => exact hc
  | _ => exact one (same _ rfl rfl)

end Core

namespace Cache

theorem timely_new (cfg : Config K V) : (new cfg n).core.Timely := by
  refine fun _ ↦ ⟨?_, fun _ he ↦ nomatch he⟩
  show (newTTLBackend cfg).Timely
  unfold newTTLBackend
  split
  · exact Wheel.timely_new ..
  · trivial

end Cache

section

variable [BEq K] [EquivBEq K] [NeZero n] [Inhabited V] {cfg : Config K V} {c : Cache K V n}

/-- **In every reached cache the backends follow the entries.** -/
theorem Reached.inv_timely (h : Reached cfg c) : c.core.Inv ∧ c.core.Timely :=
  h.invariant (I := fun c ↦ c.Inv ∧ c.Timely) (fun hstep hc ↦ ⟨hc.1.step hstep, .step hstep hc.1 hc.2⟩)
    ⟨Cache.inv_new .., Cache.timely_new _⟩

theorem Cache.timely_of_reachable (h : Reachable cfg c) : c.core.Timely :=
  h.reached.inv_timely.2

end

end Memcache
