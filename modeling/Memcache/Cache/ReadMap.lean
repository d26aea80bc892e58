import Memcache.Cache.Reached

/-!
# The published snapshot

What the lock-free read path rests on, whatever the keys are: the snapshot a shard has published is
storage as it was, less what has been marked invalidated since. A key that does not equal itself is
never found, nor is it ever deleted from storage, so the snapshot is described by the pairs it holds
and not by its lookups: **a snapshot that is not amended holds every stored entry under its key, and
an entry it holds that is not marked is the one stored** (`readMap_of_reached`).
-/

namespace Memcache

variable {K V : Type*} {n : ℕ} [BEq K]

/-! ### One shard -/

/-- The map a rebuild makes of storage. -/
def snapshotOf (l : List (Entry K V)) (m : KeyMap K ℕ) : KeyMap K ℕ :=
  l.foldl (fun m e ↦ m.insert e.key e.id) m

/-- A map of the snapshot names, under each key once, what is stored or dead. -/
structure ReadMap.Names (m : KeyMap K ℕ) (storage : List (Entry K V)) (dead : List ℕ) : Prop where
  unique : m.Unique
  named : ∀ p ∈ m.pairs, p.2 ∈ dead ∨ ∃ e ∈ storage, e.id = p.2 ∧ e.key = p.1

/-- A map of the snapshot holds all that is stored. -/
def ReadMap.Holds (m : KeyMap K ℕ) (storage : List (Entry K V)) : Prop :=
  ∀ e ∈ storage, (e.key, e.id) ∈ m.pairs

/-- The snapshot of a shard that is read without its lock. -/
structure Publishes (lockFree : Bool) (s : CoreShard K V) : Prop where
  enabled : s.read.isSome = lockFree
  names : ∀ rm, s.read = some rm → ReadMap.Names rm.m s.storage s.dead
  holds : ∀ rm, s.read = some rm → rm.amended = false → ReadMap.Holds rm.m s.storage

namespace ReadMap

variable {m : KeyMap K ℕ} {l : List (Entry K V)}

theorem pairs_snapshotOf (hfree : ∀ p ∈ m.pairs, ∀ e ∈ l, (p.1 == e.key) = false)
    (hk : l.Pairwise fun a b ↦ (a.key == b.key) = false) (p : K × ℕ) :
    p ∈ (snapshotOf l m).pairs ↔ p ∈ m.pairs ∨ ∃ e ∈ l, (e.key, e.id) = p := by
  induction l generalizing m with
  | nil => simp [snapshotOf]
  | cons a l ih =>
    obtain ⟨hal, hl⟩ := List.pairwise_cons.1 hk
    -- no pair is in the way of the next entry's, so the insertion only adds
    have hkeep : ∀ q, q ∈ (m.insert a.key a.id).pairs ↔ q = (a.key, a.id) ∨ q ∈ m.pairs := by
      intro q
      refine ⟨fun hq ↦ (KeyMap.mem_of_mem_insert hq).imp_right And.left, fun hq ↦ ?_⟩
      rcases hq with rfl | hq
      · exact List.mem_cons_self
      · exact List.mem_cons_of_mem _ (KeyMap.mem_erase hq (hfree q hq a List.mem_cons_self))
    show p ∈ (snapshotOf l (m.insert a.key a.id)).pairs ↔ _
    rw [ih _ hl, hkeep]
    · constructor
      · rintro ((rfl | hp) | ⟨e, he, rfl⟩)
        exacts [.inr ⟨a, List.mem_cons_self, rfl⟩, .inl hp, .inr ⟨e, List.mem_cons_of_mem _ he, rfl⟩]
      · rintro (hp | ⟨e, he, rfl⟩)
        · exact .inl (.inr hp)
        · rcases List.mem_cons.1 he with rfl | he
          exacts [.inl (.inl rfl), .inr ⟨e, he, rfl⟩]
    · intro q hq e he
      rcases (hkeep q).1 hq with rfl | hq
      · exact hal e he
      · exact hfree q hq e (List.mem_cons_of_mem _ he)

theorem unique_snapshotOf [PartialEquivBEq K] (hm : m.Unique) : (snapshotOf l m).Unique := by
  induction l generalizing m with
  | nil => exact hm
  | cons e l ih => exact ih (hm.insert e.key e.id)

end ReadMap

variable {cfg : Config K V}

namespace Publishes

variable {lockFree : Bool} {s s' : CoreShard K V}

section

variable (hs : Publishes lockFree s)
include hs

/-- The snapshot stays; what is stored under a key stays or dies, and nothing new is stored. -/
theorem of_read (hr : s'.read = s.read) (hd : ∀ id ∈ s.dead, id ∈ s'.dead)
    (hst : s.read.isSome → ∀ e ∈ s.storage, e.id ∈ s'.dead ∨ ∃ e' ∈ s'.storage, e'.id = e.id ∧ e'.key = e.key)
    (hst' : ∀ e' ∈ s'.storage, ∃ e ∈ s.storage, e'.id = e.id ∧ e'.key = e.key) :
    Publishes lockFree s' where
  enabled := hr ▸ hs.enabled
  names rm hrm := by
    rw [hr] at hrm
    refine ⟨(hs.names rm hrm).unique, fun p hp ↦ ?_⟩
    rcases (hs.names rm hrm).named p hp with hdead | ⟨e, he, hid, hkey⟩
    · exact .inl (hd _ hdead)
    · rcases hst (by rw [hrm]; rfl) e he with hdead | ⟨e', he', hid', hkey'⟩
      · exact .inl (hid ▸ hdead)
      · exact .inr ⟨e', he', hid'.trans hid, hkey'.trans hkey⟩
  holds rm hrm ha e' he' := by
    obtain ⟨e, he, hid, hkey⟩ := hst' e' he'
    rw [hid, hkey]
    exact hs.holds rm (hr ▸ hrm) ha e he

/-- Nothing the snapshot rests on changes. -/
theorem congr (hr : s'.read = s.read) (hd : s'.dead = s.dead) (hst : s'.storage = s.storage) :
    Publishes lockFree s' :=
  hs.of_read hr (fun _ hid ↦ hd ▸ hid) (fun _ e he ↦ .inr ⟨e, hst ▸ he, rfl, rfl⟩)
    fun e he ↦ ⟨e, hst ▸ he, rfl, rfl⟩

theorem insert (hash : K → UInt64) (e : Entry K V) :
    Publishes lockFree { s with
      toTable := Cache.addEntry hash s.toTable e
      read := s.read.map fun rm ↦ { rm with amended := true } } where
  enabled := by
    show (s.read.map _).isSome = lockFree
    rw [Option.isSome_map]
    exact hs.enabled
  names rm hrm := by
    obtain ⟨rm, hold, rfl⟩ := Option.map_eq_some_iff.1 hrm
    refine ⟨(hs.names rm hold).unique, fun p hp ↦ ((hs.names rm hold).named p hp).imp_right ?_⟩
    rintro ⟨b, hb, hb'⟩
    exact ⟨b, List.mem_append_left _ hb, hb'⟩
  holds rm hrm ha := by
    obtain ⟨rm, -, rfl⟩ := Option.map_eq_some_iff.1 hrm
    cases ha

theorem rewriteTable {e e' : Entry K V} (hmem : e ∈ s.storage) (hid : e'.id = e.id)
    (hkey : e'.key = e.key) (hd : NodeList.Distinct Entry.id s.storage) (hash : K → UInt64)
    (fix access : Bool) :
    Publishes lockFree { s with toTable := Memcache.rewriteTable hash s.toTable e' fix access } := by
  refine hs.of_read rfl (fun _ h ↦ h) (fun _ b hb ↦ .inr ?_) fun b hb ↦ ?_
  · by_cases h : b.id = e'.id
    · obtain rfl := hd.eq_of_ident hb hmem (h.trans hid)
      exact ⟨e', NodeList.mem_replace_self hmem hid.symm, hid, hkey⟩
    · exact ⟨b, NodeList.mem_replace_of_ne hb h, rfl, rfl⟩
  · rcases NodeList.mem_replace hb with rfl | ⟨hb, -⟩
    · exact ⟨e, hmem, hid, hkey⟩
    · exact ⟨b, hb, rfl, rfl⟩

/-- A removed entry is marked, also where storage cannot delete it. -/
theorem dropShard [PartialEquivBEq K] {P : K → Prop} {nextId : ℕ}
    (ht : TableBare P s.toTable nextId) {e : Entry K V} (hmem : e ∈ s.storage) (p : Policy K) :
    Publishes lockFree (Memcache.dropShard lockFree { s with policy := p } e) := by
  refine hs.of_read rfl (fun id hid ↦ ?_) (fun hread b hb ↦ ?_) fun b hb ↦ ?_
  · show id ∈ if lockFree then e.id :: s.dead else s.dead
    split_ifs
    · exact List.mem_cons_of_mem _ hid
    · exact hid
  · have hlock : lockFree = true := hs.enabled ▸ hread
    rcases Bool.eq_false_or_eq_true (b.key == e.key) with hk | hk
    · rw [ht.eq_of_key hb hmem hk]
      refine .inl ?_
      show e.id ∈ if lockFree then e.id :: s.dead else s.dead
      rw [if_pos hlock]
      exact List.mem_cons_self
    · exact .inr ⟨b, List.mem_filter.2 ⟨hb, by simp [hk]⟩, rfl, rfl⟩
  · exact ⟨b, (List.mem_filter.1 hb).1, rfl, rfl⟩

/-- A rebuilt snapshot is storage. -/
theorem rebuild [PartialEquivBEq K] (hkeys : s.storage.Pairwise fun a b ↦ (a.key == b.key) = false)
    (h : s.read.isSome) (misses : ℕ) :
    Publishes lockFree { s with
      read := some ⟨snapshotOf s.storage .empty, false⟩, readMisses := misses } := by
  have hpairs (p : K × ℕ) : p ∈ (snapshotOf s.storage .empty).pairs ↔
      ∃ e ∈ s.storage, (e.key, e.id) = p := by
    have hempty (q : K × ℕ) : q ∉ (KeyMap.empty : KeyMap K ℕ).pairs := List.not_mem_nil
    rw [ReadMap.pairs_snapshotOf (fun q hq ↦ absurd hq (hempty q)) hkeys]
    exact or_iff_right (hempty p)
  refine ⟨hs.enabled ▸ h.symm, fun rm hrm ↦ ?_, fun rm hrm _ e he ↦ ?_⟩
  · obtain rfl := Option.some.inj hrm
    refine ⟨ReadMap.unique_snapshotOf .nil, fun p hp ↦ .inr ?_⟩
    obtain ⟨e, he, rfl⟩ := (hpairs p).1 hp
    exact ⟨e, he, rfl, rfl⟩
  · obtain rfl := Option.some.inj hrm
    exact (hpairs _).2 ⟨e, he, rfl⟩

theorem clear (p : Policy K) (ttl : Ttl) :
    Publishes lockFree { s with
      storage := []
      policy := p
      ttl := ttl
      read := if lockFree then some ⟨.empty, false⟩ else s.read
      readMisses := if lockFree then 0 else s.readMisses
      dead := if lockFree then s.storage.map Entry.id ++ s.dead else s.dead } := by
  rcases Bool.eq_false_or_eq_true lockFree with rfl | rfl
  · refine ⟨rfl, fun rm hrm ↦ ?_, fun _ _ _ e he ↦ (nomatch he)⟩
    obtain rfl := Option.some.inj hrm
    exact ⟨.nil, fun p hp ↦ nomatch hp⟩
  · have hnone : ∀ rm, s.read ≠ some rm := by
      intro rm hrm
      have := hs.enabled
      rw [hrm] at this
      cases this
    exact ⟨hs.enabled, fun rm hrm ↦ absurd hrm (hnone rm), fun rm hrm ↦ absurd hrm (hnone rm)⟩

end

/-- A lock-free hit is the entry stored under the key. -/
theorem get_of_hit [PartialEquivBEq K] {s : Shard K V} (hs : Publishes lockFree s.core)
    {P : K → Prop} {nextId : ℕ} (ht : TableBare P s.toTable nextId) {key : K} {now : ℤ}
    {e : Entry K V} (h : Cache.tryLockFreeGet cfg s key now = some (some e)) :
    s.get key = some e := by
  obtain ⟨rm, id, hrm, hid, hlive, hbyId, -⟩ := Cache.tryLockFreeGet_eq_hit h
  obtain ⟨p, hp, hkey, rfl⟩ := KeyMap.get_eq_some hid
  obtain ⟨a, ha, haid, hakey⟩ := ((hs.names rm hrm).named p hp).resolve_left hlive
  -- the object the snapshot names is the stored one
  obtain rfl : a = e := ht.distinct.eq_of_ident ha (Table.mem_of_byId hbyId)
    (haid.trans (Table.id_of_byId hbyId).symm)
  rcases hget : s.get key with - | b
  · exact absurd (hakey ▸ hkey) (List.find?_eq_none.1 hget a ha)
  · have hba : b.key == a.key :=
      PartialEquivBEq.trans (Table.key_of_get hget) (BEq.symm (hakey ▸ hkey))
    rw [ht.eq_of_key (Table.mem_of_get hget) ha hba]

/-- A lock-free miss is a miss in memory. -/
theorem get_of_miss [PartialEquivBEq K] {s : Shard K V} (hs : Publishes lockFree s.core) {key : K}
    {now : ℤ} (h : Cache.tryLockFreeGet cfg s key now = some none) : s.get key = none := by
  obtain ⟨rm, hrm, hnone, ha⟩ := Cache.tryLockFreeGet_eq_miss h
  rcases hget : s.get key with - | e
  · rfl
  · have hin := hs.holds rm hrm ha e (Table.mem_of_get hget)
    rw [(hs.names rm hrm).unique.get_eq hin (Table.key_of_get hget)] at hnone
    cases hnone

end Publishes

/-! ### Every instruction -/

namespace Core

/-- Every shard's snapshot is storage as it was, less what is marked. -/
def ReadInv (cfg : Config K V) (c : Core K V n) : Prop :=
  ∀ i, Publishes cfg.lockFreeRead (c.shards i)

theorem ReadInv.step [PartialEquivBEq K] {T : Licence K V} {c d : Core K V n}
    (h : CoreStep cfg T c d) (hbare : c.Bare T) (hc : c.ReadInv cfg) : d.ReadInv cfg := by
  have one {i : Fin n} {s : CoreShard K V} (hs : Publishes cfg.lockFreeRead s) :
      (c.set i s).ReadInv cfg :=
    forall_set (P := Publishes cfg.lockFreeRead) hc hs
  cases h with
  | read _ i s hs =>
    cases hs with
    | count => exact one ((hc i).congr rfl rfl rfl)
    | rebuild h => exact one ((hc i).rebuild (hbare i).keys h 0)
  | insert _ i e habsent hkey hid h₁ h₂ => exact one ((hc i).insert cfg.hash e)
  | rewrite _ i e e' fix access hmem hr hfix =>
    exact one ((hc i).rewriteTable hmem hr.id_eq hr.key_eq (hbare i).distinct ..)
  | tombstone _ i e now expireAt hmem hT =>
    refine one ((hc i).rewriteTable hmem ?_ ?_ (hbare i).distinct ..) <;> rfl
  | drop _ i e hmem => exact one ((hc i).dropShard (hbare i) hmem _)
  | evict _ i r p e hp hsome => exact one ((hc i).dropShard (hbare i) (Table.mem_of_byId hsome) p)
  | clear _ i => exact one ((hc i).clear _ _)
  | bounds _ maxEntries maxBytes hT => exact hc
  | _ => exact one ((hc _).congr rfl rfl rfl)

end Core

theorem Cache.readInv_new (cfg : Config K V) : (new cfg n).core.ReadInv cfg := by
  intro i
  have hread : ((new cfg n).core.shards i).read =
      if cfg.lockFreeRead then some ⟨.empty, false⟩ else none := rfl
  refine ⟨?_, fun rm hrm ↦ ⟨?_, ?_⟩, fun _ _ _ e he ↦ (nomatch he)⟩
  · rw [hread]
    split_ifs with h <;> simp [h]
  all_goals
    rw [hread] at hrm
    split_ifs at hrm
    obtain rfl := Option.some.inj hrm
  · exact .nil
  · exact fun p hp ↦ nomatch hp

/-! ### Reached states -/

section Reached

variable [PartialEquivBEq K] [NeZero n] [Inhabited V] {cfg : Config K V} {c : Cache K V n}

theorem Reached.published (h : Reached cfg c) : c.core.ReadInv cfg :=
  (h.invariant (I := fun c ↦ c.Bare (.placed cfg n True) ∧ c.ReadInv cfg)
    (fun hstep hc ↦ ⟨hc.1.step hstep, .step hstep hc.1 hc.2⟩)
    ⟨Cache.bare_new _ _, Cache.readInv_new cfg⟩).2

/-- **Whenever no lock is held, a snapshot that is not amended holds every stored entry under its
key, and an entry it holds that is not marked invalidated is the one stored under that key.** A
lookup finds an entry under a key only if the key equals itself. -/
theorem readMap_of_reached (h : Reached cfg c) (hlock : cfg.lockFreeRead = true) (i : Fin n) :
    ∃ rm, (c.shards i).read = some rm ∧
      (rm.amended = false → ∀ e ∈ (c.shards i).storage,
        (e.key, e.id) ∈ rm.m.pairs ∧ (e.key == e.key → rm.m.get e.key = some e.id)) ∧
      ∀ p ∈ rm.m.pairs, p.2 ∉ (c.shards i).dead →
        ∃ e ∈ (c.shards i).storage, e.id = p.2 ∧ e.key = p.1 ∧
          (p.1 == p.1 → (c.shards i).get p.1 = some e) := by
  have hs : Publishes true (c.core.shards i) := hlock ▸ h.published i
  obtain ⟨rm, hrm⟩ := Option.isSome_iff_exists.1 hs.enabled
  have hnames := hs.names rm hrm
  refine ⟨rm, hrm, fun ha e he ↦ ?_, fun p hp hlive ↦ ?_⟩
  · have hin := hs.holds rm hrm ha e he
    exact ⟨hin, fun hself ↦ hnames.unique.get_eq hin hself⟩
  · obtain ⟨e, he, hid, hkey⟩ := (hnames.named p hp).resolve_left hlive
    refine ⟨e, he, hid, hkey, fun hself ↦ ?_⟩
    rcases hget : (c.shards i).get p.1 with - | a
    · have := List.find?_eq_none.1 hget e he
      rw [hkey] at this
      exact absurd hself this
    · have hak : a.key == e.key := hkey ▸ Table.key_of_get hget
      rw [(h.bare i).eq_of_key (Table.mem_of_get hget) he hak]

end Reached

/-- Of three entries one is deleted; the reads that miss the snapshot have it rebuilt in between. -/
theorem readMap_of_reached_rebuilt :
    let cfg : Config ℕ ℕ := { defaultConfig UInt64.ofNat with policy := .s3fifo, lockFreeRead := true }
    let c : Cache ℕ ℕ 1 := run cfg (new cfg 1)
      ([(.instant 1, .set 1 1), (.instant 2, .set 2 2), (.instant 3, .set 3 3)] ++
        List.replicate 8 (.instant 4, .get 1) ++ [(.instant 5, .delete 2)])
    (c.shards 0).read = some ⟨⟨[(3, 2), (2, 1), (1, 0)]⟩, false⟩ ∧ (c.shards 0).dead = [1] ∧
      ∃ rm, (c.shards 0).read = some rm ∧
        (rm.amended = false → ∀ e ∈ (c.shards 0).storage,
          (e.key, e.id) ∈ rm.m.pairs ∧ (e.key == e.key → rm.m.get e.key = some e.id)) ∧
        ∀ p ∈ rm.m.pairs, p.2 ∉ (c.shards 0).dead →
          ∃ e ∈ (c.shards 0).storage, e.id = p.2 ∧ e.key = p.1 ∧
            (p.1 == p.1 → (c.shards 0).get p.1 = some e) :=
  ⟨by decide +kernel, by decide +kernel, readMap_of_reached (Reachable.reached ⟨_, rfl⟩) rfl 0⟩

end Memcache
