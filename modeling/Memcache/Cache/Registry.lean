import Memcache.Cache.LockFree

/-!
# The registered loads

A running load is found through one of two maps, and the maps and the loads agree (`Flights.Ok`):
what is registered is running, under an equal key; **a load that may still store is registered**, so
whoever changes its key finds it and marks it; and a key has no abandoned load while it has one in
flight. Every change of a shard's loads keeps this, so it holds in every run.
-/

namespace Memcache

open KeyMap (mem_of_mem_insert mem_of_mem_erase get_insert get_erase get_congr)

variable {K V : Type*} {n : ℕ}

namespace Flights

/-! ### Marking and counting keep identities and keys -/

variable {f : Flight K} {l : List (Flight K)}

theorem mem_mark {ids : List ℕ} (h : f ∈ mark ids l) :
    ∃ g ∈ l, f.id = g.id ∧ f.key = g.key ∧ f.refs = g.refs ∧
      (f.superseded = false → g.superseded = false ∧ g.id ∉ ids) := by
  obtain ⟨g, hg, rfl⟩ := List.mem_map.1 h
  refine ⟨g, hg, ?_⟩
  split_ifs with hid
  · exact ⟨rfl, rfl, rfl, fun h ↦ nomatch h⟩
  · exact ⟨rfl, rfl, rfl, fun h ↦ ⟨h, hid⟩⟩

theorem mem_addRefs {d : ℤ} {id : ℕ} (h : f ∈ addRefs d id l) :
    ∃ g ∈ l, f.id = g.id ∧ f.key = g.key ∧ f.superseded = g.superseded ∧
      f.refs = g.refs + if g.id = id then d else 0 := by
  obtain ⟨g, hg, rfl⟩ := List.mem_map.1 h
  refine ⟨g, hg, ?_⟩
  split_ifs <;> simp

/-! ### The invariant -/

/-- The loads and the maps that register them agree. -/
structure Ok [BEq K] (s : Flights K) : Prop where
  distinct : NodeList.Distinct Flight.id s.running
  fresh : ∀ f ∈ s.running, f.id < s.nextFlight
  inflightUnique : s.inflight.Unique
  orphansUnique : s.orphans.Unique
  /-- What is registered is running, under an equal key. -/
  inflight : ∀ p ∈ s.inflight.pairs, ∃ f ∈ s.running, f.id = p.2 ∧ f.key == p.1
  orphans : ∀ p ∈ s.orphans.pairs, ∃ f ∈ s.running, f.id = p.2 ∧ f.key == p.1
  /-- A key with a load in flight has no abandoned one. -/
  apart : ∀ p ∈ s.inflight.pairs, s.orphans.get p.1 = none
  /-- A load that may still store is registered. -/
  registered : ∀ f ∈ s.running, f.superseded = false →
    s.inflight.get f.key = some f.id ∨ s.orphans.get f.key = some f.id
  /-- A newer load of a key supersedes the older ones. -/
  newest : ∀ f ∈ s.running, ∀ g ∈ s.running, f.key == g.key → f.id < g.id → f.superseded = true

namespace Ok

variable [BEq K] {s : Flights K} {key : K} {id : ℕ} {f : Flight K}

theorem empty : (Flights.empty : Flights K).Ok :=
  ⟨List.nodup_nil, nofun, .nil, .nil, nofun, nofun, nofun, nofun, nofun⟩

/-- Every load keeps its identity and key, and one that may still store its registration. -/
theorem of_map (h : s.Ok) {φ : Flight K → Flight K} (hφ : ∀ f, (φ f).id = f.id ∧ (φ f).key = f.key)
    {orphans : KeyMap K ℕ} (hunique : orphans.Unique)
    (hsub : ∀ p ∈ orphans.pairs, p ∈ s.orphans.pairs)
    (hnone : ∀ k, s.orphans.get k = none → orphans.get k = none)
    (hkept : ∀ f ∈ s.running, (φ f).superseded = false → f.superseded = false ∧
      (s.orphans.get f.key = some f.id → orphans.get f.key = some f.id))
    (tokens : List WatchToken) (watches : KeyMap K ℕ) :
    ({ s with
        running := s.running.map φ
        orphans := orphans
        tokens := tokens
        watches := watches } : Flights K).Ok := by
  have hstill {p : K × ℕ} (hp : ∃ f ∈ s.running, f.id = p.2 ∧ f.key == p.1) :
      ∃ f ∈ s.running.map φ, f.id = p.2 ∧ f.key == p.1 := by
    obtain ⟨f, hf, hid, hkey⟩ := hp
    exact ⟨φ f, List.mem_map_of_mem hf, (hφ f).1.trans hid, (hφ f).2 ▸ hkey⟩
  refine ⟨?_, List.forall_mem_map.2 fun f hf ↦ (hφ f).1 ▸ h.fresh f hf, h.inflightUnique, hunique,
    fun p hp ↦ hstill (h.inflight p hp), fun p hp ↦ hstill (h.orphans p (hsub p hp)),
    fun p hp ↦ hnone _ (h.apart p hp), List.forall_mem_map.2 fun f hf hsup ↦ ?_,
    List.forall_mem_map.2 fun f hf ↦ List.forall_mem_map.2 fun g hg hkey hlt ↦ ?_⟩
  · show ((s.running.map φ).map Flight.id).Nodup
    rw [List.map_map, show Flight.id ∘ φ = Flight.id from funext fun f ↦ (hφ f).1]
    exact h.distinct
  · rw [(hφ f).1, (hφ f).2]
    exact (h.registered f hf (hkept f hf hsup).1).imp_right (hkept f hf hsup).2
  · rw [(hφ f).2, (hφ g).2] at hkey
    rw [(hφ f).1, (hφ g).1] at hlt
    by_contra hsup
    have hf' := hkept f hf (Bool.not_eq_true _ ▸ hsup)
    exact absurd (h.newest f hf g hg hkey hlt) (by simp [hf'.1])

/-- Loads are marked, and every map keeps the unmarked ones. -/
theorem of_mark (h : s.Ok) {ids : List ℕ} {orphans : KeyMap K ℕ} (hunique : orphans.Unique)
    (hsub : ∀ p ∈ orphans.pairs, p ∈ s.orphans.pairs)
    (hnone : ∀ k, s.orphans.get k = none → orphans.get k = none)
    (hkept : ∀ f ∈ s.running, f.id ∉ ids → s.orphans.get f.key = some f.id →
      orphans.get f.key = some f.id) (tokens : List WatchToken) (watches : KeyMap K ℕ) :
    ({ s with
        running := mark ids s.running
        orphans := orphans
        tokens := tokens
        watches := watches } : Flights K).Ok := by
  refine h.of_map (fun f ↦ ?_) hunique hsub hnone (fun f hf hsup ↦ ?_) tokens watches
  · split_ifs <;> exact ⟨rfl, rfl⟩
  · split_ifs at hsup with hid
    exact ⟨hsup, hkept f hf hid⟩

variable [PartialEquivBEq K]

/-- Loads of a key are marked, and an abandoned one is forgotten. -/
theorem of_erase (h : s.Ok) {ids : List ℕ} (hids : (s.orphans.get key).toList ⊆ ids)
    (tokens : List WatchToken) (watches : KeyMap K ℕ) :
    ({ s with
        running := mark ids s.running
        orphans := s.orphans.erase key
        tokens := tokens
        watches := watches } : Flights K).Ok := by
  refine h.of_mark (h.orphansUnique.erase key) (fun p hp ↦ (mem_of_mem_erase hp).1) ?_ ?_ _ _
  · intro k hk
    rw [get_erase, hk, ite_self]
  · intro f _ hnot hget
    rw [get_erase, if_neg ?_, hget]
    intro hkey
    refine hnot (hids ?_)
    rw [get_congr hkey, hget]
    exact List.mem_singleton_self _

theorem supersedeFlight (h : s.Ok) (key : K) : (s.supersedeFlight key).Ok :=
  h.of_erase (List.subset_append_right ..) _ _

omit [PartialEquivBEq K] in
theorem supersedeAllFlights (h : s.Ok) : s.supersedeAllFlights.Ok := by
  refine h.of_mark .nil nofun (fun _ _ ↦ rfl) ?_ _ _
  intro f _ hnot hget
  exact absurd (List.mem_append_right _ (KeyMap.mem_values_of_get hget)) hnot

omit [PartialEquivBEq K] in
theorem supersedeMatching (h : s.Ok) (matcher : K → Bool) : (s.supersedeMatching matcher).Ok :=
  h.of_mark h.orphansUnique (fun _ hp ↦ hp) (fun _ hk ↦ hk) (fun _ _ _ hget ↦ hget) _ _

/-- A new load of a key that has none. -/
theorem add (h : s.Ok) (hkey : key == key) (hin : s.inflight.get key = none)
    (hor : s.orphans.get key = none) :
    ({ s with
        running := ⟨s.nextFlight, key, 1, false⟩ :: s.running
        inflight := s.inflight.insert key s.nextFlight
        nextFlight := s.nextFlight + 1 } : Flights K).Ok := by
  -- no load of the key may still store
  have hother {f : Flight K} (hf : f ∈ s.running) (hsup : f.superseded = false) :
      ¬ (key == f.key) := by
    intro hk
    rw [get_congr hk] at hin hor
    rcases h.registered f hf hsup with hr | hr
    · cases hin.symm.trans hr
    · cases hor.symm.trans hr
  refine ⟨h.distinct.cons fun f hf ↦ (h.fresh f hf).ne, fun f hf ↦ ?_,
    h.inflightUnique.insert key s.nextFlight, h.orphansUnique, fun p hp ↦ ?_, fun p hp ↦ ?_,
    fun p hp ↦ ?_, fun f hf hsup ↦ ?_, fun f hf g hg hfg hlt ↦ ?_⟩
  · rcases List.mem_cons.1 hf with rfl | hf
    · exact Nat.lt_succ_self _
    · exact (h.fresh f hf).trans (Nat.lt_succ_self _)
  · rcases mem_of_mem_insert hp with rfl | ⟨hp, -⟩
    · exact ⟨_, List.mem_cons_self .., rfl, hkey⟩
    · exact (h.inflight p hp).imp fun f ↦ .imp_left (List.mem_cons_of_mem _)
  · exact (h.orphans p hp).imp fun f ↦ .imp_left (List.mem_cons_of_mem _)
  · rcases mem_of_mem_insert hp with rfl | ⟨hp, -⟩
    · exact hor
    · exact h.apart p hp
  · dsimp only
    rw [get_insert]
    rcases List.mem_cons.1 hf with rfl | hf
    · exact .inl (if_pos hkey)
    · rw [if_neg (hother hf hsup)]
      exact h.registered f hf hsup
  · rcases List.mem_cons.1 hf with rfl | hf
    · rcases List.mem_cons.1 hg with rfl | hg
      · exact absurd hlt (lt_irrefl _)
      · exact absurd hlt (h.fresh g hg).not_gt
    · rcases List.mem_cons.1 hg with rfl | hg
      · by_contra hsup
        exact hother hf (Bool.not_eq_true _ ▸ hsup) (BEq.symm hfg)
      · exact h.newest f hf g hg hfg hlt

/-- A new load of a key that has none in flight. -/
theorem startFlight (h : s.Ok) (hkey : key == key) (hnone : s.inflight.get key = none) :
    (s.startFlight key).Ok :=
  (h.of_erase (List.Subset.refl _) s.tokens s.watches).add hkey hnone
    (by rw [get_erase, if_pos hkey])

omit [PartialEquivBEq K] in
theorem addRefs (h : s.Ok) (d : ℤ) (id : ℕ) :
    ({ s with running := addRefs d id s.running } : Flights K).Ok := by
  refine h.of_map (fun f ↦ ?_) h.orphansUnique (fun _ hp ↦ hp) (fun _ hk ↦ hk) (fun f _ hsup ↦ ?_) _ _
  · split_ifs <;> exact ⟨rfl, rfl⟩
  · split_ifs at hsup <;> exact ⟨hsup, fun hget ↦ hget⟩

/-- A load in flight for a key: its pair, the load, and no abandoned load beside it. -/
theorem of_get_inflight (h : s.Ok) (hget : s.inflight.get key = some id) :
    (∃ f ∈ s.running, f.id = id ∧ f.key == key) ∧ s.orphans.get key = none := by
  obtain ⟨p, hp, hkey, rfl⟩ := KeyMap.get_eq_some hget
  obtain ⟨f, hf, hid, hfkey⟩ := h.inflight p hp
  refine ⟨⟨f, hf, hid, PartialEquivBEq.trans hfkey hkey⟩, ?_⟩
  rw [← get_congr hkey]
  exact h.apart p hp

/-- The last waiter of a load gives up. -/
theorem orphanFlight (h : s.Ok) (key : K) (id : ℕ) : (s.orphanFlight key id).Ok := by
  unfold Flights.orphanFlight
  split_ifs with hget
  swap
  · exact h
  obtain ⟨⟨g, hg, hgid, hgkey⟩, hnone⟩ := h.of_get_inflight hget
  have hrunning : mark (s.orphans.get key).toList s.running = s.running := by
    simp [hnone, mark]
  rw [hrunning]
  refine ⟨h.distinct, h.fresh, h.inflightUnique.erase key, h.orphansUnique.insert key id,
    fun p hp ↦ h.inflight p (mem_of_mem_erase hp).1, fun p hp ↦ ?_, fun p hp ↦ ?_,
    fun f hf hsup ↦ ?_, h.newest⟩
  · rcases mem_of_mem_insert hp with rfl | ⟨hp, -⟩
    · exact ⟨g, hg, hgid, hgkey⟩
    · exact h.orphans p hp
  · obtain ⟨hp, hne⟩ := mem_of_mem_erase hp
    dsimp only
    rw [get_insert, if_neg (by rw [BEq.comm, hne]; exact Bool.false_ne_true)]
    exact h.apart p hp
  · dsimp only
    rw [get_insert, get_erase]
    by_cases hk : key == f.key
    · rw [if_pos hk, if_pos hk]
      rw [get_congr hk] at hget hnone
      rcases h.registered f hf hsup with hr | hr
      · exact .inr (hget.symm.trans hr)
      · cases hnone.symm.trans hr
    · rw [if_neg hk, if_neg hk]
      exact h.registered f hf hsup

theorem leave (h : s.Ok) (id : ℕ) : (s.leave id).Ok := by
  unfold Flights.leave
  split
  · exact h
  · split_ifs
    · exact (h.addRefs (-1) id).orphanFlight _ id
    · exact h.addRefs (-1) id

/-- Erasing a registration that names `id` leaves the others. -/
theorem get_leave {m : KeyMap K ℕ} {key k : K} {id id' : ℕ} (hne : id' ≠ id)
    (h : m.get k = some id') : (if m.get key = some id then m.erase key else m).get k = some id' := by
  split_ifs with hget
  · rw [get_erase, if_neg ?_, h]
    intro hk
    rw [get_congr hk, h] at hget
    exact hne (Option.some.inj hget)
  · exact h

/-- A load ends. -/
theorem finish (h : s.Ok) (hf : s.flight f.id = some f) :
    ({ s.leaveInflight f.key f.id with
      running := NodeList.unlink Flight.id f.id s.running } : Flights K).Ok := by
  have hmemf : f ∈ s.running := NodeList.mem_of_lookup hf
  have hsub {m : KeyMap K ℕ} {p : K × ℕ}
      (hp : p ∈ (if m.get f.key = some f.id then m.erase f.key else m).pairs) : p ∈ m.pairs := by
    split_ifs at hp
    · exact (mem_of_mem_erase hp).1
    · exact hp
  have hunique {m : KeyMap K ℕ} (hm : m.Unique) :
      (if m.get f.key = some f.id then m.erase f.key else m).Unique := by
    split_ifs
    · exact hm.erase f.key
    · exact hm
  -- the registration that remains is of another load: the one that ended was under its own key
  have hother {m : KeyMap K ℕ} (hm : m.Unique)
      (hreg : ∀ p ∈ m.pairs, ∃ g ∈ s.running, g.id = p.2 ∧ g.key == p.1) {p : K × ℕ}
      (hp : p ∈ (if m.get f.key = some f.id then m.erase f.key else m).pairs) :
      ∃ g ∈ NodeList.unlink Flight.id f.id s.running, g.id = p.2 ∧ g.key == p.1 := by
    obtain ⟨g, hg, hid, hkey⟩ := hreg p (hsub hp)
    refine ⟨g, NodeList.mem_unlink.2 ⟨hg, fun hgf ↦ ?_⟩, hid, hkey⟩
    obtain rfl := h.distinct.eq_of_ident hg hmemf hgf
    have hget : m.get g.key = some g.id := hid ▸ hm.get_eq (hsub hp) (BEq.symm hkey)
    rw [if_pos hget] at hp
    rw [BEq.comm, (mem_of_mem_erase hp).2] at hkey
    cases hkey
  refine ⟨h.distinct.unlink, fun g hg ↦ h.fresh g (NodeList.mem_unlink.1 hg).1,
    hunique h.inflightUnique, hunique h.orphansUnique, fun p hp ↦ hother h.inflightUnique h.inflight hp,
    fun p hp ↦ hother h.orphansUnique h.orphans hp, fun p hp ↦ ?_, fun g hg hsup ↦ ?_,
    fun g hg b hb ↦ h.newest g (NodeList.mem_unlink.1 hg).1 b (NodeList.mem_unlink.1 hb).1⟩
  · have hnone := h.apart p (hsub hp)
    show (if s.orphans.get f.key = some f.id then s.orphans.erase f.key else s.orphans).get p.1 = none
    split_ifs
    · rw [get_erase, hnone, ite_self]
    · exact hnone
  · obtain ⟨hg, hne⟩ := NodeList.mem_unlink.1 hg
    exact (h.registered g hg hsup).imp (get_leave hne) (get_leave hne)

/-- **Every change of a shard's loads keeps the registrations.** -/
theorem step {P : K → Prop} {s' : Flights K} (h : s.Ok) (hs : FlightStep P s s')
    (hP : ∀ k, P k → k == k) : s'.Ok := by
  cases hs with
  | supersede key => exact h.supersedeFlight key
  | supersedeAll => exact h.supersedeAllFlights
  | supersedeMatching matcher => exact h.supersedeMatching matcher
  | start key hkey hnone => exact h.startFlight (hP key hkey) hnone
  | join id => exact h.addRefs 1 id
  | leave id => exact h.leave id
  | finish f hf => exact h.finish hf
  | watch tokens watches nextToken => exact { h with }

end Ok

end Flights

namespace Core

variable [BEq K] [PartialEquivBEq K]

/-- Every shard's loads are registered. -/
def FlightsOk (c : Core K V n) : Prop := ∀ i, (c.shards i).flights.Ok

theorem FlightsOk.step {cfg : Config K V} {T : Licence K V} [T.Proper] {c d : Core K V n}
    (h : CoreStep cfg T c d) (hc : c.FlightsOk) : d.FlightsOk := by
  have one {i : Fin n} {s : CoreShard K V} (hs : s.flights.Ok) : (c.set i s).FlightsOk :=
    forall_set (P := fun s ↦ s.flights.Ok) hc hs
  cases h with
  | flights _ i f hf => exact one ((hc i).step hf fun _ ↦ Licence.Proper.beq_self)
  | read _ i s hs => cases hs <;> exact one (hc i)
  | bounds => exact hc
  | _ => exact one (hc _)

end Core

namespace Cache

/-- **In every reachable cache the loads are registered.** -/
theorem flightsOk_of_reachable [BEq K] [EquivBEq K] [NeZero n] [Inhabited V] {cfg : Config K V}
    {c : Cache K V n} (h : Reachable cfg c) : c.core.FlightsOk :=
  h.reached.invariant (I := Core.FlightsOk) Core.FlightsOk.step fun _ ↦ .empty

end Cache

end Memcache
