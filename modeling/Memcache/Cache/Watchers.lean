import Memcache.Cache.Readers

/-!
# The readers of one key

A system around a cache that is about one key follows the tokens its own readers of the key hold, and
leaves the rest to others: readers of the shard's other keys begin and end watches of their own, and
share the shard's map of watches. `Cache.Watched` says that the tokens held are accounted for, and
`Cache.Aside` what a section does that has nothing to do with the key: the key's entry stays, and a
mark stays.
-/

namespace Memcache

namespace Cache

variable {K V : Type*} {n : ℕ} [BEq K] [NeZero n] {cfg : Config K V} {key : K} {c c' c'' : Cache K V n}

/-- The loads and watches of the shard that a key belongs to. -/
def flightsOf (cfg : Config K V) (c : Cache K V n) (key : K) : Flights K :=
  (c.shards (shardFor cfg key)).flights

/-- The token is unmarked. -/
def watchCurrent (cfg : Config K V) (c : Cache K V n) (key : K) (w : ℕ) : Bool :=
  ((c.flightsOf cfg key).token w).any fun t ↦ !t.superseded

/-- The token that a watch of the key gets. -/
def watchToken (cfg : Config K V) (c : Cache K V n) (key : K) : ℕ :=
  ((c.flightsOf cfg key).watchLocked key).1

omit [BEq K] in
/-- A marked token is not current. -/
theorem watchCurrent_of_void {w : ℕ} (h : (c.flightsOf cfg key).Void w) :
    c.watchCurrent cfg key w = false := by
  rw [watchCurrent, Option.any_eq_false]
  intro t ht
  simp [h t ht]

/-- The readers of the key hold the tokens `mine`, those of the shard's other keys `others`. -/
structure Watched (cfg : Config K V) (key : K) (c : Cache K V n) (mine : List ℕ)
    (others : List (K × ℕ)) : Prop where
  holds : (c.flightsOf cfg key).Holds (mine.map (fun w ↦ (key, w)) ++ others)
  others : ∀ p ∈ others, (shardFor cfg p.1 : Fin n) = shardFor cfg key

/-- A section that leaves the key's entry and the marks of its readers. -/
structure Aside (cfg : Config K V) (key : K) (mine : List ℕ) (c c' : Cache K V n) : Prop where
  lookup : c'.lookupKey cfg key = c.lookupKey cfg key
  pending : (c'.shards (shardFor cfg key)).pending = (c.shards (shardFor cfg key)).pending
  closed : c'.closed = c.closed
  sealed : c'.sealed = c.sealed
  keysByTag : c'.keysByTag = c.keysByTag
  untagQueue : c'.untagQueue = c.untagQueue
  void : ∀ w ∈ mine, (c.flightsOf cfg key).Void w → (c'.flightsOf cfg key).Void w

namespace Watched

variable {mine mine' : List ℕ} {others : List (K × ℕ)} {w : ℕ}

theorem perm (h : c.Watched cfg key mine others) (hp : mine.Perm mine') :
    c.Watched cfg key mine' others :=
  ⟨h.holds.perm ((hp.map _).append_right _), h.others⟩

theorem marks (h : c.Watched cfg key mine others)
    (hm : Flights.Marks (c.flightsOf cfg key) (c'.flightsOf cfg key)) :
    c'.Watched cfg key mine others :=
  ⟨h.holds.marks hm, h.others⟩

omit [BEq K] [NeZero n] in
theorem mem_held (hw : w ∈ mine) : (key, w) ∈ mine.map (fun w ↦ (key, w)) ++ others :=
  List.mem_append_left _ (List.mem_map_of_mem hw)

/-- A section that voids the key's watches marks every reader's token. -/
theorem void_of_voids (h : c.Watched cfg key mine others) (hw : w ∈ mine)
    (hm : Flights.Marks (c.flightsOf cfg key) (c'.flightsOf cfg key))
    (hv : Voids (shardFor cfg key) key c c') : (c'.flightsOf cfg key).Void w := by
  rcases h.holds.void_or (mem_held hw) with hvoid | hreg
  · exact hm.void hvoid
  · exact hv _ hreg

/-- A change of the shard's loads and watches that keeps the marks of the key's readers. -/
theorem aside_flights {i : Fin n} (hi : i = shardFor cfg key) {f : Flights K → Flights K}
    (hf : ∀ w ∈ mine, (c.flightsOf cfg key).Void w → (f (c.flightsOf cfg key)).Void w) :
    Aside cfg key mine c (c.modify i fun s ↦ { s with flights := f s.flights }) ∧
      (c.modify i fun s ↦ { s with flights := f s.flights }).flightsOf cfg key =
        f (c.flightsOf cfg key) := by
  subst hi
  have hself := modify_shards_self c (shardFor cfg key) fun s ↦ { s with flights := f s.flights }
  refine ⟨⟨?_, by rw [hself], rfl, rfl, rfl, rfl, fun w hw hv ↦ ?_⟩, by rw [flightsOf, hself]; rfl⟩
  · rw [lookupKey, lookupKey, hself]
  · rw [flightsOf, hself]
    exact hf w hw hv

/-- A watch of a key of the shard. -/
theorem aside_watchKey {k : K} (h : c.Watched cfg key mine others)
    (hk : (shardFor cfg k : Fin n) = shardFor cfg key) :
    Aside cfg key mine c (c.watchKey cfg k) ∧
      (c.watchKey cfg k).flightsOf cfg key = ((c.flightsOf cfg key).watchLocked k).2 := by
  refine aside_flights (f := fun s ↦ (s.watchLocked k).2) hk fun w hw hv ↦ ?_
  have hlt : w < (c.flightsOf cfg key).nextToken := h.holds.lt (mem_held hw)
  exact Flights.void_watchLocked hlt.ne hv

/-- The end of a watch of a key of the shard. -/
theorem aside_unwatchKey {k : K} (hk : (shardFor cfg k : Fin n) = shardFor cfg key) (mine : List ℕ)
    (w : ℕ) : Aside cfg key mine c (c.unwatchKey cfg k w) ∧
      (c.unwatchKey cfg k w).flightsOf cfg key = (c.flightsOf cfg key).unwatchLocked k w :=
  aside_flights (f := fun s ↦ s.unwatchLocked k w) hk fun _ _ hv ↦ Flights.void_unwatchLocked hv

section Equiv

variable [EquivBEq K]

theorem watch (h : c.Watched cfg key mine others) :
    (c.watchKey cfg key).Watched cfg key (c.watchToken cfg key :: mine) others := by
  refine ⟨?_, h.others⟩
  rw [(h.aside_watchKey rfl).2]
  exact h.holds.watchLocked key

theorem unwatch (h : c.Watched cfg key (w :: mine) others) :
    (c.unwatchKey cfg key w).Watched cfg key mine others := by
  refine ⟨?_, h.others⟩
  rw [(aside_unwatchKey rfl mine w).2]
  exact Flights.Holds.unwatchLocked h.holds

end Equiv

end Watched

/-! ### Readers of other keys -/

/-- A reader of a key of the shard begins its watch, or the `j`th of them ends it. -/
inductive OtherWatch (K : Type*) where
  | watch (k : K)
  | unwatch (j : ℕ)

/-- Another reader's step. One of another shard's keys is none of this shard's business. -/
def otherWatch (cfg : Config K V) (key : K) (c : Cache K V n) (others : List (K × ℕ)) :
    OtherWatch K → Cache K V n × List (K × ℕ)
  | .watch k =>
    if (shardFor cfg k : Fin n) = shardFor cfg key then
      (c.watchKey cfg k, (k, c.watchToken cfg k) :: others)
    else (c, others)
  | .unwatch j =>
    match others[j]? with
    | some (k, w) => (c.unwatchKey cfg k w, others.eraseIdx j)
    | none => (c, others)

theorem Aside.refl (mine : List ℕ) (c : Cache K V n) : Aside cfg key mine c c :=
  ⟨rfl, rfl, rfl, rfl, rfl, rfl, fun _ _ h ↦ h⟩

theorem Watched.other [EquivBEq K] {mine : List ℕ} {others : List (K × ℕ)}
    (h : c.Watched cfg key mine others) (a : OtherWatch K) :
    Aside cfg key mine c (c.otherWatch cfg key others a).1 ∧
      (c.otherWatch cfg key others a).1.Watched cfg key mine (c.otherWatch cfg key others a).2 := by
  cases a with
  | watch k =>
    unfold otherWatch
    dsimp only
    split_ifs with hk
    · obtain ⟨haside, hflights⟩ := h.aside_watchKey hk
      refine ⟨haside, ?_, fun p hp ↦ ?_⟩
      · have htoken : c.watchToken cfg k = ((c.flightsOf cfg key).watchLocked k).1 := by
          rw [watchToken, flightsOf, hk, flightsOf]
        rw [hflights, htoken]
        exact (h.holds.watchLocked k).perm List.perm_middle.symm
      · rcases List.mem_cons.1 hp with rfl | hp
        · exact hk
        · exact h.others p hp
    · exact ⟨.refl mine c, h⟩
  | unwatch j =>
    unfold otherWatch
    dsimp only
    split
    · next k w hj =>
      have hk : (shardFor cfg k : Fin n) = shardFor cfg key := h.others _ (List.mem_of_getElem? hj)
      obtain ⟨haside, hflights⟩ := aside_unwatchKey (c := c) hk mine w
      refine ⟨haside, ?_, fun p hp ↦ h.others p (List.mem_of_mem_eraseIdx hp)⟩
      have hperm := (ReaderRun.perm_cons_eraseIdx hj).append_left (mine.map fun w ↦ (key, w))
      rw [hflights]
      exact (h.holds.perm (hperm.trans List.perm_middle)).unwatchLocked
    · exact ⟨.refl mine c, h⟩

end Cache

end Memcache
