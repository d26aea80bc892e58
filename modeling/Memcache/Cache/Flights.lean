import Memcache.Lib.KeyMap
import Memcache.Lib.NodeList

/-!
# Loads in flight and watches

A shard keeps a running load in one of two maps: `inflight`, where callers of the key find it and
join, or `orphans`, once every caller has given up. A load that is in neither is still running; it
was **superseded**, by a write of its key or by a newer load, and will not store its result. Watch
tokens work the same way for the two readers that copy a value from elsewhere into the shard: any
write of the key marks the token and drops it from the map.

The maps of the source hold pointers to flight and token objects whose `superseded` mark is set
through any of them, so the objects live in the lists `running` and `tokens` and the maps hold
their identities.
-/

namespace Memcache

/-- A running loader invocation. -/
structure Flight (K : Type*) where
  id : ℕ
  key : K
  refs : ℤ
  superseded : Bool
deriving DecidableEq, Repr

/-- A watch on a key. -/
structure WatchToken where
  id : ℕ
  refs : ℤ
  superseded : Bool
deriving DecidableEq, Repr

/-- A shard's loads and watches. -/
structure Flights (K : Type*) where
  running : List (Flight K)
  inflight : KeyMap K ℕ
  orphans : KeyMap K ℕ
  tokens : List WatchToken
  watches : KeyMap K ℕ
  nextFlight : ℕ
  nextToken : ℕ
deriving DecidableEq, Repr

namespace Flights

variable {K : Type*}

def empty : Flights K := ⟨[], .empty, .empty, [], .empty, 0, 0⟩

/-- Mark the flights whose identity is in `ids`. -/
def mark (ids : List ℕ) (running : List (Flight K)) : List (Flight K) :=
  running.map fun f ↦ if f.id ∈ ids then { f with superseded := true } else f

/-- Mark the tokens whose identity is in `ids`. -/
def markTokens (ids : List ℕ) (tokens : List WatchToken) : List WatchToken :=
  tokens.map fun w ↦ if w.id ∈ ids then { w with superseded := true } else w

/-- Every load of `after` is one of `before`, with its mark if it had one: loads only end, are
joined, left or marked. -/
def Descends (before after : List (Flight K)) : Prop :=
  ∀ f ∈ after, ∃ f' ∈ before, f'.id = f.id ∧ f'.key = f.key ∧ (f'.superseded → f.superseded)

namespace Descends

variable {l l' l'' : List (Flight K)}

theorem refl (l : List (Flight K)) : Descends l l := fun f hf ↦ ⟨f, hf, rfl, rfl, id⟩

theorem trans (h : Descends l l') (h' : Descends l' l'') : Descends l l'' := by
  intro f hf
  obtain ⟨f', hf', hid, hkey, hsup⟩ := h' f hf
  obtain ⟨f'', hf'', hid', hkey', hsup'⟩ := h f' hf'
  exact ⟨f'', hf'', hid'.trans hid, hkey'.trans hkey, hsup ∘ hsup'⟩

theorem mark (ids : List ℕ) (l : List (Flight K)) : Descends l (Flights.mark ids l) := by
  intro f hf
  obtain ⟨f', hf', rfl⟩ := List.mem_map.1 hf
  refine ⟨f', hf', ?_⟩
  split_ifs <;> simp

theorem unlink (id : ℕ) (l : List (Flight K)) :
    Descends l (NodeList.unlink Flight.id id l) :=
  fun f hf ↦ ⟨f, (NodeList.mem_unlink.1 hf).1, rfl, rfl, fun h ↦ h⟩

end Descends

variable [BEq K] (s : Flights K)

/-- The running flight of an identity. -/
def flight (id : ℕ) : Option (Flight K) :=
  NodeList.lookup Flight.id id s.running

/-- The token of an identity. -/
def token (id : ℕ) : Option WatchToken :=
  NodeList.lookup WatchToken.id id s.tokens

/-- Every registered load and watch is superseded; abandoned loads and watches are dropped. -/
def supersedeAllFlights : Flights K :=
  { s with
    running := mark (s.inflight.values ++ s.orphans.values) s.running
    orphans := .empty
    tokens := markTokens s.watches.values s.tokens
    watches := .empty }

/-- The registered load of the key and any watch on it are superseded. -/
def supersedeFlight (key : K) : Flights K :=
  { s with
    running := mark ((s.inflight.get key).toList ++ (s.orphans.get key).toList) s.running
    orphans := s.orphans.erase key
    tokens := markTokens (s.watches.get key).toList s.tokens
    watches := s.watches.erase key }

theorem supersedeFlight_congr [PartialEquivBEq K] {key key' : K} (h : key == key')
    (s : Flights K) : s.supersedeFlight key = s.supersedeFlight key' := by
  simp only [supersedeFlight, KeyMap.get_congr h, KeyMap.erase_congr h]

omit [BEq K] in
/-- Marking a load again changes nothing. -/
theorem mark_mark_of_subset {ids ids' : List ℕ} (h : ids ⊆ ids') (l : List (Flight K)) :
    mark ids (mark ids' l) = mark ids' l := by
  simp only [mark, List.map_map]
  refine List.map_congr_left fun f _ ↦ ?_
  by_cases h' : f.id ∈ ids'
  · simp [h']
  · have hf : f.id ∉ ids := fun hf ↦ h' (h hf)
    simp [h', hf]

theorem supersedeFlight_supersedeFlight (s : Flights K) (key : K) :
    (s.supersedeFlight key).supersedeFlight key = s.supersedeFlight key := by
  have hmark := mark_mark_of_subset (List.subset_append_left (s.inflight.get key).toList
    (s.orphans.get key).toList) s.running
  simp only [supersedeFlight, KeyMap.get_erase_self, KeyMap.erase_erase_self, Option.toList_none,
    List.append_nil, hmark]
  simp [markTokens]

/-- Register a new load for the key, with one waiter; an abandoned one still running is superseded
by it. The identity of the new load is the old `nextFlight`. -/
def startFlight (key : K) : Flights K :=
  { s with
    running := ⟨s.nextFlight, key, 1, false⟩ :: mark (s.orphans.get key).toList s.running
    orphans := s.orphans.erase key
    inflight := s.inflight.insert key s.nextFlight
    nextFlight := s.nextFlight + 1 }

/-- Add `d` to a flight's waiter count. -/
def addRefs (d : ℤ) (id : ℕ) (running : List (Flight K)) : List (Flight K) :=
  running.map fun f ↦ if f.id = id then { f with refs := f.refs + d } else f

omit [BEq K] in
theorem Descends.addRefs (d : ℤ) (id : ℕ) (l : List (Flight K)) :
    Descends l (Flights.addRefs d id l) := by
  intro f hf
  obtain ⟨f', hf', rfl⟩ := List.mem_map.1 hf
  refine ⟨f', hf', ?_⟩
  split_ifs <;> simp

/-- A caller joins a running load. -/
def join (id : ℕ) : Flights K :=
  { s with running := addRefs 1 id s.running }

/-- Move a load whose waiters have all given up from `inflight` to `orphans`. -/
def orphanFlight (key : K) (id : ℕ) : Flights K :=
  if s.inflight.get key = some id then
    { s with
      inflight := s.inflight.erase key
      running := mark (s.orphans.get key).toList s.running
      orphans := s.orphans.insert key id }
  else s

/-- A waiter gives up; the last one abandons the load. -/
def leave (id : ℕ) : Flights K :=
  match s.flight id with
  | none => s
  | some f =>
    if f.refs - 1 = 0 then orphanFlight { s with running := addRefs (-1) id s.running } f.key id
    else { s with running := addRefs (-1) id s.running }

theorem Descends.leave (s : Flights K) (id : ℕ) : Descends s.running (s.leave id).running := by
  unfold Flights.leave orphanFlight
  split
  · exact .refl _
  · split_ifs
    · exact (Descends.addRefs (-1) id _).trans (.mark _ _)
    · exact .addRefs (-1) id _
    · exact .addRefs (-1) id _

/-- Unregister a load from whichever map holds it; a newer load of the key is left alone. -/
def leaveInflight (key : K) (id : ℕ) : Flights K :=
  { s with
    inflight := if s.inflight.get key = some id then s.inflight.erase key else s.inflight
    orphans := if s.orphans.get key = some id then s.orphans.erase key else s.orphans }

/-- Supersede, without unregistering, the loads of the keys that match. -/
def supersedeMatching (matcher : K → Bool) : Flights K :=
  { s with
    running := mark (((s.inflight.pairs ++ s.orphans.pairs).filter fun p ↦ matcher p.1).map
      Prod.snd) s.running }

/-- Watch a key, with the key's token when it is watched already. The result is the token. -/
def watchLocked (key : K) : ℕ × Flights K :=
  match s.watches.get key with
  | some w => (w, { s with
      tokens := s.tokens.map fun t ↦ if t.id = w then { t with refs := t.refs + 1 } else t })
  | none => (s.nextToken, { s with
      tokens := ⟨s.nextToken, 1, false⟩ :: s.tokens
      watches := s.watches.insert key s.nextToken
      nextToken := s.nextToken + 1 })

/-- End a watch; the last one drops the key's token from the map. -/
def unwatchLocked (key : K) (w : ℕ) : Flights K :=
  let tokens := s.tokens.map fun t ↦ if t.id = w then { t with refs := t.refs - 1 } else t
  let last := (NodeList.lookup WatchToken.id w tokens).any fun t ↦ t.refs = 0
  { s with
    tokens := tokens
    watches := if last ∧ s.watches.get key = some w then s.watches.erase key else s.watches }

end Flights

end Memcache
