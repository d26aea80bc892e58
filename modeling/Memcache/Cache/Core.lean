import Memcache.Cache.Run
import Mathlib.Logic.Relation

/-!
# The instructions of the cache

What the cache's invariants speak about is a part of its state, the **core**: each shard's table,
loads in flight and read snapshot, and the live counters and bounds. Statistics, events, queued
callbacks, the tag index and the rest are outside it, and the many small functions that touch only
those are the identity here.

`CoreStep` lists the changes of the core, one constructor for each **instruction** the methods are
made of, with the guard under which the source executes it. Every operation is a sequence of
instructions (`Memcache.Cache.Steps`), so an invariant of the cache is proved once for each
instruction and holds in every run.

What an operation does not need, it is not allowed: the parameter `T` says which entries may become
tombstones, which keys a shard may be given, and whether the bounds change and the backend is swept.
-/

namespace Memcache

variable {K V : Type*} {n : ℕ}

/-! ### The core -/

/-- The part of a shard the invariants speak about. -/
structure CoreShard (K V : Type*) extends Table K V where
  budget : ℕ
  flights : Flights K
  pending : KeyMap K (PendingOp K V)
  read : Option (ReadMap K)
  readMisses : ℕ
  dead : List ℕ

/-- The part of the cache the invariants speak about. -/
structure Core (K V : Type*) (n : ℕ) where
  shards : Fin n → CoreShard K V
  entries : ℤ
  bytes : ℤ
  maxEntries : ℕ
  maxBytes : ℕ
  nextId : ℕ

/-- The core of a shard. -/
def Shard.core (s : Shard K V) : CoreShard K V where
  toTable := s.toTable
  budget := s.budget
  flights := s.flights
  pending := s.pending
  read := s.read
  readMisses := s.readMisses
  dead := s.dead

/-- The core of a cache. -/
def Cache.core (c : Cache K V n) : Core K V n where
  shards i := (c.shards i).core
  entries := c.entries
  bytes := c.bytes
  maxEntries := c.maxEntries
  maxBytes := c.maxBytes
  nextId := c.nextId

namespace Core

/-- Replace one shard. -/
def set (c : Core K V n) (i : Fin n) (s : CoreShard K V) : Core K V n :=
  { c with shards := Function.update c.shards i s }

variable (c : Core K V n)

@[simp] theorem set_shards_self (i : Fin n) (s : CoreShard K V) : (c.set i s).shards i = s := Function.update_self ..

theorem set_shards_of_ne {i j : Fin n} (s : CoreShard K V) (h : j ≠ i) :
    (c.set i s).shards j = c.shards j := Function.update_of_ne h ..

variable {c} in
/-- What holds of the new shard and of each of the others holds of every shard. -/
@[elab_as_elim]
theorem set_cases {P : Fin n → CoreShard K V → Prop} {i : Fin n} {s : CoreShard K V} (j : Fin n)
    (hi : P i s) (hj : ∀ j, j ≠ i → P j (c.shards j)) : P j ((c.set i s).shards j) := by
  rcases eq_or_ne j i with rfl | h
  · rwa [set_shards_self]
  · rw [set_shards_of_ne c s h]
    exact hj j h

@[simp] theorem set_set (i : Fin n) (s s' : CoreShard K V) : (c.set i s).set i s' = c.set i s' := by
  simp [set]

@[simp] theorem set_eq_self (i : Fin n) : c.set i (c.shards i) = c := by
  simp [set]

/-- Add to the live counters. -/
def add (c : Core K V n) (entries bytes : ℤ) : Core K V n :=
  { c with entries := c.entries + entries, bytes := c.bytes + bytes }

/-- Use up an identity. -/
def bump (c : Core K V n) : Core K V n :=
  { c with nextId := c.nextId + 1 }

@[simp] theorem add_set (i : Fin n) (s : CoreShard K V) (entries bytes : ℤ) :
    (c.add entries bytes).set i s = (c.set i s).add entries bytes := rfl

@[simp] theorem add_zero_zero : c.add 0 0 = c := by
  simp [add]

@[simp] theorem add_shards (entries bytes : ℤ) : (c.add entries bytes).shards = c.shards := rfl

@[simp] theorem bump_shards : c.bump.shards = c.shards := rfl

end Core

namespace Cache

theorem core_shards (c : Cache K V n) (i : Fin n) : c.core.shards i = (c.shards i).core := rfl

theorem core_modify (c : Cache K V n) (i : Fin n) (f : Shard K V → Shard K V) :
    (c.modify i f).core = c.core.set i (f (c.shards i)).core := by
  simp only [core, modify, Core.set, Core.mk.injEq, and_self, and_true]
  funext j
  by_cases h : j = i
  · subst h
    simp
  · simp [h]

/-- A change of a shard that its core can follow. -/
theorem core_modify_of (c : Cache K V n) (i : Fin n) {f : Shard K V → Shard K V}
    (g : CoreShard K V → CoreShard K V) (h : ∀ s, (f s).core = g s.core) :
    (c.modify i f).core = c.core.set i (g (c.core.shards i)) := by
  rw [core_modify, h, core_shards]

/-- A change of a shard outside its core does not show. -/
theorem core_modify_eq (c : Cache K V n) (i : Fin n) {f : Shard K V → Shard K V}
    (h : (f (c.shards i)).core = (c.shards i).core) : (c.modify i f).core = c.core := by
  rw [core_modify, h, ← core_shards, Core.set_eq_self]

end Cache

/-! ### Instructions on flights -/

/-- The changes of a shard's loads and watches; `P` says for which keys a load may start. -/
inductive FlightStep [BEq K] (P : K → Prop) : Flights K → Flights K → Prop where
  | supersede (s : Flights K) (key : K) : FlightStep P s (s.supersedeFlight key)
  | supersedeAll (s : Flights K) : FlightStep P s s.supersedeAllFlights
  | supersedeMatching (s : Flights K) (matcher : K → Bool) :
      FlightStep P s (s.supersedeMatching matcher)
  | start (s : Flights K) (key : K) (hkey : P key) (h : s.inflight.get key = none) :
      FlightStep P s (s.startFlight key)
  | join (s : Flights K) (id : ℕ) : FlightStep P s (s.join id)
  | leave (s : Flights K) (id : ℕ) : FlightStep P s (s.leave id)
  | finish (s : Flights K) (f : Flight K) (h : s.flight f.id = some f) :
      FlightStep P s { s.leaveInflight f.key f.id with
        running := NodeList.unlink Flight.id f.id s.running }
  | watch (s : Flights K) (tokens : List WatchToken) (watches : KeyMap K ℕ) (nextToken : ℕ) :
      FlightStep P s { s with tokens := tokens, watches := watches, nextToken := nextToken }

/-! ### Rewrites of an entry -/

/-- How a stored entry is rewritten in place. Its identity and its key stay. -/
inductive Rewrite : Entry K V → Entry K V → Prop where
  | overwrite (e : Entry K V) (value : V) (weight now expireAt : ℤ) (sliding : Bool) (rawTTL : ℤ)
      (tags : List String) (h₁ : 1 ≤ weight) (h₂ : weight ≤ maxEntryWeight) :
      Rewrite e (Cache.overwritten e value weight now expireAt sliding rawTTL tags)
  | replace (e : Entry K V) (value : V) (weight now : ℤ) (h₁ : 1 ≤ weight)
      (h₂ : weight ≤ maxEntryWeight) :
      Rewrite e { e with value := value, weight := weight, lastAccess := now, hits := 0 }
  | refresh (e : Entry K V) (expireAt now : ℤ) :
      Rewrite e { e with expireAt := expireAt, lastAccess := now }
  | touch (e : Entry K V) (now : ℤ) :
      Rewrite e (({ e with hits := e.hits + 1 } : Entry K V).touchAccess now).1
  | hit (e : Entry K V) : Rewrite e { e with hits := e.hits + 1 }

namespace Rewrite

variable {e e' : Entry K V}

theorem id_eq (h : Rewrite e e') : e'.id = e.id := by
  cases h with
  | touch now =>
    unfold Entry.touchAccess
    split_ifs <;> rfl
  | _ => rfl

theorem key_eq (h : Rewrite e e') : e'.key = e.key := by
  cases h with
  | touch now =>
    unfold Entry.touchAccess
    split_ifs <;> rfl
  | _ => rfl

/-- A rewrite keeps the weight, or gives one within the limits. -/
theorem weight_eq (h : Rewrite e e') :
    e'.weight = e.weight ∨ (1 ≤ e'.weight ∧ e'.weight ≤ maxEntryWeight) := by
  cases h with
  | overwrite => exact .inr ⟨‹_›, ‹_›⟩
  | replace => exact .inr ⟨‹_›, ‹_›⟩
  | touch now =>
    left
    unfold Entry.touchAccess
    split_ifs <;> rfl
  | _ => exact .inl rfl

end Rewrite

/-! ### Instructions on the core -/

section CoreStep

variable [BEq K]

/-- The table after a rewrite of `e'`'s entry, with what the source tells the expiry backend and the
policy. -/
def rewriteTable (hash : K → UInt64) (t : Table K V) (e' : Entry K V) (fix access : Bool) :
    Table K V where
  storage := (t.put e').storage
  ttl := if fix then t.ttl.fix e'.id e'.expireAt else t.ttl
  policy := if access then t.policy.onAccess hash e'.id else t.policy

/-- The shard after an entry left its table. -/
def dropShard (lockFree : Bool) (s : CoreShard K V) (e : Entry K V) : CoreShard K V :=
  { s with
    toTable := Cache.dropEntry s.toTable e
    dead := if lockFree then e.id :: s.dead else s.dead }

/-- Rebuild the read snapshot from storage, or count a miss. -/
inductive ReadStep : CoreShard K V → CoreShard K V → Prop where
  | count (s : CoreShard K V) (misses : ℕ) : ReadStep s { s with readMisses := misses }
  | rebuild (s : CoreShard K V) (h : s.read.isSome) :
      ReadStep s { s with
        read := some ⟨s.storage.foldl (fun m e ↦ m.insert e.key e.id) .empty, false⟩
        readMisses := 0 }

/-- A queued write the drain may apply: a value goes under a key of `P`, with a weight within the
limits. -/
def PendingOp.Ok (P : K → Prop) (op : PendingOp K V) : Prop :=
  op.kind = .set → P op.key ∧ 1 ≤ op.weight ∧ op.weight ≤ maxEntryWeight

/-- What a sequence of instructions may do: turn an entry into a tombstone, change the bounds. -/
structure Permits (K V : Type*) where
  tombstone : Entry K V → Prop
  resize : Prop

/-- Anything. -/
def Permits.all : Permits K V := ⟨fun _ ↦ True, True⟩

/-- Anything but a change of the bounds. -/
def Permits.fixed : Permits K V := ⟨fun _ ↦ True, False⟩

/-- What a sequence of instructions may do: what a run permits, which keys each shard may be given,
and whether the expiry backend may be swept. -/
structure Licence (K V : Type*) extends Permits K V where
  takes : ℕ → K → Prop
  sweep : Prop

/-- The keys equal themselves. -/
class Licence.Proper (T : Licence K V) : Prop where
  beq_self : ∀ {i : ℕ} {key : K}, T.takes i key → key == key

/-- What a run of keys that equal themselves may do. -/
def Permits.sweeping (T : Permits K V) : Licence K V := ⟨T, fun _ key ↦ key == key, True⟩

/-- Anything, for keys that equal themselves. -/
def Licence.all : Licence K V := Permits.all.sweeping

/-- Anything but a change of the bounds. -/
def Licence.fixed : Licence K V := Permits.fixed.sweeping

instance (T : Permits K V) : T.sweeping.Proper := ⟨id⟩
instance : (Licence.all : Licence K V).Proper := ⟨id⟩
instance : (Licence.fixed : Licence K V).Proper := ⟨id⟩

/-- The instructions of the cache. -/
inductive CoreStep (cfg : Config K V) (T : Licence K V) :
    Core K V n → Core K V n → Prop where
  | flights (c : Core K V n) (i : Fin n) (f : Flights K) (h : FlightStep (T.takes i) (c.shards i).flights f) :
      CoreStep cfg T c (c.set i { c.shards i with flights := f })
  | pending (c : Core K V n) (i : Fin n) (m : KeyMap K (PendingOp K V))
      (h : ∀ op ∈ m.values, op ∈ (c.shards i).pending.values ∨ (cfg.asyncWrites ∧ op.Ok (T.takes i))) :
      CoreStep cfg T c (c.set i { c.shards i with pending := m })
  | read (c : Core K V n) (i : Fin n) (s : CoreShard K V) (h : ReadStep (c.shards i) s) :
      CoreStep cfg T c (c.set i s)
  | insert (c : Core K V n) (i : Fin n) (e : Entry K V) (habsent : (c.shards i).get e.key = none)
      (hkey : T.takes i e.key) (hid : e.id = c.nextId) (h₁ : 1 ≤ e.weight) (h₂ : e.weight ≤ maxEntryWeight) :
      CoreStep cfg T c
        ((c.set i { c.shards i with
          toTable := Cache.addEntry cfg.hash (c.shards i).toTable e
          read := (c.shards i).read.map fun rm ↦ { rm with amended := true } }).add 1 e.weight).bump
  | rewrite (c : Core K V n) (i : Fin n) (e e' : Entry K V) (fix access : Bool)
      (hmem : e ∈ (c.shards i).storage) (h : Rewrite e e')
      (hfix : fix = false → e'.expireAt = e.expireAt) :
      CoreStep cfg T c
        ((c.set i { c.shards i with
          toTable := rewriteTable cfg.hash (c.shards i).toTable e' fix access }).add 0
            (e'.weight - e.weight))
  | tombstone [Inhabited V] (c : Core K V n) (i : Fin n) (e : Entry K V) (now expireAt : ℤ)
      (hmem : e ∈ (c.shards i).storage) (hT : T.tombstone e) :
      CoreStep cfg T c
        (c.set i { c.shards i with
          toTable := rewriteTable cfg.hash (c.shards i).toTable
            (Cache.tombstoned e now expireAt) true true })
  | drop (c : Core K V n) (i : Fin n) (e : Entry K V) (hmem : e ∈ (c.shards i).storage) :
      CoreStep cfg T c
        ((c.set i (dropShard cfg.lockFreeRead (c.shards i) e)).add (-1) (-e.weight))
  | policy (c : Core K V n) (i : Fin n) (p : Policy K) (h : (c.shards i).policy.Yields p none) :
      CoreStep cfg T c (c.set i { c.shards i with policy := p })
  | stray (c : Core K V n) (i : Fin n) (r : Ref K) (p : Policy K)
      (h : (c.shards i).policy.Yields p (some r)) (hnone : (c.shards i).byId r.id = none) :
      CoreStep cfg T c (c.set i { c.shards i with policy := p })
  | evict (c : Core K V n) (i : Fin n) (r : Ref K) (p : Policy K) (e : Entry K V)
      (h : (c.shards i).policy.Yields p (some r)) (hsome : (c.shards i).byId r.id = some e) :
      CoreStep cfg T c
        ((c.set i (dropShard cfg.lockFreeRead { c.shards i with policy := p } e)).add (-1)
          (-e.weight))
  | ttl (c : Core K V n) (i : Fin n) (now : ℤ) (hT : T.sweep) :
      CoreStep cfg T c (c.set i { c.shards i with ttl := ((c.shards i).ttl.sweep now).2 })
  | clear (c : Core K V n) (i : Fin n) :
      CoreStep cfg T c
        ((c.set i { c.shards i with
          storage := []
          policy := (c.shards i).policy.reset
          ttl := (c.shards i).ttl.reset
          read := if cfg.lockFreeRead then some ⟨.empty, false⟩ else (c.shards i).read
          readMisses := if cfg.lockFreeRead then 0 else (c.shards i).readMisses
          dead := if cfg.lockFreeRead then
              (c.shards i).storage.map Entry.id ++ (c.shards i).dead
            else (c.shards i).dead }).add (-(c.shards i).storage.length) (-(c.shards i).weight))
  | bounds (c : Core K V n) (maxEntries maxBytes : ℕ) (hT : T.resize) :
      CoreStep cfg T c { c with maxEntries := maxEntries, maxBytes := maxBytes }
  | budget (c : Core K V n) (i : Fin n) (per : ℕ) (hT : T.resize) :
      CoreStep cfg T c (c.set i { c.shards i with
        budget := per
        policy := (c.shards i).policy.setBudget per })

/-- One cache is reached from another by instructions. -/
def Steps (cfg : Config K V) (T : Licence K V) (c c' : Cache K V n) : Prop :=
  Relation.ReflTransGen (CoreStep cfg T) c.core c'.core

namespace Steps

variable {cfg : Config K V} {T : Licence K V} {c c' c'' : Cache K V n}

theorem of_eq (h : c'.core = c.core) : Steps cfg T c c' := by
  unfold Steps
  rw [h]

theorem refl : Steps cfg T c c := of_eq rfl

theorem trans (h : Steps cfg T c c') (h' : Steps cfg T c' c'') : Steps cfg T c c'' :=
  Relation.ReflTransGen.trans h h'

theorem frame (h : Steps cfg T c c') (hf : c''.core = c'.core) : Steps cfg T c c'' :=
  h.trans (of_eq hf)

theorem of_step {d : Core K V n} (h : CoreStep cfg T c.core d) (hd : c'.core = d) :
    Steps cfg T c c' := by
  unfold Steps
  rw [hd]
  exact .single h

/-- What every instruction keeps, a sequence of them keeps. -/
theorem invariant {I : Core K V n → Prop} (hI : ∀ {d d'}, CoreStep cfg T d d' → I d → I d')
    (h : Steps cfg T c c') (hc : I c.core) : I c'.core := by
  unfold Steps at h
  generalize c'.core = d at h ⊢
  induction h with
  | refl => exact hc
  | tail _ h ih => exact hI h ih

end Steps

end CoreStep

end Memcache
