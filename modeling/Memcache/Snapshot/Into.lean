import Memcache.Cache.Run
import Memcache.Snapshot.Save

/-!
# `Load` and `Merge` into a cache

`loadInto` reads the whole snapshot before it touches the cache: an input that is refused leaves
**the cache as it was**.

Tags are strings of the cache and bytes of the snapshot; `text` tells one from the other.
-/

namespace Memcache

variable {C K V : Type} {n : ℕ}

/-- What `loadInto` takes from a decoded record. -/
def EntrySnapshot.record (text : Bytes → String) (snap : EntrySnapshot K V) : Cache.SnapRecord K V where
  key := snap.key
  value := snap.value
  expireAt := snap.expireAt.toInt
  weight := snap.weight.toInt
  inserted := snap.inserted.toInt
  hits := snap.hits
  sliding := snap.flags.toUInt8 &&& flagSliding.toUInt8 = flagSliding.toUInt8
  slidingTTL := snap.slidingTTL.toInt
  tags := snap.tags.map text

inductive LoadError where
  | closed
  | snapshot (e : SnapshotError)
deriving DecidableEq

namespace Cache

variable [BEq K] [NeZero n]

/-- Whether a record is loaded. -/
def loads (cfg : Config K V) (env : Env K) (c : Cache K V n) (snap : SnapRecord K V) : Bool :=
  ¬ (snap.expireAt ≠ 0 ∧ snap.expireAt ≤ env.now) ∧ (admitSnapshotRecord cfg c snap).isSome

/-- How many records are loaded, one after another. -/
def loaded (cfg : Config K V) (env : Env K) (c : Cache K V n) : List (SnapRecord K V) → ℕ
  | [] => 0
  | snap :: staged =>
    (if c.loads cfg env snap then 1 else 0) + (c.loadRecord cfg env snap).loaded cfg env staged

/-- `Load` from an input, and `Merge` when the cache is not emptied first: what is returned, and the
cache after. -/
def loadFrom (scfg : SnapshotConfig C K V) (text : Bytes → String) (cfg : Config K V) (env : Env K)
    (c : Cache K V n) (clearFirst : Bool) (input : Bytes) : Except LoadError ℕ × Cache K V n :=
  if c.closed then (.error .closed, c)
  else
    match (loadSnapshot scfg input).1 with
    | .error e => (.error (.snapshot e), c)
    | .ok staged =>
      (.ok ((if clearFirst then c.reset cfg env else c).loaded cfg env (staged.map (·.record text))),
        c.loadInto cfg env clearFirst (staged.map (·.record text)))

theorem loadFrom_of_error {scfg : SnapshotConfig C K V} {text : Bytes → String} {cfg : Config K V}
    {env : Env K} {c c' : Cache K V n} {clearFirst : Bool} {input : Bytes} {e : LoadError}
    (h : c.loadFrom scfg text cfg env clearFirst input = (.error e, c')) : c' = c := by
  unfold loadFrom at h
  by_cases hclosed : c.closed
  · rw [if_pos hclosed] at h
    cases h
    rfl
  · rw [if_neg hclosed] at h
    rcases hload : (loadSnapshot scfg input).1 with e' | staged
    · rw [hload] at h
      cases h
      rfl
    · rw [hload] at h
      cases h

end Cache

end Memcache
