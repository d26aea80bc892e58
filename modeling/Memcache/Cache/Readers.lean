import Memcache.Cache.Heeds
import Memcache.Cache.Overtaken

/-!
# Readers that copy into a cache

A reader watches a key, fetches a value from elsewhere, and writes it into the cache unless its token
is marked. Two writes of the cache are made that way: `SetWithOptions` with a guard over the token,
for a value promoted from a lower tier or written through by a bulk load, and `storeBulkLoaded`.

The system here is a cache and the readers at work in it, of any number of keys. A reader is **stale**
once an operation of its key that `flag` singles out was made after its watch began; what must not
happen is that a stale reader's write takes effect. The invariant says why it does not: a stale
reader's token is marked, or the operation that made it stale is still in the queue.
-/

namespace Memcache

open Cache (shardFor)

variable {K V : Type*} {n : ℕ}

/-- A reader at work. -/
structure Reader (K : Type*) where
  key : K
  token : ℕ
  stale : Bool
deriving DecidableEq, Repr

/-- A write that a reader makes under its token. -/
inductive GuardedWrite (V : Type*) where
  | set (value : V) (opts : List SetOption)
  | bulk (value : V) (ttl : ℤ)

/-- What can happen: a reader starts, ends or writes, or any other operation is made. -/
inductive ReaderAct (K V : Type*) (n : ℕ) where
  | watch (key : K)
  | unwatch (reader : ℕ)
  | write (reader : ℕ) (w : GuardedWrite V)
  | op (op : Op K V n)

/-- The operation starts or ends a watch. -/
def Op.watches : Op K V n → Bool
  | .watchKey _ | .unwatchKey _ _ => true
  | _ => false

/-- A cache and the readers at work in it. -/
structure ReaderRun (K V : Type*) (n : ℕ) where
  cache : Cache K V n
  readers : List (Reader K)

namespace ReaderRun

variable [BEq K] [NeZero n] {cfg : Config K V} {env : Env K}

/-- The reader's token is unmarked. -/
def current (cfg : Config K V) (c : Cache K V n) (r : Reader K) : Bool :=
  ((c.shards (shardFor cfg r.key)).flights.token r.token).any fun t ↦ !t.superseded

/-- The operation a reader's write comes down to. -/
def writeOp (cfg : Config K V) (c : Cache K V n) (r : Reader K) : GuardedWrite V → Op K V n
  | .set value opts => .setWithOptions r.key value opts (current cfg c r)
  | .bulk value ttl => .storeBulkLoaded r.key value ttl r.token

variable [Inhabited V] (flag : Env K → Cache K V n → Op K V n → K → Bool)

/-- An operation is made; the readers of the keys it is flagged for are stale from now on. -/
def perform (cfg : Config K V) (env : Env K) (s : ReaderRun K V n) (op : Op K V n) :
    ReaderRun K V n where
  cache := Memcache.step cfg env s.cache op
  readers := s.readers.map fun r ↦ { r with stale := r.stale || flag env s.cache op r.key }

def step (cfg : Config K V) (s : ReaderRun K V n) : Env K × ReaderAct K V n → ReaderRun K V n
  | (_, .watch key) =>
    { cache := s.cache.watchKey cfg key
      readers := ⟨key, ((s.cache.shards (shardFor cfg key)).flights.watchLocked key).1, false⟩ ::
        s.readers }
  | (_, .unwatch j) =>
    match s.readers[j]? with
    | none => s
    | some r => { cache := s.cache.unwatchKey cfg r.key r.token, readers := s.readers.eraseIdx j }
  | (env, .write j w) =>
    match s.readers[j]? with
    | none => s
    | some r =>
      let s' := s.perform flag cfg env (writeOp cfg s.cache r w)
      -- its own write makes no reader stale
      { s' with readers := s'.readers.set j r }
  | (env, .op op) => if op.watches then s else s.perform flag cfg env op

/-- The tokens held in a shard. -/
def held (cfg : Config K V) (i : Fin n) (readers : List (Reader K)) : List (K × ℕ) :=
  (readers.filter fun r ↦ shardFor cfg r.key = i).map fun r ↦ (r.key, r.token)

omit [BEq K] [Inhabited V] in
theorem mem_held {readers : List (Reader K)} {r : Reader K} (hr : r ∈ readers) :
    (r.key, r.token) ∈ held cfg (shardFor cfg r.key : Fin n) readers :=
  List.mem_map_of_mem (List.mem_filter.2 ⟨hr, by simp⟩)

/-- Every stale reader is stopped: by a mark, or as soon as the queue is applied. -/
structure Ok (cfg : Config K V) (s : ReaderRun K V n) : Prop where
  reach : Reachable cfg s.cache
  keyed : s.cache.QueueKeyed
  holds : ∀ i, (s.cache.shards i).flights.Holds (held cfg i s.readers)
  stale : ∀ r ∈ s.readers, r.stale = true →
    (s.cache.shards (shardFor cfg r.key)).flights.Void r.token ∨
      ((s.cache.shards (shardFor cfg r.key)).pending.get r.key).isSome

/-- What is asked of the flagged operations: they mark the key's token, or are queued. -/
def Stops (cfg : Config K V) (s : ReaderRun K V n) (env : Env K) (op : Op K V n) : Prop :=
  ∀ r ∈ s.readers, r.stale = false → flag env s.cache op r.key = true →
    Cache.Voids (shardFor cfg r.key) r.key s.cache (Memcache.step cfg env s.cache op) ∨
      (((Memcache.step cfg env s.cache op).shards (shardFor cfg r.key)).pending.get r.key).isSome

variable {flag} {s : ReaderRun K V n}

/-- A marked token, or a registered one that an operation of the key marks. -/
theorem Ok.void_of_voids (h : s.Ok cfg) {r : Reader K} (hr : r ∈ s.readers) {c' : Cache K V n}
    (hh : Cache.Heeds s.cache c') (hv : Cache.Voids (shardFor cfg r.key) r.key s.cache c') :
    (c'.shards (shardFor cfg r.key)).flights.Void r.token := by
  rcases (h.holds _).void_or (mem_held hr) with hvoid | hreg
  · exact (hh.marks _).void hvoid
  · exact hv _ hreg

/-- A stale reader with nothing of its key queued finds its token marked. -/
theorem Ok.current_eq_false (h : s.Ok cfg) {r : Reader K} (hr : r ∈ s.readers) (hstale : r.stale = true)
    (hqueue : (s.cache.shards (shardFor cfg r.key)).pending.get r.key = none) :
    current cfg s.cache r = false := by
  have hvoid := (h.stale r hr hstale).resolve_right (by simp [hqueue])
  rw [current, Option.any_eq_false]
  intro t ht
  simp [hvoid t ht]

section Steps

variable [EquivBEq K]

/-- An operation keeps the invariant when its flags stop the readers they are for. -/
theorem Ok.perform (h : s.Ok cfg) {op : Op K V n} (hop : op.watches = false)
    (hstop : s.Stops flag cfg env op) : (s.perform flag cfg env op).Ok cfg := by
  obtain ⟨hinv, hread⟩ := Cache.readInv_of_reachable h.reach
  have hh : Cache.Heeds s.cache (Memcache.step cfg env s.cache op) :=
    Cache.heeds_step hinv hread (fun k hk ↦ by simp [hk, Op.watches] at hop)
      fun k w hk ↦ by simp [hk, Op.watches] at hop
  refine ⟨h.reach.step env op, hh.keyed h.keyed, fun i ↦ ?_, fun r hr hstale ↦ ?_⟩
  · have hheld : held cfg i (s.perform flag cfg env op).readers = held cfg i s.readers := by
      simp only [held, ReaderRun.perform, List.filter_map, List.map_map, Function.comp_def]
    rw [hheld]
    exact (h.holds i).marks (hh.marks i)
  · obtain ⟨r₀, hr₀, rfl⟩ := List.mem_map.1 hr
    show ((Memcache.step cfg env s.cache op).shards (shardFor cfg r₀.key)).flights.Void r₀.token ∨ _
    rcases Bool.eq_false_or_eq_true r₀.stale with hold | hold
    · rcases h.stale r₀ hr₀ hold with hvoid | hqueued
      · exact .inl ((hh.marks _).void hvoid)
      · rcases hh.queue h.keyed _ _ hqueued with hqueued' | hv
        · exact .inr hqueued'
        · exact .inl (h.void_of_voids hr₀ hh hv)
    · have hflag : flag env s.cache op r₀.key = true := by simpa [hold] using hstale
      rcases hstop r₀ hr₀ hold hflag with hv | hqueued
      · exact .inl (h.void_of_voids hr₀ hh hv)
      · exact .inr hqueued

omit [Inhabited V] [EquivBEq K] in
theorem watchKey_self (c : Cache K V n) (key : K) :
    (c.watchKey cfg key).shards (shardFor cfg key) =
      { c.shards (shardFor cfg key) with
        flights := ((c.shards (shardFor cfg key)).flights.watchLocked key).2 } :=
  Cache.modify_shards_self ..

/-- A reader that starts is not stale, and leaves the others' tokens alone. -/
theorem Ok.watch (h : s.Ok cfg) (key : K) : (s.step flag cfg (env, .watch key)).Ok cfg := by
  have hother {i : Fin n} (hi : i ≠ shardFor cfg key) :
      (s.cache.watchKey cfg key).shards i = s.cache.shards i :=
    Cache.modify_shards_of_ne _ _ hi
  have hpending (i : Fin n) : ((s.cache.watchKey cfg key).shards i).pending =
      (s.cache.shards i).pending := by
    rcases eq_or_ne i (shardFor cfg key) with rfl | hi
    · rw [watchKey_self]
    · rw [hother hi]
  refine ⟨h.reach.step env (.watchKey key), fun i k op hop ↦ h.keyed i k op (hpending i ▸ hop),
    fun i ↦ ?_, fun r hr hstale ↦ ?_⟩
  · show ((s.cache.watchKey cfg key).shards i).flights.Holds _
    rcases eq_or_ne i (shardFor cfg key) with rfl | hi
    · rw [watchKey_self, step, held, List.filter_cons_of_pos (by simp)]
      exact (h.holds _).watchLocked key
    · rw [hother hi, step, held, List.filter_cons_of_neg (by simpa using hi.symm)]
      exact h.holds i
  · rcases List.mem_cons.1 hr with rfl | hr
    · cases hstale
    · show ((s.cache.watchKey cfg key).shards _).flights.Void r.token ∨
        (((s.cache.watchKey cfg key).shards _).pending.get r.key).isSome
      rw [hpending]
      refine (h.stale r hr hstale).imp_left fun hvoid ↦ ?_
      by_cases hi : shardFor cfg r.key = (shardFor cfg key : Fin n)
      · rw [hi, watchKey_self]
        have hlt : r.token < _ := (h.holds (shardFor cfg r.key)).lt (mem_held hr)
        exact Flights.void_watchLocked (hi ▸ hlt.ne) (hi ▸ hvoid)
      · rw [hother hi]
        exact hvoid

omit [Inhabited V] [EquivBEq K] [BEq K] in
/-- A reader replaced by one of the same watch. -/
theorem held_set {readers : List (Reader K)} {j : ℕ} {r r' : Reader K} (hj : readers[j]? = some r')
    (hkey : r.key = r'.key) (htoken : r.token = r'.token) (i : Fin n) :
    held cfg i (readers.set j r) = held cfg i readers := by
  obtain ⟨hlt, rfl⟩ := List.getElem?_eq_some_iff.1 hj
  have hl : readers = readers.take j ++ readers[j] :: readers.drop (j + 1) := by
    rw [← List.drop_eq_getElem_cons hlt, List.take_append_drop]
  have hset : readers.set j r = readers.take j ++ r :: readers.drop (j + 1) :=
    List.set_eq_take_append_cons_drop.trans (if_pos hlt)
  rw [hset]
  conv_rhs => rw [hl]
  simp only [held, List.filter_append, List.map_append, List.filter_cons, hkey]
  split_ifs <;> simp [hkey, htoken]

omit [EquivBEq K] in
/-- The invariant does not mind a reader that is less stale. -/
theorem Ok.set (h : s.Ok cfg) {j : ℕ} {r r' : Reader K} (hj : s.readers[j]? = some r')
    (hkey : r.key = r'.key) (htoken : r.token = r'.token) (hstale : r.stale = true → r'.stale = true) :
    ReaderRun.Ok cfg { s with readers := s.readers.set j r } where
  reach := h.reach
  keyed := h.keyed
  holds i := by
    rw [held_set hj hkey htoken]
    exact h.holds i
  stale x hx hs := by
    rcases List.mem_or_eq_of_mem_set hx with hx | rfl
    · exact h.stale x hx hs
    · have hold := h.stale r' (List.mem_of_getElem? hj) (hstale hs)
      rwa [← hkey, ← htoken] at hold

omit [BEq K] [NeZero n] [Inhabited V] [EquivBEq K] in
theorem perm_cons_eraseIdx {α : Type*} {l : List α} {j : ℕ} {a : α} (h : l[j]? = some a) :
    l.Perm (a :: l.eraseIdx j) := by
  obtain ⟨hj, rfl⟩ := List.getElem?_eq_some_iff.1 h
  exact (List.getElem_cons_eraseIdx_perm hj).symm

/-- A reader that ends leaves the others' tokens alone. -/
theorem Ok.unwatch (h : s.Ok cfg) (j : ℕ) : (s.step flag cfg (env, .unwatch j)).Ok cfg := by
  rcases hj : s.readers[j]? with - | r
  · rw [step, hj]
    exact h
  rw [step, hj]
  have hself : (s.cache.unwatchKey cfg r.key r.token).shards (shardFor cfg r.key) =
      { s.cache.shards (shardFor cfg r.key) with flights :=
        (s.cache.shards (shardFor cfg r.key)).flights.unwatchLocked r.key r.token } :=
    Cache.modify_shards_self ..
  have hother {i : Fin n} (hi : i ≠ shardFor cfg r.key) :
      (s.cache.unwatchKey cfg r.key r.token).shards i = s.cache.shards i :=
    Cache.modify_shards_of_ne _ _ hi
  have hpending (i : Fin n) : ((s.cache.unwatchKey cfg r.key r.token).shards i).pending =
      (s.cache.shards i).pending := by
    rcases eq_or_ne i (shardFor cfg r.key) with rfl | hi
    · rw [hself]
    · rw [hother hi]
  refine ⟨h.reach.step env (.unwatchKey r.key r.token),
    fun i k op hop ↦ h.keyed i k op (hpending i ▸ hop), fun i ↦ ?_, fun r' hr' hstale ↦ ?_⟩
  · show ((s.cache.unwatchKey cfg r.key r.token).shards i).flights.Holds _
    have hholds := (h.holds i).perm (((perm_cons_eraseIdx hj).filter _).map _)
    rcases eq_or_ne i (shardFor cfg r.key) with rfl | hi
    · rw [hself]
      rw [List.filter_cons_of_pos (by simp)] at hholds
      exact hholds.unwatchLocked
    · rw [hother hi]
      rwa [List.filter_cons_of_neg (by simpa using hi.symm)] at hholds
  · show ((s.cache.unwatchKey cfg r.key r.token).shards _).flights.Void r'.token ∨
      (((s.cache.unwatchKey cfg r.key r.token).shards _).pending.get r'.key).isSome
    have hmem : r' ∈ s.readers := List.mem_of_mem_eraseIdx hr'
    rw [hpending]
    refine (h.stale r' hmem hstale).imp_left fun hvoid ↦ ?_
    by_cases hi : shardFor cfg r'.key = (shardFor cfg r.key : Fin n)
    · rw [hi, hself]
      exact Flights.void_unwatchLocked (hi ▸ hvoid)
    · rw [hother hi]
      exact hvoid

/-- What is asked of a step: the flags of the operation it makes stop the readers they are for. -/
def StopsAt (flag : Env K → Cache K V n → Op K V n → K → Bool) (cfg : Config K V)
    (s : ReaderRun K V n) : Env K × ReaderAct K V n → Prop
  | (_, .watch _) => True
  | (_, .unwatch _) => True
  | (env, .write j w) => ∀ r, s.readers[j]? = some r → s.Stops flag cfg env (writeOp cfg s.cache r w)
  | (env, .op op) => s.Stops flag cfg env op

/-- **The invariant of a step.** -/
theorem Ok.step (h : s.Ok cfg) {p : Env K × ReaderAct K V n} (hstop : s.StopsAt flag cfg p) :
    (s.step flag cfg p).Ok cfg := by
  obtain ⟨env, a⟩ := p
  cases a with
  | watch key => exact h.watch key
  | unwatch j => exact h.unwatch j
  | write j w =>
    rw [ReaderRun.step]
    rcases hj : s.readers[j]? with - | r
    · exact h
    · have hold : (s.perform flag cfg env (writeOp cfg s.cache r w)).readers[j]? = some
          { r with stale := r.stale || flag env s.cache (writeOp cfg s.cache r w) r.key } := by
        simp [ReaderRun.perform, hj]
      exact (h.perform (by cases w <;> rfl) (hstop r hj)).set hold rfl rfl fun hs ↦ by simp [hs]
  | op op =>
    rw [ReaderRun.step]
    split_ifs with hw
    · exact h
    · exact h.perform (by simpa using hw) hstop

/-- A fresh cache with no readers. -/
def start (cfg : Config K V) (n : ℕ) : ReaderRun K V n := ⟨new cfg n, []⟩

omit [EquivBEq K] in
theorem ok_start (cfg : Config K V) : (start cfg n).Ok cfg where
  reach := ⟨[], rfl⟩
  keyed _ _ _ h := nomatch h
  holds _ := .empty
  stale _ hr := by simp [start] at hr

end Steps

end ReaderRun

end Memcache
