import Memcache.Cache.Readers

/-!
# Guarded writes under asynchronous writes

With asynchronous writes a `Set` or a `Delete` is accepted into the queue and applied later. A guarded
write of the key is accepted into the same queue, in place of what stands there, so a reader that
watched the key before the other operation was accepted must find its token marked. **It does only
once the queue has been applied**: accepting an operation marks nothing.

So a stale reader's write is refused whenever no operation of its key is queued, and otherwise it can
replace the operation it should have given way to.
-/

namespace Memcache

variable {K V : Type*} {n : ℕ} [BEq K] [NeZero n] [Inhabited V] {cfg : Config K V} {env : Env K}
  {c : Cache K V n}

/-- The operation is a `Set` or a `Delete` of the key that the cache accepts. -/
def accepts (cfg : Config K V) (env : Env K) (c : Cache K V n) (op : Op K V n) (key : K) : Bool :=
  match op with
  | .set k value => Cache.Names n cfg key k && (c.set cfg env k value).1.isOk
  | .setWithTTL k value ttl => Cache.Names n cfg key k && (c.setWithTTL cfg env k value ttl).1.isOk
  | .setWithOptions k value opts guard =>
    Cache.Names n cfg key k && (c.setWithOptions cfg env k value opts guard).1.isOk
  | .delete k => Cache.Names n cfg key k && !c.closed
  | _ => false

namespace Cache

variable {key k : K}

omit [NeZero n] [Inhabited V] in
/-- What was just queued is found under every equal key. -/
theorem isSome_enqueuePending [PartialEquivBEq K] {i : Fin n} {op : PendingOp K V}
    (hk : op.key == key) : (((c.enqueuePending i op).shards i).pending.get key).isSome := by
  rw [enqueuePending, modify_shards_self]
  show ((KeyMap.insert _ _ _).get key).isSome
  rw [KeyMap.get_insert, if_pos hk]
  rfl

section Accept

variable [PartialEquivBEq K]

omit [Inhabited V] in
theorem isSome_asyncSet (hk : Names n cfg key k) {value : V}
    {ttl : ℤ} {sliding : Bool} {tags : List String}
    (hok : (c.asyncSet cfg env k value ttl sliding tags).1.isOk = true) :
    (((c.asyncSet cfg env k value ttl sliding tags).2.shards (shardFor cfg key)).pending.get
      key).isSome := by
  unfold asyncSet at hok ⊢
  split at hok
  · cases hok
  · rw [hk.2]
    exact isSome_enqueuePending hk.1

omit [Inhabited V] in
theorem isSome_setTTL (hasync : cfg.asyncWrites = true) (hk : Names n cfg key k) {value : V} {ttl : ℤ}
    (hok : (c.setTTL cfg env k value ttl).1.isOk = true) :
    (((c.setTTL cfg env k value ttl).2.shards (shardFor cfg key)).pending.get key).isSome := by
  unfold setTTL at hok ⊢
  dsimp only at hok ⊢
  rw [if_pos hasync] at hok ⊢
  exact isSome_asyncSet hk hok

omit [Inhabited V] in
theorem isSome_setWithOptions (hasync : cfg.asyncWrites = true) (hk : Names n cfg key k)
    {value : V} {opts : List SetOption} {guard : Bool}
    (hok : (c.setWithOptions cfg env k value opts guard).1.isOk = true) :
    (((c.setWithOptions cfg env k value opts guard).2.shards (shardFor cfg key)).pending.get
      key).isSome := by
  unfold setWithOptions at hok ⊢
  dsimp only at hok ⊢
  split at hok
  · cases hok
  · rw [if_pos hasync] at hok ⊢
    unfold asyncSetOptions at hok ⊢
    split_ifs at hok ⊢
    · cases hok
    · rw [hk.2]
      exact isSome_enqueuePending hk.1
    · cases hok
    · exact isSome_asyncSet hk hok

end Accept

omit [Inhabited V] in
/-- A queued write whose guard fails is refused and changes nothing. -/
theorem setWithOptions_of_unguarded (hasync : cfg.asyncWrites = true) (key : K) (value : V)
    (opts : List SetOption) : ∃ err, c.setWithOptions cfg env key value opts false = (.error err, c) := by
  unfold setWithOptions
  dsimp only
  split
  · exact ⟨_, rfl⟩
  · rw [if_pos hasync]
    unfold asyncSetOptions
    split_ifs with hexpiry hok hok'
    · exact ⟨_, rfl⟩
    · exact absurd rfl hok
    · exact ⟨_, rfl⟩
    · unfold asyncSet
      split
      · exact ⟨_, rfl⟩
      · next weight hcheck => exact absurd ⟨rfl, by rw [hcheck]; rfl⟩ hok'

end Cache

namespace ReaderRun

variable {s : ReaderRun K V n}

/-- Every accepted operation is in the queue afterwards. -/
theorem stops_accepts [PartialEquivBEq K] (hasync : cfg.asyncWrites = true) (op : Op K V n) :
    s.Stops (accepts cfg) cfg env op := by
  intro r _ _ hflag
  generalize r.key = key at hflag ⊢
  right
  have hsame {k : K} {b : Bool} (h : (decide (Cache.Names n cfg key k) && b) = true) :
      Cache.Names n cfg key k ∧ b = true := by
    simpa using h
  cases op with
  | set k value =>
    obtain ⟨hk, hok⟩ := hsame hflag
    exact Cache.isSome_setTTL hasync hk hok
  | setWithTTL k value ttl =>
    obtain ⟨hk, hok⟩ := hsame hflag
    show ((((s.cache.setWithTTL cfg env k value ttl).2.shards _).pending.get key).isSome)
    unfold Cache.setWithTTL at hok ⊢
    split_ifs at hok ⊢
    · cases hok
    · exact Cache.isSome_setTTL hasync hk hok
  | setWithOptions k value opts guard =>
    obtain ⟨hk, hok⟩ := hsame hflag
    exact Cache.isSome_setWithOptions hasync hk hok
  | delete k =>
    obtain ⟨hk, hopen⟩ := hsame hflag
    show (((s.cache.delete cfg env k).shards _).pending.get key).isSome
    unfold Cache.delete
    rw [if_neg (by simp [hasync]), if_neg (by simpa using hopen), ← hk.2]
    exact Cache.isSome_enqueuePending hk.1
  | _ => cases hflag

/-- No operation of a stale reader's key is queued when the reader writes. -/
def Applied (cfg : Config K V) (s : ReaderRun K V n) : Env K × ReaderAct K V n → Prop
  | (_, .write j (.set _ _)) => ∀ r, s.readers[j]? = some r → r.stale = true →
      (s.cache.shards (Cache.shardFor cfg r.key)).pending.get r.key = none
  | _ => True

/-- A stale reader's guarded write is refused, and neither the queue nor an entry changes. -/
def Refused (cfg : Config K V) (s : ReaderRun K V n) : Env K × ReaderAct K V n → Prop
  | (env, .write j (.set value opts)) => ∀ r, s.readers[j]? = some r → r.stale = true →
      ∃ err, s.cache.setWithOptions cfg env r.key value opts (current cfg s.cache r) =
        (.error err, s.cache)
  | _ => True

/-- **A guarded write whose token was taken before another `Set` or `Delete` of its key was accepted
is refused once that operation has been applied**, in any interleaving. -/
theorem refused_of_applied [EquivBEq K] (hasync : cfg.asyncWrites = true)
    {l : List (Env K × ReaderAct K V n)}
    (hl : Runs.Along (step (accepts cfg) cfg) (Applied cfg) (start cfg n) l) :
    Runs.Along (step (accepts cfg) cfg) (Refused cfg) (start cfg n) l := by
  refine Runs.Along.of_invariant (I := Ok cfg) (fun s p _ hs ↦ hs.step ?_) (fun s p hp hs ↦ ?_) hl
    (ok_start cfg)
  · obtain ⟨env, a⟩ := p
    cases a with
    | watch key => trivial
    | unwatch j => trivial
    | write j w => exact fun r _ ↦ stops_accepts hasync _
    | op op => exact stops_accepts hasync op
  · obtain ⟨env, a⟩ := p
    rcases a with key | j | ⟨j, ⟨value, opts⟩ | ⟨value, ttl⟩⟩ | op
    · trivial
    · trivial
    · intro r hr hstale
      rw [hs.current_eq_false (List.mem_of_getElem? hr) hstale (hp r hr hstale)]
      exact Cache.setWithOptions_of_unguarded hasync r.key value opts
    · trivial
    · trivial

/-- Asynchronous writes, for the examples below. -/
def asyncConfig : Config ℕ ℕ := { defaultConfig fun _ ↦ 0 with asyncWrites := true }

/-- The other write is applied before the reader's. -/
theorem refused_of_applied_drained :
    Runs.Along (step (accepts asyncConfig) asyncConfig) (Refused asyncConfig) (start asyncConfig 1)
      [(.instant 0, .watch 1), (.instant 0, .op (.set 1 10)), (.instant 0, .op (.drainShard 0)),
        (.instant 0, .write 0 (.set 20 []))] := by
  refine refused_of_applied rfl ⟨trivial, trivial, trivial, fun r hr _ ↦ ?_, trivial⟩
  obtain rfl := Option.some.inj hr
  decide +kernel

/-- A `Set` is accepted after the watch began, and **the reader's older value takes its place** in the
queue. -/
theorem not_refused_queued :
    ¬ Runs.Along (step (accepts asyncConfig) asyncConfig) (Refused asyncConfig) (start asyncConfig 1)
      [(.instant 0, .watch 1), (.instant 0, .op (.set 1 10)), (.instant 0, .write 0 (.set 20 []))] := by
  intro h
  obtain ⟨err, herr⟩ := h.2.2.1 ⟨1, 0, true⟩ (by decide +kernel) rfl
  have hok : _ = false := congrArg (fun r : Except CacheError Unit × Cache ℕ ℕ 1 ↦ r.1.isOk) herr
  revert hok
  decide +kernel

end ReaderRun

end Memcache
