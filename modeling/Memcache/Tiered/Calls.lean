import Memcache.Cache.Watchers
import Memcache.Store.Agreement

/-!
# Two tiers

`Tiered` puts a small cache in front of a larger one. The state here is what one key sees of the two:
its `Get`s, each somewhere between its first lookup in L1 and the end of its watches; the write of it
that holds the key's lock; and an invalidation of a tag, which takes no lock of `Tiered`'s.

A step is one critical section of one tier, so anything may happen between the lookup in L2, the reads
of the entry's expiry and of its tags, and the write into L1. The write into L1 is two steps: the guard
is checked under the lock of L1's shard, and **L2 may change before the value is stored**; until then no
other section of that shard runs. What other threads do to a tier is a step that may do anything; the
results say what it must leave alone.
-/

namespace Memcache

variable {K V : Type*} {n₁ n₂ : ℕ}

/-- How far a `Get` is. It holds the tokens `w₁` of L1 and `w₂` of L2, and the value it found in L2. -/
inductive TieredGet (V : Type*) where
  | start
  | missed
  | watching (w₁ : ℕ)
  | watched (w₁ w₂ : ℕ)
  | found (w₁ w₂ : ℕ) (v : V)
  | dated (w₁ w₂ : ℕ) (v : V) (exp : ℤ)
  | opted (w₁ w₂ : ℕ) (v : V) (opts : List SetOption)
  | allowed (w₁ w₂ : ℕ) (v : V) (sc : SetConfig) (weight : ℤ)
  /-- The guard was true, and the lock of L1's shard is held. -/
  | locked (w₁ w₂ : ℕ) (v : V) (sc : SetConfig) (weight : ℤ)
  | leaving (w₁ w₂ : ℕ)
  | left (w₁ : ℕ)
  | done

namespace TieredGet

/-- The token of L1 it holds. -/
def token₁ : TieredGet V → Option ℕ
  | .watching w₁ | .watched w₁ _ | .found w₁ _ _ | .dated w₁ _ _ _ | .opted w₁ _ _ _
  | .allowed w₁ _ _ _ _ | .locked w₁ _ _ _ _ | .leaving w₁ _ | .left w₁ => some w₁
  | .start | .missed | .done => none

/-- The token of L2 it holds. -/
def token₂ : TieredGet V → Option ℕ
  | .watched _ w₂ | .found _ w₂ _ | .dated _ w₂ _ _ | .opted _ w₂ _ _
  | .allowed _ w₂ _ _ _ | .locked _ w₂ _ _ _ | .leaving _ w₂ => some w₂
  | .start | .missed | .watching _ | .left _ | .done => none

/-- The value that it is yet to check the guard for. -/
def copies : TieredGet V → Option V
  | .found _ _ v | .dated _ _ v _ | .opted _ _ v _ | .allowed _ _ v _ _ => some v
  | _ => none

/-- It holds the lock of L1's shard. -/
def locks : TieredGet V → Bool
  | .locked _ _ _ _ _ => true
  | _ => false

end TieredGet

/-- Who holds the key's lock: a `Set` that has written L1, or a `Delete` that has deleted in L2. -/
inductive TieredPhase (V : Type*) where
  | free
  | setting (value : V)
  | deleting
deriving DecidableEq

/-- An invalidation of a tag: it has looked the tag up in L2, and found the key or not; it is through
with L2; it has looked the tag up in L1. -/
inductive InvalPhase where
  | idle
  | listed₂ (tag : String) (hit : Bool)
  | cleared (tag : String)
  | listed₁ (tag : String) (hit : Bool)

/-- A call that has returned. -/
inductive TieredCall (V : Type*) where
  | set (value : V) (error : Bool)
  | delete
  | invalidateTag (tag : String)
deriving DecidableEq

/-- The two tiers as one key sees them. `others` are the tokens that readers of other keys of its shard
hold in L2. -/
structure TieredRun (K V : Type*) (n₁ n₂ : ℕ) where
  l1 : Cache K V n₁
  l2 : Cache K V n₂
  gets : List (TieredGet V)
  phase : TieredPhase V
  inval : InvalPhase
  log : List (TieredCall V)
  others : List (K × ℕ)

namespace Cache

variable {n : ℕ} [BEq K] [NeZero n]

/-- `Expiry`: of a fresh entry; `0` is none. Nothing is queued in a synchronous cache. -/
def expiry (cfg : Config K V) (env : Env K) (c : Cache K V n) (key : K) : Option ℤ :=
  if c.closed then none
  else (c.freshEntryLocked cfg env (shardFor cfg key) key).map Entry.expireAt

/-- `Tags`: of any entry. -/
def tags (cfg : Config K V) (c : Cache K V n) (key : K) : List String :=
  if c.closed then [] else ((c.lookupKey cfg key).map Entry.tags).getD []

section

variable (cfg : Config K V) (env : Env K) (c : Cache K V n) (key : K)

/-- The section of `Set`. -/
def setSection (value : V) : Except CacheError Unit × Cache K V n :=
  let i : Fin n := shardFor cfg key
  let ttl := (cfg.valueTTL value).getD cfg.defaultTTL
  match c.checkSet cfg key value (cfg.autoTags value) with
  | .error e => (.error e, c)
  | .ok weight => (.ok (), (c.upsertLocked cfg env i key value weight (cfg.effectiveTTL env ttl)
      cfg.slidingTTL ttl (cfg.autoTags value)).releaseShard i)

/-- The section of `Delete`. -/
def deleteSection : Cache K V n :=
  let i : Fin n := shardFor cfg key
  if c.closed then c else (c.removeKeyLocked cfg env i key .deleted).releaseShard i

/-- The section of `InvalidateTag` for a key that was listed under the tag. -/
def invalidateSection : Cache K V n :=
  let i : Fin n := shardFor cfg key
  match (c.shards i).get key with
  | some e => (c.removeLocked cfg env i e .tag).releaseShard i
  | none => c.releaseShard i

end

/-- `InvalidateTag` looks the tag up. -/
def listed (c : Cache K V n) (key : K) (tag : String) : Bool :=
  !c.closed && (c.tagged tag).any fun k ↦ k == key

end Cache

/-- The options that `promote` gives to L1. -/
def promoteOptions (cfg : Config K V) (now exp : ℤ) (tags : List String) : List SetOption :=
  (if tags = [] then [] else [.tags tags]) ++
    if exp = 0 then []
    else [.expireAt (if 0 < cfg.defaultTTL ∧ now + cfg.defaultTTL < exp then now + cfg.defaultTTL
      else exp)]

namespace TieredRun

variable [BEq K] [NeZero n₁] [NeZero n₂] (cfg₁ cfg₂ : Config K V) (key : K)

/-- Before any call, with readers of other keys at work. -/
def start (l1 : Cache K V n₁) (l2 : Cache K V n₂) (others : List (K × ℕ)) : TieredRun K V n₁ n₂ :=
  ⟨l1, l2, [], .free, .idle, [], others⟩

/-- No `Get` holds the lock of L1's shard. -/
def unlocked (s : TieredRun K V n₁ n₂) : Bool := s.gets.all fun g ↦ !g.locks

def put (s : TieredRun K V n₁ n₂) (j : ℕ) (g : TieredGet V) : TieredRun K V n₁ n₂ :=
  { s with gets := s.gets.set j g }

section

variable (env : Env K) (s : TieredRun K V n₁ n₂)

/-- The next section of a `Get`, which waits while another has the lock of L1's shard. -/
def advance (j : ℕ) : TieredGet V → TieredRun K V n₁ n₂
  | .start =>
    if s.unlocked then
      let r := s.l1.get cfg₁ env key
      { s with l1 := r.2 }.put j (if r.1.value.isSome then .done else .missed)
    else s
  | .missed =>
    if s.unlocked then
      { s with l1 := s.l1.watchKey cfg₁ key }.put j (.watching (s.l1.watchToken cfg₁ key))
    else s
  | .watching w₁ =>
    { s with l2 := s.l2.watchKey cfg₂ key }.put j (.watched w₁ (s.l2.watchToken cfg₂ key))
  | .watched w₁ w₂ =>
    let r := s.l2.get cfg₂ env key
    { s with l2 := r.2 }.put j (match r.1.value with
      | some v => .found w₁ w₂ v
      | none => .leaving w₁ w₂)
  | .found w₁ w₂ v => s.put j (match s.l2.expiry cfg₂ env key with
      | some exp => .dated w₁ w₂ v exp
      | none => .leaving w₁ w₂)
  | .dated w₁ w₂ v exp =>
    s.put j (.opted w₁ w₂ v (promoteOptions cfg₁ env.now exp (s.l2.tags cfg₂ key)))
  | .opted w₁ w₂ v opts =>
    let sc := resolveOptions cfg₁ v opts
    s.put j (match s.l1.checkOptions cfg₁ key v sc with
      | .ok weight => .allowed w₁ w₂ v sc weight
      | .error _ => .leaving w₁ w₂)
  | .allowed w₁ w₂ v sc weight =>
    if s.unlocked then
      if s.l1.watchCurrent cfg₁ key w₁ ∧ s.l2.watchCurrent cfg₂ key w₂ then
        s.put j (.locked w₁ w₂ v sc weight)
      else { s with l1 := s.l1.releaseShard (Cache.shardFor cfg₁ key) }.put j (.leaving w₁ w₂)
    else s
  | .locked w₁ w₂ v sc weight =>
    { s with l1 := (s.l1.upsertOptionsLocked cfg₁ env (Cache.shardFor cfg₁ key) key v weight
        sc).releaseShard (Cache.shardFor cfg₁ key) }.put j (.leaving w₁ w₂)
  | .leaving w₁ w₂ => { s with l2 := s.l2.unwatchKey cfg₂ key w₂ }.put j (.left w₁)
  | .left w₁ =>
    if s.unlocked then { s with l1 := s.l1.unwatchKey cfg₁ key w₁ }.put j .done else s
  | .done => s

/-- A `Set` takes the key's lock and writes L1. -/
def beginSet (value : V) : TieredRun K V n₁ n₂ :=
  match s.l1.setSection cfg₁ env key value with
  | (.ok _, c) => { s with l1 := c, phase := .setting value }
  | (.error _, c) => { s with l1 := c, log := s.log ++ [.set value true] }

/-- It writes L2 and returns. -/
def endSet (value : V) : TieredRun K V n₁ n₂ :=
  match s.l2.setSection cfg₂ env key value with
  | (.ok _, c) => { s with l2 := c, phase := .free, log := s.log ++ [.set value false] }
  | (.error _, c) => { s with l2 := c, phase := .free, log := s.log ++ [.set value true] }

/-- The next section of the call that holds the key's lock. -/
def settle : TieredRun K V n₁ n₂ :=
  match s.phase with
  | .free => s
  | .setting value => s.endSet cfg₂ key env value
  | .deleting =>
    if s.unlocked then
      { s with
        l1 := s.l1.deleteSection cfg₁ env key
        phase := .free
        log := s.log ++ [.delete] }
    else s

/-- The next section of an invalidation. To look a tag up takes no shard's lock. -/
def invalidate : TieredRun K V n₁ n₂ :=
  match s.inval with
  | .idle => s
  | .listed₂ tag hit =>
    { s with
      l2 := if hit then s.l2.invalidateSection cfg₂ env key else s.l2
      inval := .cleared tag }
  | .cleared tag => { s with inval := .listed₁ tag (s.l1.listed key tag) }
  | .listed₁ tag hit =>
    if s.unlocked then
      { s with
        l1 := if hit then s.l1.invalidateSection cfg₁ env key else s.l1
        inval := .idle
        log := s.log ++ [.invalidateTag tag] }
    else s

end

/-- What happens next. -/
inductive Act (K V : Type*) (n₁ n₂ : ℕ) where
  | call
  | get (j : ℕ) (env : Env K)
  | set (env : Env K) (value : V)
  | delete (env : Env K)
  | settle (env : Env K)
  | invalidateTag (tag : String)
  | invalidate (env : Env K)
  | work₁ (c : Cache K V n₁)
  | work₂ (c : Cache K V n₂)
  | other (a : Cache.OtherWatch K)

def step (s : TieredRun K V n₁ n₂) : Act K V n₁ n₂ → TieredRun K V n₁ n₂
  | .call => { s with gets := .start :: s.gets }
  | .get j env =>
    match s.gets[j]? with
    | some g => s.advance cfg₁ cfg₂ key env j g
    | none => s
  | .set env value =>
    match s.phase with
    | .free => if s.unlocked then s.beginSet cfg₁ key env value else s
    | _ => s
  | .delete env =>
    match s.phase with
    | .free => { s with l2 := s.l2.deleteSection cfg₂ env key, phase := .deleting }
    | _ => s
  | .settle env => s.settle cfg₁ cfg₂ key env
  | .invalidateTag tag =>
    match s.inval with
    | .idle => { s with inval := .listed₂ tag (s.l2.listed key tag) }
    | _ => s
  | .invalidate env => s.invalidate cfg₁ cfg₂ key env
  | .work₁ c => { s with l1 := c }
  | .work₂ c => { s with l2 := c }
  | .other a =>
    { s with
      l2 := (s.l2.otherWatch cfg₂ key s.others a).1
      others := (s.l2.otherWatch cfg₂ key s.others a).2 }

end TieredRun

end Memcache
