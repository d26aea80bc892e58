import Memcache.Store.Agreement
import Memcache.Cache.Watchers

/-!
# Reading through to the Store

A `Get` that misses memory reads the Store and promotes what it finds. It does not take the key's lock:
it watches the key, and promotes only while its token is unmarked and memory has no fresh entry. A
write marks the token **once, with its step in memory**. That is enough as long as the Store already
has the new value, or memory still shows it, when the read begins. It is not when memory has lost the
value before the Store has it: a read that begins in between watches anew, gets the old record, and
promotes it.

Deletions take the other order, Store first, and their step in memory both removes what such a read
has promoted and marks the token of one that still will. Only a `Compute` that deletes goes through
memory first.
-/

namespace Memcache

open Cache (OtherWatch TTLAnswer shardFor Leaves Aside)

variable {K V : Type*} {n : ℕ} [BEq K] [NeZero n] {cfg : Config K V} {env : Env K} {key : K}

namespace StoreRun

variable {s : StoreRun K V n} {cur : Current K V} {call : KeyCall V}

/-! ### Where the record changes -/

theorem record_act : (s.act cfg key env cur call).record = s.record := by
  unfold act
  dsimp only
  repeat' split
  all_goals rfl

theorem record_consult : (s.consult cfg key env call).record = s.record := by
  unfold consult
  split
  · exact record_act
  · rfl

theorem record_begin : (s.begin cfg key env call).record = s.record := by
  unfold begin
  dsimp only
  repeat' split
  all_goals first | rfl | exact record_consult

theorem record_resume (ttl : Option TTLAnswer) :
    (s.resume cfg key env ttl).record = s.record := by
  unfold resume
  dsimp only
  repeat' split
  all_goals first | rfl | exact record_act

/-- The record is changed by a write that memory has already, and by a deletion that comes to memory
next. -/
theorem record_step (s : StoreRun K V n) (cfg : Config K V) (key : K) (a : Act K V n) :
    (s.step cfg key a).record = s.record ∨
    (a = .store false ∧ ∃ call m, s.phase = .mirror call m) ∨
    ∃ call failed, (s.step cfg key a).phase = .removing call failed := by
  cases a with
  | begin env call =>
    unfold step
    dsimp only
    split
    · exact .inl record_begin
    · exact .inl rfl
  | store fails =>
    rcases hp : s.phase with _ | call | ⟨call, answer⟩ | ⟨call, m⟩ | call | call | ⟨call, failed⟩
    case mirror =>
      rcases fails
      · exact .inr (.inl ⟨rfl, call, m, rfl⟩)
      · left
        unfold step store
        dsimp only
        repeat' split
        all_goals first | rfl | simp_all
    case deleting =>
      refine .inr (.inr ⟨call, fails, ?_⟩)
      simp only [step, store, hp]
    all_goals
      left
      simp only [step, store, hp]
  | resume env ttl => exact .inl (record_resume ttl)
  | work c => exact .inl rfl

/-- A deletion that has been in the Store stays until it comes to memory, and there it voids the key's
watches. -/
theorem removing_step [PartialEquivBEq K] (s : StoreRun K V n) (cfg : Config K V) (key : K)
    {failed : Bool} (hp : s.phase = .removing call failed) (a : Act K V n) :
    (s.step cfg key a).phase = .removing call failed ∨
      Cache.Voids (shardFor cfg key) key s.cache (s.step cfg key a).cache := by
  cases a with
  | begin env call => exact .inl (by simp only [step, hp])
  | store fails => exact .inl (by simp only [step, store, hp])
  | resume env ttl =>
    right
    unfold step resume
    rw [hp]
    have hput := Cache.puts_removeKeyLocked cfg env (c := s.cache) (shardFor cfg key) key
      call.reason
    exact hput.voids_self.after (.of_frame (Cache.sheds_releaseShard _).toFrame)
  | work c => exact .inl hp

/-- What has nothing to do with the key. -/
theorem Ok.aside (h : s.Ok cfg key) {mine : List ℕ} {c : Cache K V n}
    (hc : Aside cfg key mine s.cache c) : Ok cfg key { s with cache := c } := by
  have hmem : c.memory cfg key = s.cache.memory cfg key := by
    rw [Cache.memory, hc.lookup, Cache.memory]
  exact ⟨hc.sealed.trans h.sealed, fun r hr ↦ hmem ▸ h.memory r hr, h.answer, h.log⟩

end StoreRun

/-- A read of the Store under way: its token and, once the Store has answered, the answer (`none` when
the Store failed). -/
structure StoreRead (V : Type*) where
  token : ℕ
  answer : Option (Option (Option V))

/-- The calls on a key, the reads of it that lead a read of the Store, and the tokens that readers of
the shard's other keys hold. A `Get` that joins another's read takes no step of its own. -/
structure ReadRun (K V : Type*) (n : ℕ) where
  run : StoreRun K V n
  reads : List (StoreRead V)
  others : List (K × ℕ)

namespace ReadRun

section Defs

variable (cfg : Config K V) (key : K)

/-- Promote the answer of a read, unless its token is marked or memory has a fresh entry. -/
def promoteRead (env : Env K) (ttl : Option TTLAnswer) (c : Cache K V n) (token : ℕ)
    (answer : Option (Option V)) : Cache K V n :=
  let i : Fin n := shardFor cfg key
  match answer with
  | some (some v) =>
    if c.watchCurrent cfg key token ∧ (c.freshEntryLocked cfg env i key).isNone then
      c.promoteLocked cfg env i key v (Cache.storeExpireAt env.now ttl)
        (c.preparePromotion cfg key v (Cache.storeExpireAt env.now ttl))
    else c
  | _ => c

/-- The last section of a read. -/
def finishRead (env : Env K) (ttl : Option TTLAnswer) (c : Cache K V n) (token : ℕ)
    (answer : Option (Option V)) : Cache K V n :=
  ((promoteRead cfg key env ttl c token answer).unwatchKey cfg key token).releaseShard
    (shardFor cfg key)

/-- What happens next: a step of a call or of other threads, a read watches the key, asks the Store, or
finishes, or a reader of another key begins or ends its watch. -/
inductive Act (K V : Type*) (n : ℕ) where
  | call (a : StoreRun.Act K V n)
  | watch
  | ask (j : ℕ) (fails : Bool)
  | finish (j : ℕ) (env : Env K) (ttl : Option TTLAnswer)
  | other (a : OtherWatch K)

def step (s : ReadRun K V n) : Act K V n → ReadRun K V n
  | .call a => { s with run := s.run.step cfg key a }
  | .watch =>
    { s with
      run := { s.run with cache := s.run.cache.watchKey cfg key }
      reads := ⟨s.run.cache.watchToken cfg key, none⟩ :: s.reads }
  | .ask j fails =>
    match s.reads[j]? with
    | some ⟨token, none⟩ =>
      { s with reads := s.reads.set j ⟨token, some (if fails then none else some s.run.record)⟩ }
    | _ => s
  | .finish j env ttl =>
    match s.reads[j]? with
    | some ⟨token, some answer⟩ =>
      { s with
        run := { s.run with cache := finishRead cfg key env ttl s.run.cache token answer }
        reads := s.reads.eraseIdx j }
    | _ => s
  | .other a =>
    { s with
      run := { s.run with cache := (s.run.cache.otherWatch cfg key s.others a).1 }
      others := (s.run.cache.otherWatch cfg key s.others a).2 }

end Defs

/-- Before any call on the key, with readers of other keys at work. -/
def start (c : Cache K V n) (record : Option V) (others : List (K × ℕ)) : ReadRun K V n :=
  ⟨.start c record, [], others⟩

/-- The read has a value that it may still promote. -/
def Pending (cfg : Config K V) (key : K) (s : ReadRun K V n) (r : StoreRead V) (v : V) : Prop :=
  r.answer = some (some (some v)) ∧ ¬ (s.run.cache.flightsOf cfg key).Void r.token

/-- **Reads keep out of the way of writes**: when a write that memory already has gets to the Store, no
read holds a value that it may still promote, and none promotes one before that. -/
def Apart (cfg : Config K V) (key : K) (s : ReadRun K V n) : Act K V n → Prop
  | .call a => s.run.Permitted cfg key a ∧ (a = .store false → ∀ call m,
      s.run.phase = .mirror call m → ∀ r ∈ s.reads, ∀ v, ¬ s.Pending cfg key r v)
  | .finish j env _ => ∀ call m, s.run.phase = .mirror call m →
      ∀ r v, s.reads[j]? = some r → s.Pending cfg key r v →
        (s.run.cache.freshEntryLocked cfg env (shardFor cfg key) key).isSome
  | _ => True

/-! ### What every step keeps -/

/-- A value that a read may still promote is the record, unless a deletion that already was in the Store
is about to remove the key from memory. -/
structure Ok (cfg : Config K V) (key : K) (s : ReadRun K V n) : Prop where
  run : s.run.Ok cfg key
  watched : s.run.cache.Watched cfg key (s.reads.map StoreRead.token) s.others
  current : ∀ r ∈ s.reads, ∀ v, s.Pending cfg key r v →
    s.run.record = some v ∨ ∃ call failed, s.run.phase = .removing call failed

namespace Ok

variable {s : ReadRun K V n}

variable (h : s.Ok cfg key)
include h

/-- **A step of a call.** Whatever changes the record finds every value that could still be promoted
voided, or will void it. -/
theorem call [PartialEquivBEq K] {a : StoreRun.Act K V n} (ha : s.Apart cfg key (.call a)) :
    (s.step cfg key (.call a)).Ok cfg key := by
  have hgoes := h.run.step ha.1
  refine ⟨hgoes.ok, h.watched.marks hgoes.marks, fun r hr v hp ↦ ?_⟩
  -- what may be promoted now may have been promoted before
  have hold : s.Pending cfg key r v := ⟨hp.1, fun hv ↦ hp.2 (hgoes.marks.void hv)⟩
  rcases s.run.record_step cfg key a with hrec | ⟨rfl, call, m, hphase⟩ | hrem
  · rcases h.current r hr v hold with hv | ⟨call, failed, hphase⟩
    · exact .inl (hrec.trans hv)
    · rcases s.run.removing_step cfg key hphase a with hphase' | hvoids
      · exact .inr ⟨call, failed, hphase'⟩
      · exact absurd (h.watched.void_of_voids (List.mem_map_of_mem hr) hgoes.marks hvoids) hp.2
  · exact absurd hold (ha.2 rfl call m hphase r hr v)
  · exact .inr hrem

/-- What may be promoted after a section that has nothing to do with the key may have been before. -/
theorem current_of_aside {c : Cache K V n}
    (hc : Aside cfg key (s.reads.map StoreRead.token) s.run.cache c) {r : StoreRead V}
    (hr : r ∈ s.reads) {v : V} (ha : r.answer = some (some (some v)))
    (hv : ¬ (c.flightsOf cfg key).Void r.token) :
    s.run.record = some v ∨ ∃ call failed, s.run.phase = .removing call failed :=
  h.current r hr v ⟨ha, fun hvoid ↦ hv (hc.void _ (List.mem_map_of_mem hr) hvoid)⟩

theorem watch [EquivBEq K] : (s.step cfg key .watch).Ok cfg key := by
  have haside := (h.watched.aside_watchKey (k := key) rfl).1
  refine ⟨h.run.aside haside, h.watched.watch, fun r hr v hp ↦ ?_⟩
  rcases List.mem_cons.1 hr with rfl | hr
  · cases hp.1
  · exact h.current_of_aside haside hr hp.1 hp.2

theorem other [EquivBEq K] (a : OtherWatch K) : (s.step cfg key (.other a)).Ok cfg key := by
  obtain ⟨haside, hwatched⟩ := h.watched.other a
  exact ⟨h.run.aside haside, hwatched, fun r hr v hp ↦ h.current_of_aside haside hr hp.1 hp.2⟩

theorem ask (j : ℕ) (fails : Bool) : (s.step cfg key (.ask j fails)).Ok cfg key := by
  unfold step
  dsimp only
  split
  · next token hj =>
    obtain ⟨hlt, heq⟩ := List.getElem?_eq_some_iff.1 hj
    set r : StoreRead V := ⟨token, some (if fails then none else some s.run.record)⟩ with hr
    have htokens : (s.reads.set j r).map StoreRead.token = s.reads.map StoreRead.token := by
      rw [List.map_set]
      refine List.ext_getElem? fun k ↦ ?_
      rcases eq_or_ne j k with rfl | hne
      · simp [hlt, heq, hr]
      · simp [hne]
    refine ⟨h.run, htokens ▸ h.watched, fun r' hr' v hp ↦ ?_⟩
    rcases List.mem_or_eq_of_mem_set hr' with hr' | rfl
    · exact h.current r' hr' v hp
    · -- the answer is the record
      have ha : (if fails then none else some s.run.record) = some (some v) := Option.some.inj hp.1
      rcases fails
      · exact .inl (Option.some.inj ha)
      · cases ha
  · exact h

/-- **A promotion that goes ahead promotes the record**, unless the key is about to be removed. -/
theorem leaves_promoteRead [PartialEquivBEq K] {j : ℕ} {token : ℕ} {answer : Option (Option V)}
    (hj : s.reads[j]? = some ⟨token, some answer⟩) {ttl : Option TTLAnswer}
    (ha : s.Apart cfg key (.finish j env ttl)) :
    ∃ r, Leaves cfg key r s.run.cache
        (promoteRead cfg key env ttl s.run.cache token answer) ∧
      ∀ r', s.run.expects = some r' → r = none ∨ r = r' := by
  have hsame : ∃ r, Leaves cfg key r s.run.cache s.run.cache ∧
      ∀ r', s.run.expects = some r' → r = none ∨ r = r' :=
    ⟨_, (Cache.Fades.refl s.run.cache).leaves, h.run.memory⟩
  rcases answer with _ | _ | v
  · exact hsame
  · exact hsame
  unfold promoteRead
  dsimp only
  split_ifs with hcond
  · obtain ⟨hcur, hfresh⟩ := hcond
    have hpend : s.Pending cfg key ⟨token, some (some (some v))⟩ v := by
      refine ⟨rfl, fun hvoid ↦ ?_⟩
      rw [Cache.watchCurrent_of_void hvoid] at hcur
      cases hcur
    set c := s.run.cache.promoteLocked cfg env (shardFor cfg key) key v
      (Cache.storeExpireAt env.now ttl)
      (s.run.cache.preparePromotion cfg key v (Cache.storeExpireAt env.now ttl))
    have hor : Leaves cfg key (some v) s.run.cache c ∨ c = s.run.cache :=
      Cache.leaves_promoteLocked_or h.run.sealed v _ _
    rcases hor with hl | heq
    · refine ⟨some v, hl, fun r' hr' ↦ .inr ?_⟩
      rcases h.current _ (List.mem_of_getElem? hj) v hpend with hrec | ⟨call, failed, hp⟩
      · rcases hp : s.run.phase with _ | call | ⟨call, answer⟩ | ⟨call, m⟩ | call | call | ⟨call, f⟩
        case mirror =>
          -- the read would come between a write's step in memory and its step in the Store
          have hsome := ha call m hp _ v hj hpend
          rw [Option.isSome_iff_ne_none] at hsome
          exact absurd (Option.isNone_iff_eq_none.1 hfresh) hsome
        all_goals
          rw [StoreRun.expects, hp] at hr'
          cases hr'
          try exact hrec.symm
      · rw [StoreRun.expects, hp] at hr'
        cases hr'
    · rw [heq]
      exact hsame
  · exact hsame

/-- The last section of a read. -/
theorem finish [EquivBEq K] {j : ℕ} {ttl : Option TTLAnswer}
    (ha : s.Apart cfg key (.finish j env ttl)) : (s.step cfg key (.finish j env ttl)).Ok cfg key := by
  unfold step
  dsimp only
  split
  · next token answer hj =>
    obtain ⟨r, hl, hr⟩ := h.leaves_promoteRead hj ha
    set c := promoteRead cfg key env ttl s.run.cache token answer with hc
    set mine := (s.reads.eraseIdx j).map StoreRead.token with hmine
    have hrel : Cache.Sheds (c.unwatchKey cfg key token)
      ((c.unwatchKey cfg key token).releaseShard (shardFor cfg key)) :=
        Cache.sheds_releaseShard _
    have haside : Aside cfg key mine c (c.unwatchKey cfg key token) :=
      (Cache.Watched.aside_unwatchKey rfl mine token).1
    -- after the promotion, after the end of the watch, after the lock is released
    have hok₁ := (h.run.next hl hr h.run.answer).ok
    have hok₂ := hok₁.aside haside
    have hok₃ := (hok₂.next hrel.toFades.leaves (fun r' hr' ↦ hok₂.memory r' hr') hok₂.answer).ok
    have hperm : (s.reads.map StoreRead.token).Perm (token :: mine) :=
      hmine ▸ (ReaderRun.perm_cons_eraseIdx hj).map _
    have hwatched := ((h.watched.marks hl.marks).perm hperm).unwatch
    refine ⟨hok₃, hwatched.marks (hrel.marks _), fun r' hr' v hp ↦ ?_⟩
    refine h.current r' (List.mem_of_mem_eraseIdx hr') v ⟨hp.1, fun hv ↦ hp.2 ?_⟩
    exact (hrel.marks _).void (haside.void _ (List.mem_map_of_mem hr') (hl.marks.void hv))
  · exact h

theorem step [EquivBEq K] {a : Act K V n} (ha : s.Apart cfg key a) :
    (s.step cfg key a).Ok cfg key := by
  cases a with
  | call a => exact h.call ha
  | watch => exact h.watch
  | ask j fails => exact h.ask j fails
  | finish j env ttl => exact h.finish ha
  | other a => exact h.other a

end Ok

theorem ok_start (record : Option V) : (start (new cfg n) record []).Ok cfg key :=
  ⟨StoreRun.ok_start rfl (.inl (Cache.memory_of_lookup_none rfl)), ⟨.empty, nofun⟩, nofun⟩

section Run

variable [EquivBEq K]

/-- **No read leaves an old value behind**: whenever no call is under way, a fresh value in memory is the
Store's record, in every run in which reads keep out of the way of writes. -/
theorem record_of_apart (record : Option V) {l : List (Act K V n)}
    (hl : Runs.Along (step cfg key) (Apart cfg key) (start (new cfg n) record []) l)
    (hfree : (l.foldl (step cfg key) (start (new cfg n) record [])).run.phase = .free) (env : Env K)
    {e : Entry K V}
    (he : (l.foldl (step cfg key) (start (new cfg n) record [])).run.cache.freshEntryLocked cfg env
      (Cache.shardFor cfg key) key = some e) :
    (l.foldl (step cfg key) (start (new cfg n) record [])).run.record = some e.value := by
  have hok := hl.invariant (I := Ok cfg key) (fun _ _ ha h ↦ h.step ha) (ok_start record)
  exact hok.run.record_of_fresh (by rw [StoreRun.expects, hfree]) he

end Run

end ReadRun

/-- A read that promotes the record, then a `Set`. -/
def promotedThenSet : List (ReadRun.Act ℕ ℕ 1) :=
  [.watch, .ask 0 false, .finish 0 (.instant 1) none, .call (.begin (.instant 2) (.set 2)),
    .call (.store false)]

theorem record_of_apart_two :
    ((promotedThenSet.foldl (ReadRun.step storeConfig 1)
      (.start (new storeConfig 1) (some 1) [])).run.cache.memory storeConfig 1) = some 2 ∧
      (promotedThenSet.foldl (ReadRun.step storeConfig 1)
        (.start (new storeConfig 1) (some 1) [])).run.record = some 2 := by
  set s := promotedThenSet.foldl (ReadRun.step storeConfig 1) (.start (new storeConfig 1) (some 1) [])
    with hs
  have hmem : (s.run.cache.freshEntryLocked storeConfig (.instant 3) (Cache.shardFor storeConfig 1)
      1).map Entry.value = some 2 := by decide +kernel
  obtain ⟨e, he, hv⟩ := Option.map_eq_some_iff.1 hmem
  refine ⟨by decide +kernel, ?_⟩
  rw [← hv]
  refine ReadRun.record_of_apart (some 1) ?_ rfl (.instant 3) he
  exact ⟨trivial, trivial, nofun, ⟨trivial, nofun⟩, ⟨trivial, fun _ _ _ _ ↦ nofun⟩, trivial⟩

/-- One entry at most. -/
def tightConfig : Config ℕ ℕ := { defaultConfig fun _ ↦ 0 with maxEntries := 1 }

/-- Memory after `Set` wrote the key 1 there, and another key's `Set` evicted it. -/
def evictedCache : Cache ℕ ℕ 1 :=
  (((StoreRun.start (new tightConfig 1) (some 1)).step tightConfig 1
    (.begin (.instant 1) (.set 2))).cache.set tightConfig (.instant 2) 9 0).2

/-- A read begins after the eviction and before the `Set` gets to the Store, and ends after it. -/
def readAcrossSet : List (ReadRun.Act ℕ ℕ 1) :=
  [.call (.begin (.instant 1) (.set 2)), .call (.work evictedCache), .watch, .ask 0 false,
    .call (.store false), .finish 0 (.instant 3) none]

theorem old_value_in_memory :
    let s := readAcrossSet.foldl (ReadRun.step tightConfig 1) (.start (new tightConfig 1) (some 1) [])
    s.run.phase = .free ∧ s.reads.length = 0 ∧ s.run.record = some 2 ∧
      (s.run.cache.freshEntryLocked tightConfig (.instant 4) (Cache.shardFor tightConfig 1)
        1).map Entry.value = some 1 :=
  ⟨rfl, by decide +kernel, by decide +kernel, by decide +kernel⟩

end Memcache
