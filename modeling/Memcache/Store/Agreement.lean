import Memcache.Store.Calls

/-!
# Memory agrees with the Store

Whatever a section does to memory shows, under one key, as one of a few things (`Cache.Leaves`): the
key holds what it held or nothing, or the value that was written or nothing. From these, each step of a
call keeps an invariant that says what memory may hold at every point of the call: the Store's record
between calls, the new value while it is on its way to the Store, **and anything at all once the call is
bound to remove the key**.
-/

namespace Memcache

variable {K V : Type*} {n : ℕ} [BEq K] [NeZero n] {cfg : Config K V} {env : Env K} {key : K}

/-! ### One section -/

variable {P : Entry K V → Prop} {e : Entry K V}

namespace Cache

variable {c c' c'' : Cache K V n} {r : Option V} {v : V}

/-- Memory holds `r` under the key after a section, or nothing; the switches are as they were, and
watches were at most voided. -/
structure Leaves (cfg : Config K V) (key : K) (r : Option V) (c c' : Cache K V n) : Prop where
  memory : c'.memory cfg key = none ∨ c'.memory cfg key = r
  closed : c'.closed = c.closed
  sealed : c'.sealed = c.sealed
  marks : Flights.Marks (c.shards (shardFor cfg key)).flights (c'.shards (shardFor cfg key)).flights

theorem memory_of_lookup (h : c.lookupKey cfg key = some e) :
    c.memory cfg key = if e.negative then none else some e.value := by
  unfold memory
  rw [h]
  rcases hn : e.negative <;> simp [hn]

theorem memory_of_lookup_none (h : c.lookupKey cfg key = none) : c.memory cfg key = none := by
  rw [memory, h]
  rfl

/-- A fresh entry is what memory holds. -/
theorem memory_of_fresh (h : c.freshEntryLocked cfg env (shardFor cfg key) key = some e) :
    c.memory cfg key = some e.value := by
  obtain ⟨hget, hneg, -⟩ := freshEntryLocked_eq_some c _ h
  rw [memory_of_lookup hget, hneg]
  rfl

theorem Leaves.of_frame (h : Frame c c')
    (hm : c'.memory cfg key = none ∨ c'.memory cfg key = r) : Leaves cfg key r c c' :=
  ⟨hm, h.closed, h.sealed, h.marks _⟩

theorem Fades.leaves (h : Fades c c') : Leaves cfg key (c.memory cfg key) c c' := by
  refine .of_frame h.toFrame ?_
  rcases h.get (shardFor cfg key) key with hget | hget
  · right
    rw [memory, memory, lookupKey, lookupKey, hget]
  · exact .inl (memory_of_lookup_none hget)

theorem Puts.leaves (h : Puts c c' (shardFor cfg key) key P) (hP : ∀ e, P e → e.value = v) :
    Leaves cfg key (some v) c c' := by
  refine .of_frame h.toFrame ?_
  rcases he : c'.lookupKey cfg key with _ | e
  · exact .inl (memory_of_lookup_none he)
  · rw [memory_of_lookup he, hP e (h.get e he)]
    rcases e.negative
    · exact .inr rfl
    · exact .inl rfl

theorem Puts.leaves_none (h : Puts c c' (shardFor cfg key) key fun _ ↦ False) :
    Leaves cfg key r c c' := by
  refine .of_frame h.toFrame (.inl ?_)
  rcases he : c'.lookupKey cfg key with _ | e
  · exact memory_of_lookup_none he
  · exact (h.get e he).elim

omit [NeZero n] in
theorem Puts.voids_self {i : Fin n} (h : Puts c c' i key P) : Voids i key c c' := by
  intro w hw
  rw [h.flights]
  exact Flights.void_supersedeFlight hw

theorem Leaves.fades (h : Leaves cfg key r c c') (h' : Fades c' c'') : Leaves cfg key r c c'' where
  memory := by
    have hleft : Leaves cfg key (c'.memory cfg key) c' c'' := h'.leaves
    rcases hleft.memory with hm | hm
    · exact .inl hm
    · rw [hm]
      exact h.memory
  closed := h'.closed.trans h.closed
  sealed := h'.sealed.trans h.sealed
  marks := h.marks.trans (h'.marks _)

/-- A hit leaves the value. -/
theorem leaves_touchEntry (he : c.lookupKey cfg key = some e) :
    Leaves cfg key (c.memory cfg key) c (c.touchEntry cfg env (shardFor cfg key) e) := by
  obtain ⟨hstill, hget⟩ := get_touchEntry cfg env he
  refine .of_frame hstill.toFrame (.inr ?_)
  have ht : Entry.Touched env.now e _ := .touch
  rw [memory_of_lookup hget, memory_of_lookup he, ht.value_eq, ht.negative_eq]

section Write

variable [PartialEquivBEq K]

/-- A promotion leaves the promoted value, unless it does nothing. -/
theorem leaves_promoteLocked_or (hsealed : c.sealed = false) (v : V) (expireAt : ℤ)
    (weight : Except CacheError ℤ) :
    Leaves cfg key (some v) c (c.promoteLocked cfg env (shardFor cfg key) key v expireAt weight) ∨
      c.promoteLocked cfg env (shardFor cfg key) key v expireAt weight = c := by
  set i : Fin n := shardFor cfg key with hi
  have hheeds : Heeds c (c.promoteLocked cfg env i key v expireAt weight) :=
    heeds_promoteLocked c i key v expireAt weight
  have hmarks := hheeds.marks i
  rcases weight with err | weight
  · exact .inr rfl
  rcases hclosed : c.closed
  · rw [promoteLocked, hclosed, if_neg Bool.false_ne_true] at hmarks ⊢
    -- the upsert runs with the watch hidden
    have hhide : (c.hideWatch i key).sealed = false := hsealed
    have hput : Puts (c.hideWatch i key)
        ((c.hideWatch i key).upsertPromoted cfg env i key v weight expireAt) i key
        fun e ↦ e.value = v := by
      unfold upsertPromoted
      dsimp only
      split_ifs
      · exact (puts_upsertLocked cfg env i key hhide v weight _ _ _ _).mono fun e he ↦ he.value_eq
      · exact (puts_upsertLocked cfg env i key hhide v weight _ _ _ _).mono fun e he ↦ he.value_eq
    set d := (c.hideWatch i key).upsertPromoted cfg env i key v weight expireAt
    have hd : Leaves cfg key (some v) (c.hideWatch i key) d := hput.leaves fun _ he ↦ he
    set w := (c.shards i).flights.watches.get key
    have hmem : (d.restoreWatch i key w).memory cfg key = d.memory cfg key := by
      rw [memory, memory, lookupKey, lookupKey, (restoreWatch_shards d i key w _).1]
    refine .inl ⟨hmem ▸ hd.memory, ?_, ?_, hmarks⟩
    · rcases w with _ | w <;> exact hd.closed
    · rcases w with _ | w <;> exact hd.sealed
  · rw [promoteLocked, hclosed, if_pos rfl]
    exact .inr rfl

theorem leaves_promoteLocked (hsealed : c.sealed = false)
    (hm : c.memory cfg key = none ∨ c.memory cfg key = some v) (expireAt : ℤ)
    (weight : Except CacheError ℤ) :
    Leaves cfg key (some v) c
      (c.promoteLocked cfg env (shardFor cfg key) key v expireAt weight) := by
  set c' := c.promoteLocked cfg env (shardFor cfg key) key v expireAt weight
  have hor : Leaves cfg key (some v) c c' ∨ c' = c := leaves_promoteLocked_or hsealed v expireAt weight
  rcases hor with h | h
  · exact h
  · rw [h]
    exact ⟨hm, rfl, rfl, .refl _⟩

/-! ### What other threads do -/

/-! ### Computed values -/

/-- A computed value is left, in place of the current one. -/
theorem puts_replaceOrStoreLocked (hsealed : c.sealed = false) {e : Option (Entry K V)}
    (he : ∀ e', e = some e' → c.lookupKey cfg key = some e') (value : V) (weight : ℤ) :
    Puts c (c.replaceOrStoreLocked cfg env (shardFor cfg key) e key value weight) (shardFor cfg key)
      key fun e ↦ e.value = value := by
  rcases e with _ | e
  · exact puts_storeComputedLocked cfg env _ key hsealed value weight
  · refine (puts_replaceValueLocked cfg env (he e rfl) value weight).mono ?_
    rintro e' rfl
    rfl

end Write

end Cache

open Cache (TTLAnswer shardFor Leaves Sheds Voids)

/-! ### One call -/

/-- Whether a call acts on the key's current value. -/
def KeyCall.consults : KeyCall V → Bool
  | .set _ | .setWithOptions _ _ | .delete _ => false
  | _ => true

/-- The value a call stores over the key's current one, if it stores any. -/
def KeyCall.stores (call : KeyCall V) (cur : Option V) : Option V :=
  match call, cur with
  | .conditional .setIfPresent value, some _ => some value
  | .conditional .setIfPresent _, none => none
  | .conditional _ value, none => some value
  | .conditional _ _, some _ => none
  | .compute fn, cur =>
    match fn cur with
    | .store value => some value
    | _ => none
  | .computeIfAbsent (some (value, ttl)), none => if ttl < 0 then none else some value
  | _, _ => none

/-- The entry a call is given is the stored one; a value without an entry is the Store's alone. -/
structure Current.Of (cfg : Config K V) (key : K) (c : Cache K V n) (cur : Current K V) : Prop where
  entry : ∀ e, cur.entry = some e → c.lookupKey cfg key = some e
  absent : cur.entry = none → cur.value.isSome → c.lookupKey cfg key = none

namespace StoreRun

variable {s : StoreRun K V n} {cur : Current K V} {call : KeyCall V}

/-- What can come of a call that acts on the current value. -/
inductive Acts (cfg : Config K V) (key : K) (s : StoreRun K V n) (cur : Current K V)
    (call : KeyCall V) : StoreRun K V n → Prop
  | returned {c : Cache K V n} {error : Bool} {value : Option V}
      (h : Leaves cfg key (s.cache.memory cfg key) s.cache c)
      (hstores : error = false → call.stores cur.value = none) :
      Acts cfg key s cur call ({ s with cache := c }.ret cfg key call error value false)
  | stored {c : Cache K V n} {v : V} (h : Leaves cfg key (some v) s.cache c)
      (hvoid : Voids (shardFor cfg key) key s.cache c)
      (hstores : call.stores cur.value = some v) :
      Acts cfg key s cur call { s with cache := c, phase := .mirror call (.set v) }
  | deleted {c : Cache K V n} (h : Leaves cfg key none s.cache c)
      (hvoid : cur.entry.isSome → Voids (shardFor cfg key) key s.cache c)
      (hstores : call.stores cur.value = none) :
      Acts cfg key s cur call { s with cache := c, phase := .mirror call .del }
  | deleting {c : Cache K V n} (h : Leaves cfg key (s.cache.memory cfg key) s.cache c)
      (hstores : call.stores cur.value = none) :
      Acts cfg key s cur call { s with cache := c, phase := .deleting call }
  | other (h : call.consults = false) : Acts cfg key s cur call s

section Act

variable {c : Cache K V n} {v : V}

/-- A value put in memory is on its way to the Store. -/
theorem Acts.of_puts (h : Cache.Puts s.cache c (shardFor cfg key) key P)
    (hP : ∀ e, P e → e.value = v) (hstores : call.stores cur.value = some v) :
    Acts cfg key s cur call (s.wrote cfg key c call (.set v)) := by
  have hrel : Sheds c (c.releaseShard (shardFor cfg key)) := Cache.sheds_releaseShard c
  exact .stored ((h.leaves hP).fades hrel.toFades) (h.voids_self.after (.of_frame hrel.toFrame))
    hstores

/-- A call that returns as it came. -/
theorem Acts.of_ret {error : Bool} {value : Option V}
    (hstores : error = false → call.stores cur.value = none) :
    Acts cfg key s cur call (s.ret cfg key call error value false) :=
  .returned (Cache.Fades.refl s.cache).leaves hstores

variable [PartialEquivBEq K]

theorem acts_conditional (hsealed : s.cache.sealed = false) (hcur : cur.Of cfg key s.cache)
    (kind : Cache.Conditional) (value : V) :
    Acts cfg key s cur (.conditional kind value)
      (s.act cfg key env cur (.conditional kind value)) := by
  unfold act
  dsimp only
  split
  · exact .of_ret nofun
  · next weight _ =>
    have hput := Cache.puts_upsertLocked cfg env (shardFor cfg key) key hsealed value weight
      (cfg.effectiveTTL env cfg.defaultTTL) cfg.slidingTTL cfg.defaultTTL (cfg.autoTags value)
    have hstored (hs : (KeyCall.conditional kind value).stores cur.value = some value) :=
      Acts.of_puts hput (fun e he ↦ he.value_eq) hs
    rcases kind <;> rcases hv : cur.value with _ | v
    case setIfAbsent.none => exact hstored (by rw [hv]; rfl)
    case setIfAbsent.some => exact .of_ret fun _ ↦ by rw [hv]; rfl
    case setIfPresent.none => exact .of_ret fun _ ↦ by rw [hv]; rfl
    case setIfPresent.some => exact hstored (by rw [hv]; rfl)
    case getOrSet.none => exact hstored (by rw [hv]; rfl)
    case getOrSet.some =>
      refine .returned ?_ fun _ ↦ by rw [hv]; rfl
      rcases he : cur.entry with _ | e
      · exact (Cache.Fades.refl s.cache).leaves
      · exact Cache.leaves_touchEntry (hcur.entry e he)
    case peekOrAdd.none => exact hstored (by rw [hv]; rfl)
    case peekOrAdd.some => exact .of_ret fun _ ↦ by rw [hv]; rfl

theorem acts_compute (hsealed : s.cache.sealed = false) (hcur : cur.Of cfg key s.cache)
    (fn : Option V → Cache.ComputeResult V) :
    Acts cfg key s cur (.compute fn) (s.act cfg key env cur (.compute fn)) := by
  have hstores : (KeyCall.compute fn).stores cur.value =
      match fn cur.value with
      | .store value => some value
      | _ => none := by
    simp [KeyCall.stores]
  unfold act
  dsimp only
  rcases hfn : fn cur.value with value | _ | _ | _
  · dsimp only
    split
    · exact .of_ret nofun
    · next weight _ =>
      exact .of_puts (Cache.puts_replaceOrStoreLocked hsealed hcur.entry value weight)
        (fun _ he ↦ he) (by rw [hstores, hfn])
  · have hnone : (KeyCall.compute fn).stores cur.value = none := by rw [hstores, hfn]
    rcases hv : cur.value with _ | v
    · exact .of_ret fun _ ↦ hnone
    · rcases he : cur.entry with _ | e
      · -- the Store has the value, memory does not
        have hrel : Sheds s.cache (s.cache.releaseShard (shardFor cfg key)) :=
          Cache.sheds_releaseShard s.cache
        have hm := Cache.memory_of_lookup_none (hcur.absent he (by rw [hv]; rfl))
        exact .deleted (hm ▸ hrel.toFades.leaves) (by rw [he]; nofun) hnone
      · set i : Fin n := shardFor cfg key with hi
        have hput : Cache.Puts s.cache (s.cache.removeLocked cfg env i e .computed) i key
            fun _ ↦ False :=
          Cache.puts_removeLocked cfg env (Table.key_of_get (hcur.entry e he)) rfl
        have hrel : Sheds (s.cache.removeLocked cfg env i e .computed)
          ((s.cache.removeLocked cfg env i e .computed).releaseShard i) := Cache.sheds_releaseShard _
        exact .deleted (hput.leaves_none.fades hrel.toFades)
          (fun _ ↦ hput.voids_self.after (.of_frame hrel.toFrame)) hnone
  · exact .of_ret fun _ ↦ by rw [hstores, hfn]
  · exact .of_ret nofun

theorem acts_computeIfAbsent (hsealed : s.cache.sealed = false) (res : Option (V × ℤ)) :
    Acts cfg key s cur (.computeIfAbsent res) (s.act cfg key env cur (.computeIfAbsent res)) := by
  unfold act
  dsimp only
  rcases hv : cur.value with _ | v
  · rcases res with _ | ⟨value, ttl⟩
    · exact .of_ret nofun
    · dsimp only
      rcases lt_or_ge ttl 0 with hneg | hneg
      · rw [if_pos hneg]
        exact .of_ret nofun
      · rw [if_neg hneg.not_gt]
        split
        · exact .of_ret nofun
        · exact .of_puts (Cache.puts_upsertLocked cfg env _ key hsealed value _ _ _ _ _)
            (fun e he ↦ he.value_eq) (by rw [hv]; exact if_neg hneg.not_gt)
  · exact .of_ret fun _ ↦ by rw [hv]; rcases res <;> rfl

omit [PartialEquivBEq K] in
theorem acts_deleteIf (pred : V → Bool) :
    Acts cfg key s cur (.deleteIf pred) (s.act cfg key env cur (.deleteIf pred)) := by
  unfold act
  dsimp only
  split_ifs
  · have hrel : Sheds s.cache (s.cache.releaseShard (shardFor cfg key)) :=
      Cache.sheds_releaseShard s.cache
    exact .deleting hrel.toFades.leaves rfl
  · exact .of_ret fun _ ↦ rfl

theorem acts_act (hsealed : s.cache.sealed = false) (hcur : cur.Of cfg key s.cache) :
    Acts cfg key s cur call (s.act cfg key env cur call) := by
  cases call with
  | conditional kind value => exact acts_conditional hsealed hcur kind value
  | compute fn => exact acts_compute hsealed hcur fn
  | computeIfAbsent res => exact acts_computeIfAbsent hsealed res
  | deleteIf pred => exact acts_deleteIf pred
  | set | setWithOptions | delete => exact .other rfl

end Act

/-! ### Whole runs -/

/-- What memory may hold under the key, besides nothing; `none` when it may hold anything, since the
holder of the lock is about to remove the key. -/
def expects (s : StoreRun K V n) : Option (Option V) :=
  match s.phase with
  | .free | .reading _ | .answered _ _ | .deleting _ => some s.record
  | .mirror _ (.set value) => some (some value)
  | .mirror _ .del => some none
  | .rollback _ | .removing _ _ => none

structure Ok (cfg : Config K V) (key : K) (s : StoreRun K V n) : Prop where
  sealed : s.cache.sealed = false
  memory : ∀ r, s.expects = some r →
    s.cache.memory cfg key = none ∨ s.cache.memory cfg key = r
  answer : ∀ call r, s.phase = .answered call (some r) → r = s.record
  log : ∀ o ∈ s.log, o.error = true → o.wrote = true → o.left = none

/-- Other threads leave the key in memory as it is, or take it away; and calls give no expiry. -/
def Permitted (cfg : Config K V) (key : K) (s : StoreRun K V n) : Act K V n → Prop
  | .work c => Leaves cfg key (s.cache.memory cfg key) s.cache c
  | .begin _ (.setWithOptions value opts) => (resolveOptions cfg value opts).hasExpiry = false
  | _ => True

/-- A step that keeps the invariant, and at most voids the key's watches. -/
structure Goes (cfg : Config K V) (key : K) (s s' : StoreRun K V n) : Prop where
  ok : s'.Ok cfg key
  closed : s'.cache.closed = s.cache.closed
  marks : Flights.Marks (s.cache.shards (shardFor cfg key)).flights
    (s'.cache.shards (shardFor cfg key)).flights

variable {record : Option V}

namespace Ok

variable {c : Cache K V n} {r : Option V}

theorem stay (h : s.Ok cfg key) : Goes cfg key s s := ⟨h, rfl, .refl _⟩

/-- A section that leaves what the next phase expects. -/
theorem next (h : s.Ok cfg key) (hc : Leaves cfg key r s.cache c) {phase : KeyPhase V}
    (hmem : ∀ r', expects ⟨c, record, phase, s.log⟩ = some r' → r = none ∨ r = r')
    (hanswer : ∀ call r', phase = .answered call (some r') → r' = record) :
    Goes cfg key s ⟨c, record, phase, s.log⟩ := by
  refine ⟨⟨hc.sealed.trans h.sealed, fun r' hr' ↦ ?_, hanswer, h.log⟩, hc.closed, hc.marks⟩
  rcases hc.memory with hm | hm
  · exact .inl hm
  · rcases hmem r' hr' with rfl | rfl
    · exact .inl hm
    · exact .inr hm

/-- A call returns from its last section; one that fails after it wrote leaves nothing. -/
theorem ret (h : s.Ok cfg key) (hc : Leaves cfg key r s.cache c) (hr : r = none ∨ r = record)
    {error wrote : Bool} {value : Option V} (hleft : error = true → wrote = true → r = none) :
    Goes cfg key s ({ s with cache := c, record := record }.ret cfg key call error value wrote) :=
      by
  have hmem : c.memory cfg key = none ∨ c.memory cfg key = record := by
    rcases hc.memory with hm | hm
    · exact .inl hm
    · rcases hr with rfl | rfl
      · exact .inl hm
      · exact .inr hm
  refine ⟨⟨hc.sealed.trans h.sealed, ?_, nofun, fun o ho ↦ ?_⟩, hc.closed, hc.marks⟩
  · rintro _ ⟨⟩
    exact hmem
  · rcases List.mem_append.1 ho with ho | ho
    · exact h.log o ho
    · obtain rfl := List.mem_singleton.1 ho
      intro he hw
      rcases hc.memory with hm | hm
      · exact hm
      · exact hm.trans (hleft he hw)

/-- **A call acts on the current value.** -/
theorem acts {s' : StoreRun K V n} (h : s.Ok cfg key) (hexp : s.expects = some s.record)
    (ha : Acts cfg key s cur call s') : Goes cfg key s s' := by
  have hmem := h.memory _ hexp
  cases ha with
  | returned hc => exact h.ret hc hmem fun _ ↦ nofun
  | stored hc =>
    refine h.next hc ?_ nofun
    rintro r' ⟨⟩
    exact .inr rfl
  | deleted hc =>
    refine h.next hc ?_ nofun
    rintro r' ⟨⟩
    exact .inl rfl
  | deleting hc =>
    refine h.next hc ?_ nofun
    rintro r' ⟨⟩
    exact hmem
  | other => exact h.stay

/-- A value put in memory is what memory may hold while it is on its way to the Store. -/
theorem wrote (h : s.Ok cfg key) {v : V}
    (hput : Cache.Puts s.cache c (shardFor cfg key) key P) (hP : ∀ e, P e → e.value = v) :
    Goes cfg key s (s.wrote cfg key c call (.set v)) := by
  have hrel : Sheds c (c.releaseShard (shardFor cfg key)) := Cache.sheds_releaseShard c
  refine h.next ((hput.leaves hP).fades hrel.toFades) ?_ nofun
  rintro r' ⟨⟩
  exact .inr rfl

/-- Where memory may hold the record only, a fresh entry has it. -/
theorem record_of_fresh (h : s.Ok cfg key) (hexp : s.expects = some s.record)
    (he : s.cache.freshEntryLocked cfg env (shardFor cfg key) key = some e) :
    s.record = some e.value := by
  have hm := Cache.memory_of_fresh he
  rcases h.memory s.record hexp with hnone | hrec
  · rw [hm] at hnone
    cases hnone
  · rw [← hrec, hm]

/-- The first section of a call that acts on the current value: it acts on the record, which memory has,
or goes on to read the Store. -/
theorem consult_cases (h : s.Ok cfg key) (hexp : s.expects = some s.record) (env : Env K)
    (call : KeyCall V) :
    (∃ cur : Current K V, cur.value = s.record ∧ cur.Of cfg key s.cache ∧
        s.consult cfg key env call = s.act cfg key env cur call) ∨
      s.consult cfg key env call = { s with
        cache := s.cache.releaseShard (shardFor cfg key)
        phase := .reading call } := by
  unfold StoreRun.consult
  split
  · next e he =>
    refine .inl ⟨⟨some e, some e.value⟩, (h.record_of_fresh hexp he).symm, ⟨?_, (by simp)⟩, rfl⟩
    rintro _ ⟨⟩
    exact (Cache.freshEntryLocked_eq_some s.cache _ he).1
  · exact .inr rfl

section Step

variable [PartialEquivBEq K]

variable (h : s.Ok cfg key)
include h

theorem consult (hexp : s.expects = some s.record) (call : KeyCall V) :
    Goes cfg key s (s.consult cfg key env call) := by
  rcases h.consult_cases hexp env call with ⟨cur, -, hcur, heq⟩ | heq
  · rw [heq]
    exact h.acts hexp (acts_act h.sealed hcur)
  · rw [heq]
    have hrel : Sheds s.cache (s.cache.releaseShard (shardFor cfg key)) :=
      Cache.sheds_releaseShard s.cache
    refine h.next hrel.toFades.leaves ?_ nofun
    rintro r' ⟨⟩
    exact h.memory _ hexp

theorem begin (hfree : s.phase = .free) (call : KeyCall V)
    (hcall : s.Permitted cfg key (.begin env call)) : Goes cfg key s (s.begin cfg key env call) := by
  have hexp : s.expects = some s.record := by rw [expects, hfree]
  have hmem := h.memory _ hexp
  -- a call that is refused returns as it came
  have hret (call : KeyCall V) (error : Bool) (value : Option V) :
      Goes cfg key s (s.ret cfg key call error value false) :=
    h.ret (Cache.Fades.refl s.cache).leaves hmem fun _ ↦ nofun
  cases call with
  | set value =>
    unfold StoreRun.begin
    dsimp only
    split
    · exact hret ..
    · exact h.wrote (Cache.puts_upsertLocked cfg env _ key h.sealed value _ _ _ _ _)
        fun e he ↦ he.value_eq
  | setWithOptions value opts =>
    unfold StoreRun.begin
    dsimp only
    split
    · exact hret ..
    · next weight _ =>
      have hno : (resolveOptions cfg value opts).hasExpiry = false := hcall
      rw [hno, if_neg (by simp)]
      exact h.wrote (Cache.puts_upsertOptionsLocked cfg env _ key h.sealed value weight _)
        fun e he ↦ he.1
  | conditional kind value =>
    unfold StoreRun.begin
    dsimp only
    split
    · exact hret ..
    · exact h.consult hexp _
  | compute | computeIfAbsent | deleteIf =>
    unfold StoreRun.begin
    dsimp only
    split_ifs
    · exact hret ..
    · exact h.consult hexp _
  | delete =>
    unfold StoreRun.begin
    dsimp only
    split_ifs
    · exact hret ..
    · refine h.next (Cache.Fades.refl s.cache).leaves ?_ nofun
      rintro r' ⟨⟩
      exact hmem

omit [PartialEquivBEq K] in
/-- **The Store is called.** A write that gets there makes the record what memory already holds. -/
theorem store (fails : Bool) : Goes cfg key s (s.store cfg key fails) := by
  have hsame : Leaves cfg key (s.cache.memory cfg key) s.cache s.cache :=
    (Cache.Fades.refl s.cache).leaves
  unfold StoreRun.store
  split
  · next call hp =>
    refine h.next hsame ?_ ?_
    · rintro r' ⟨⟩
      exact h.memory _ (by rw [expects, hp])
    · intro call' r' hr'
      cases fails
      · cases hr'
        rfl
      · cases hr'
  · next call value hp =>
    split_ifs
    · exact h.next hsame nofun nofun
    · exact h.ret hsame (h.memory _ (by rw [expects, hp])) nofun
  · next call hp =>
    have hnone : s.cache.memory cfg key = none := by
      simpa using h.memory none (by rw [expects, hp])
    split_ifs
    · split
      · exact h.next hsame nofun nofun
      · exact h.ret hsame (.inl hnone) nofun
    · exact h.ret hsame (.inl hnone) nofun
  · exact h.next hsame nofun nofun
  · exact h.stay
  · exact h.stay
  · exact h.stay
  · exact h.stay

/-- **The holder goes on with the Store's answer**, which still is the record: it returns the Store's
error, or acts on the record, which it may have promoted before. -/
theorem answered_cases {answer : Option (Option V)} (hp : s.phase = .answered call answer)
    (env : Env K) (ttl : Option TTLAnswer) :
    (answer = none ∧ s.resume cfg key env ttl = s.ret cfg key call true none false) ∨
      ∃ (c : Cache K V n) (cur : Current K V), Leaves cfg key s.record s.cache c ∧
        cur.value = s.record ∧ cur.Of cfg key c ∧
        s.resume cfg key env ttl = { s with cache := c }.act cfg key env cur call := by
  obtain ⟨c, record, _, log⟩ := s
  cases hp
  have hmem := h.memory record rfl
  have hsame : Leaves cfg key record c c := ⟨hmem, rfl, rfl, .refl _⟩
  unfold StoreRun.resume
  dsimp only
  rcases hfresh : c.freshEntryLocked cfg env (shardFor cfg key) key with _ | e
  · rcases answer with _ | _ | v
    · exact .inl ⟨rfl, rfl⟩
    · exact .inr ⟨c, ⟨none, none⟩, hsame, h.answer call none rfl, ⟨nofun, nofun⟩, rfl⟩
    · obtain rfl : some v = record := h.answer call (some v) rfl
      set c₁ := c.promoteLocked cfg env (shardFor cfg key) key v
        (Cache.storeExpireAt env.now ttl)
        (c.preparePromotion cfg key v (Cache.storeExpireAt env.now ttl))
      have hprom : Leaves cfg key (some v) c c₁ :=
        Cache.leaves_promoteLocked h.sealed hmem _ _
      exact .inr ⟨c₁, ⟨c₁.lookupKey cfg key, some v⟩, hprom, rfl, ⟨fun e he ↦ he, fun he _ ↦ he⟩, rfl⟩
  · refine .inr ⟨c, ⟨some e, some e.value⟩, hsame, (h.record_of_fresh rfl hfresh).symm, ⟨?_, nofun⟩,
      rfl⟩
    rintro _ ⟨⟩
    exact (Cache.freshEntryLocked_eq_some c _ hfresh).1

theorem resume_answered {answer : Option (Option V)} (hp : s.phase = .answered call answer)
    (ttl : Option TTLAnswer) : Goes cfg key s (s.resume cfg key env ttl) := by
  have hexp : s.expects = some s.record := by rw [expects, hp]
  rcases h.answered_cases hp env ttl with ⟨-, heq⟩ | ⟨c, cur, hc, -, hcur, heq⟩
  · rw [heq]
    exact h.ret (Cache.Fades.refl s.cache).leaves (h.memory _ hexp) fun _ ↦ nofun
  · have hmid : Goes cfg key s { s with cache := c } := by
      refine h.next hc (fun r' hr' ↦ ?_) h.answer
      exact .inr (Option.some.inj (hexp.symm.trans hr'))
    have hact : Goes cfg key { s with cache := c } ({ s with cache := c }.act cfg key env cur call) :=
      hmid.ok.acts hexp (acts_act hmid.ok.sealed hcur)
    rw [heq]
    exact ⟨hact.ok, hact.closed.trans hmid.closed, hmid.marks.trans hact.marks⟩

theorem resume (ttl : Option TTLAnswer) : Goes cfg key s (s.resume cfg key env ttl) := by
  set i : Fin n := shardFor cfg key with hi
  have hrel (c : Cache K V n) : Cache.Fades c (c.releaseShard i) := (Cache.sheds_releaseShard c).toFades
  rcases hp : s.phase with _ | call | ⟨call, answer⟩ | ⟨call, m⟩ | call | call | ⟨call, failed⟩
  case answered => exact h.resume_answered hp ttl
  case rollback =>
    unfold StoreRun.resume
    rw [hp]
    dsimp only
    rcases he : (s.cache.shards i).get key with _ | e
    · have hnone := Cache.memory_of_lookup_none he
      refine h.ret (r := none) ?_ (.inl rfl) fun _ _ ↦ rfl
      exact hnone ▸ (hrel s.cache).leaves
    · have hput : Cache.Puts s.cache (s.cache.removeLocked cfg env i e .storeRollback) i key
          fun _ ↦ False := Cache.puts_removeLocked cfg env (Table.key_of_get he) rfl
      exact h.ret (r := none) (hput.leaves_none.fades (hrel _)) (.inl rfl) fun _ _ ↦ rfl
  case removing =>
    unfold StoreRun.resume
    rw [hp]
    have hput := Cache.puts_removeKeyLocked cfg env (c := s.cache) i key call.reason
    exact h.ret (r := none) (hput.leaves_none.fades (hrel _)) (.inl rfl) fun _ ↦ nofun
  all_goals
    unfold StoreRun.resume
    rw [hp]
    exact h.stay

theorem step {a : Act K V n} (ha : s.Permitted cfg key a) : Goes cfg key s (s.step cfg key a) := by
  cases a with
  | begin env call =>
    unfold StoreRun.step
    dsimp only
    split
    · next hp => exact h.begin hp call ha
    · exact h.stay
  | store fails => exact h.store fails
  | resume env ttl => exact h.resume ttl
  | work c =>
    have hc : Leaves cfg key (s.cache.memory cfg key) s.cache c := ha
    refine h.next hc (fun r' hr' ↦ ?_) h.answer
    exact h.memory r' hr'

end Step

end Ok

theorem ok_start {c : Cache K V n} (hsealed : c.sealed = false)
    (hm : c.memory cfg key = none ∨ c.memory cfg key = record) : Ok cfg key (start c record) := by
  refine ⟨hsealed, ?_, nofun, nofun⟩
  rintro _ ⟨⟩
  exact hm

/-- Between calls a fresh value in memory is the Store's record, and a call that failed after it had put
a value in memory left nothing there. -/
structure Agrees (cfg : Config K V) (key : K) (s : StoreRun K V n) : Prop where
  fresh : s.phase = .free → ∀ env e,
    s.cache.freshEntryLocked cfg env (shardFor cfg key) key = some e → s.record = some e.value
  failed : ∀ o ∈ s.log, o.error = true → o.wrote = true → o.left = none

end StoreRun

/-- Everything as by default, on integers. -/
def storeConfig : Config ℕ ℕ := defaultConfig fun _ ↦ 0

/-- A `Set` that the Store refuses, then one that it accepts. -/
def refusedThenStored : List (StoreRun.Act ℕ ℕ 1) :=
  [.begin (.instant 1) (.set 8), .store true, .resume (.instant 2) none,
    .begin (.instant 3) (.set 7), .store false]

end Memcache
