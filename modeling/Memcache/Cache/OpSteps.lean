import Memcache.Cache.Operations
import Memcache.Cache.Shed
import Mathlib.Algebra.BigOperators.Ring.Finset

/-!
# Runs are sequences of instructions

The public operations, one by one, as sequences of instructions. Two kinds of state outlive an
operation and are acted on by a later one: a queued write, and a load in flight. What the later one
needs to know about them is `Core.Ready`, which every instruction keeps, so an operation is shown to
be a sequence of instructions **from ready states** (`Moves`) and a run follows by induction.

A critical section may leave the cache above its bounds; an operation never does, because what
follows its last section is a sweep. `Settles` says both at once: made of instructions, and settled
again at the end.
-/

namespace Memcache

variable {K V : Type*} {n : ℕ} [BEq K]

/-! ### Ready states -/

/-- Queued writes are applicable and loads run for keys the shard may be given. -/
def Core.Ready (T : Licence K V) (c : Core K V n) : Prop :=
  ∀ i, (∀ op ∈ (c.shards i).pending.values, op.Ok (T.takes i)) ∧
    ∀ f ∈ (c.shards i).flights.running, T.takes i f.key

namespace FlightStep

variable {P : K → Prop} {s s' : Flights K}

/-- A running load is an old one, or the one that was started. -/
theorem running (h : FlightStep P s s') : Flights.Descends s.running s'.running ∨
    ∃ key, P key ∧ s.inflight.get key = none ∧ s' = s.startFlight key := by
  cases h with
  | supersede key => exact .inl (.mark _ _)
  | supersedeAll => exact .inl (.mark _ _)
  | supersedeMatching m => exact .inl (.mark _ _)
  | start key hkey h => exact .inr ⟨key, hkey, h, rfl⟩
  | join id => exact .inl (.addRefs 1 id _)
  | leave id => exact .inl (.leave _ id)
  | finish f h => exact .inl (.unlink _ _)
  | watch tokens watches next => exact .inl (.refl _)

theorem running_key (h : FlightStep P s s') (hs : ∀ f ∈ s.running, P f.key) :
    ∀ f ∈ s'.running, P f.key := by
  have old {running : List (Flight K)} (hr : Flights.Descends s.running running) :
      ∀ f ∈ running, P f.key := by
    intro f hf
    obtain ⟨f', hf', -, hk, -⟩ := hr f hf
    exact hk ▸ hs f' hf'
  obtain hd | ⟨key, hkey, -, rfl⟩ := h.running
  · exact old hd
  · intro f hf
    obtain rfl | hf := List.mem_cons.1 hf
    · exact hkey
    · exact old (.mark _ _) f hf

end FlightStep

namespace Core.Ready

variable {cfg : Config K V} {T : Licence K V}

theorem step {c c' : Core K V n} (h : CoreStep cfg T c c') (hc : c.Ready T) : c'.Ready T := by
  -- a step replaces one shard, whose queue and loads are the old ones but for two instructions
  have same {d : Core K V n} {i : Fin n} {s : CoreShard K V} (hd : d.shards = (c.set i s).shards)
      (hp : ∀ op ∈ s.pending.values, op ∈ (c.shards i).pending.values ∨ (cfg.asyncWrites ∧ op.Ok (T.takes i)))
      (hf : (∀ f ∈ (c.shards i).flights.running, T.takes i f.key) →
        ∀ f ∈ s.flights.running, T.takes i f.key) : d.Ready T := by
    intro j
    rw [hd]
    exact set_cases j ⟨fun op hop ↦ (hp op hop).elim ((hc i).1 op) And.right, hf (hc i).2⟩
      fun j _ ↦ hc j
  cases h with
  | flights _ i f h => exact same rfl (fun _ ↦ .inl) h.running_key
  | pending _ i m h => exact same rfl h id
  | read _ i s h =>
    cases h with
    | count misses => exact same rfl (fun _ ↦ .inl) id
    | rebuild h => exact same rfl (fun _ ↦ .inl) id
  | bounds => exact hc
  | _ => exact same rfl (fun _ ↦ .inl) id

theorem steps {c c' : Cache K V n} (h : Steps cfg T c c') (hc : c.core.Ready T) : c'.core.Ready T :=
  h.invariant (I := Core.Ready T) step hc

end Core.Ready

/-- A change made of instructions, when it starts in a ready state. -/
def Moves (cfg : Config K V) (T : Licence K V) (c c' : Cache K V n) : Prop :=
  c.core.Ready T → Steps cfg T c c'

namespace Moves

variable {cfg : Config K V} {T : Licence K V} {c c' c'' : Cache K V n}

theorem of_steps (h : Steps cfg T c c') : Moves cfg T c c' := fun _ ↦ h

theorem refl : Moves cfg T c c := of_steps .refl

theorem trans (h : Moves cfg T c c') (h' : Moves cfg T c' c'') : Moves cfg T c c'' :=
  fun hr ↦ (h hr).trans (h' (hr.steps (h hr)))

theorem then_steps (h : Moves cfg T c c') (h' : Steps cfg T c' c'') : Moves cfg T c c'' :=
  h.trans (of_steps h')

theorem foldl {α : Type*} {f : Cache K V n → α → Cache K V n} {l : List α}
    (h : ∀ a ∈ l, ∀ c, Moves cfg T c (f c a)) : ∀ c, Moves cfg T c (l.foldl f c) := by
  induction l with
  | nil => exact fun _ ↦ refl
  | cons a l ih =>
    intro c
    have hrest := ih fun b hb ↦ h b (List.mem_cons_of_mem _ hb)
    exact (h a List.mem_cons_self c).trans (hrest (f c a))

end Moves

namespace Core

/-- The live counters and bounds. -/
def gauge (c : Core K V n) : ℤ × ℤ × ℕ × ℕ := (c.entries, c.bytes, c.maxEntries, c.maxBytes)

/-- Settledness shows in the counters and bounds. -/
theorem Settled.of_gauge {c c' : Core K V n} (hc : c.Inv) (hc' : c'.Inv)
    (h : c'.gauge = c.gauge) (hs : c.Settled) : c'.Settled := by
  obtain ⟨he, hb, hme, hmb⟩ : c'.entries = c.entries ∧ c'.bytes = c.bytes ∧
      c'.maxEntries = c.maxEntries ∧ c'.maxBytes = c.maxBytes := by
    simpa [gauge] using h
  obtain hs | hs := hs
  · left
    rw [overBudget, he, hb, hme, hmb]
    exact hs
  · right
    have hzero : c'.total (fun s ↦ (s.storage.length : ℤ)) = 0 := by
      rw [← hc'.entries, he, hc.entries]
      simp [total, hs]
    intro i
    have hsum : ((∑ i, (c'.shards i).storage.length : ℕ) : ℤ) = 0 := by
      rw [Nat.cast_sum]
      exact hzero
    exact List.length_eq_zero_iff.1
      (Finset.sum_eq_zero_iff.1 (Int.natCast_eq_zero.1 hsum) i (Finset.mem_univ i))

end Core

/-- A whole operation: made of instructions, and it leaves a settled cache settled. -/
structure Settles (cfg : Config K V) (T : Licence K V) (c c' : Cache K V n) : Prop where
  moves : Moves cfg T c c'
  settled : [T.Proper] → c.core.Inv → c.core.Ready T → c.core.Settled → c'.core.Settled

namespace Settles

variable {cfg : Config K V} {env : Env K} {T : Licence K V} {b c c' c'' : Cache K V n}

theorem of_eq (h : c'.core = c.core) : Settles cfg T c c' :=
  ⟨.of_steps (.of_eq h), fun _ _ hs ↦ h ▸ hs⟩

theorem refl : Settles cfg T c c := of_eq rfl

variable [PartialEquivBEq K]

theorem trans (h : Settles cfg T c c') (h' : Settles cfg T c' c'') : Settles cfg T c c'' :=
  ⟨h.moves.trans h'.moves, fun hi hr hs ↦ h'.settled (Cache.inv_of_steps (h.moves hr) hi)
    (hr.steps (h.moves hr)) (h.settled hi hr hs)⟩

/-- A change that neither the counters nor the bounds show. -/
theorem of_gauge (h : Moves cfg T c c') (hg : c'.core.gauge = c.core.gauge) : Settles cfg T c c' :=
  ⟨h, fun hi hr hs ↦ hs.of_gauge hi (Cache.inv_of_steps (h hr) hi) hg⟩

end Settles

namespace Moves

variable [PartialEquivBEq K] [NeZero n] {cfg : Config K V} {env : Env K} {T : Licence K V}
  {b c : Cache K V n}

/-- Sections that end in a sweep. -/
theorem shed (h : Moves cfg T b c) (reason : EvictionReason) (last : Option (Fin n)) :
    Settles cfg T b (c.shedOverBudget cfg env reason last) :=
  ⟨h.then_steps (c.steps_shedOverBudget reason last),
    fun hi hr _ ↦ Cache.settled_shedOverBudget (Cache.inv_of_steps (h hr) hi) reason last⟩

/-- A section that ends by releasing its lock. -/
theorem flush (h : Moves cfg T b c) (i : Fin n) : Settles cfg T b (c.flushAndUnlock cfg env i) :=
  (h.then_steps (.of_eq (Cache.core_releaseShard c i))).shed .capacity (some i)

end Moves

namespace Cache

variable {cfg : Config K V} {env : Env K} {T : Licence K V} (c : Cache K V n) {key : K} {value : V}
  {weight : ℤ} {f : Cache K V n → Fin n → Cache K V n}

/-! ### Under one lock -/

theorem moves_applyPendingKeyLocked (i : Fin n) (key : K) :
    Moves cfg T c (c.applyPendingKeyLocked cfg env i key).1 := by
  intro hr
  unfold applyPendingKeyLocked
  split
  · exact .refl
  · next op hop =>
    have hmem : op ∈ (c.shards i).pending.values := KeyMap.mem_values_of_get hop
    have hdeq : Steps cfg T c
        (c.modify i fun s ↦ { s with pending := s.pending.erase key }) := by
      refine .of_step (.pending c.core i _ fun op' hop' ↦ .inl ?_) (c.core_modify i _)
      exact KeyMap.mem_values_of_erase hop'
    exact (hdeq.trans (steps_supersedeFlight _ i op.key)).trans
      (steps_applyPendingOpLocked _ i ((hr i).1 op hmem))

theorem steps_applyAll (i : Fin n) {ops : List (PendingOp K V)}
    (hops : ∀ op ∈ ops, op.Ok (T.takes i)) :
    ∀ c : Cache K V n,
      Steps cfg T c (ops.foldl (fun c op ↦ c.applyPendingOpLocked cfg env i op) c) := by
  induction ops with
  | nil => exact fun _ ↦ .refl
  | cons op ops ih =>
    intro c
    have hop : Steps cfg T c (c.applyPendingOpLocked cfg env i op) :=
      (c.steps_supersedeFlight i op.key).trans
        (c.steps_applyPendingOpLocked i (hops op List.mem_cons_self))
    exact hop.trans (ih (fun op hop ↦ hops op (List.mem_cons_of_mem _ hop)) _)

theorem steps_enqueuePending (ha : cfg.asyncWrites) (i : Fin n) {op : PendingOp K V}
    (hop : op.Ok (T.takes i)) :
    Steps cfg T c (c.enqueuePending i op) := by
  refine .of_step (.pending c.core i _ fun op' hop' ↦ ?_) (c.core_modify i _)
  obtain rfl | h := KeyMap.mem_values_insert hop'
  · exact .inr ⟨ha, hop⟩
  · exact .inl h

theorem steps_upsertOptionsLocked (i : Fin n) (hkey : T.takes i key) (h₁ : 1 ≤ weight)
    (h₂ : weight ≤ maxEntryWeight) (sc : SetConfig) :
    Steps cfg T (c.supersedeFlight i key)
      (c.upsertOptionsLocked cfg env i key value weight sc) := by
  unfold upsertOptionsLocked
  split_ifs
  · exact c.steps_upsertWithAbsoluteExpiryLocked i hkey h₁ h₂ _
  · exact c.steps_upsertLocked i hkey h₁ h₂ _ _ _

theorem steps_upsertDefault (i : Fin n) (hkey : T.takes i key) (h₁ : 1 ≤ weight)
    (h₂ : weight ≤ maxEntryWeight) :
    Steps cfg T (c.supersedeFlight i key) (c.upsertDefault cfg env i key value weight) :=
  c.steps_upsertLocked i hkey h₁ h₂ _ _ _

theorem gauge_recordReadMiss (i : Fin n) :
    (c.recordReadMiss i key).core.gauge = c.core.gauge := by
  unfold recordReadMiss
  split_ifs <;> rfl

theorem steps_restoreWatch (i : Fin n) (w : Option ℕ) : Steps cfg T c (c.restoreWatch i key w) := by
  rcases w with - | w
  · exact .refl
  · exact c.steps_flights i (f := fun s ↦ { s with watches := s.watches.insert key w })
      (.watch _ _ _ _)

theorem steps_promoteLocked (i : Fin n) (hkey : T.takes i key) (storeExpireAt : ℤ)
    {p : Except CacheError ℤ} (hp : ∀ w, p = .ok w → 1 ≤ w ∧ w ≤ maxEntryWeight) :
    Steps cfg T c (c.promoteLocked cfg env i key value storeExpireAt p) := by
  unfold promoteLocked
  split
  · exact .refl
  · next w =>
    obtain ⟨h₁, h₂⟩ := hp w rfl
    have hhide : Steps cfg T c (c.hideWatch i key) :=
      c.steps_flights i (f := fun s ↦ { s with watches := s.watches.erase key }) (.watch _ _ _ _)
    have hup : Steps cfg T (c.hideWatch i key)
        ((c.hideWatch i key).upsertPromoted cfg env i key value w storeExpireAt) := by
      refine (steps_supersedeFlight _ i key).trans ?_
      simp only [upsertPromoted]
      split_ifs
      · exact steps_upsertLocked _ i hkey h₁ h₂ _ _ _
      · exact steps_upsertDefault _ i hkey h₁ h₂
    split_ifs
    · exact .refl
    · exact (hhide.trans hup).trans (steps_restoreWatch _ i _)

theorem steps_withBound (hT : T.resize) (newSize : ℕ) : Steps cfg T c (c.withBound cfg newSize) := by
  unfold withBound
  split_ifs
  · exact .of_step (.bounds c.core c.maxEntries newSize hT) rfl
  · exact .of_step (.bounds c.core newSize c.maxBytes hT) rfl

theorem steps_resizeShard (hT : T.resize) (i : Fin n) : Steps cfg T c (resizeShard cfg env c i) := by
  simp only [resizeShard]
  have hbudget : Steps cfg T c (c.modify i fun s ↦ { s with
      budget := perShardBudget c.maxEntries n
      policy := s.policy.setBudget (perShardBudget c.maxEntries n) }) :=
    .of_step (.budget c.core i _ hT) (c.core_modify i _)
  exact (hbudget.trans (steps_evictOverBudgetLocked _ i .resize _)).frame (core_releaseShard ..)

/-! ### Operations -/

section Working

variable [PartialEquivBEq K] [NeZero n]

/-- **The sections of an operation are made of instructions.** -/
theorem settling : Working (n := n) cfg env T (Moves cfg T) (Settles cfg T) where
  refl _ := .refl
  trans := .trans
  within h := h.moves
  chain := .trans
  beside h := .of_eq h.core
  shed h _ last := h.shed _ last
  flights c i _ h _ := .of_steps (c.steps_flights i h)
  remove c i _ reason h := .of_steps (c.steps_removeLocked i h reason)
  removeKey c i key reason :=
    .of_steps ((c.steps_supersedeFlight i key).trans (c.steps_removeKeyLocked i key reason))
  upsert c i key _ _ hkey hw _ _ _ _ := .of_steps
    ((c.steps_supersedeFlight i key).trans (c.steps_upsertLocked i hkey hw.1 hw.2 _ _ _))
  upsertAt c i key _ _ hkey hw _ _ := .of_steps
    ((c.steps_supersedeFlight i key).trans (c.steps_upsertWithAbsoluteExpiryLocked i hkey hw.1 hw.2 _))
  replace c i _ e _ _ he hw := .of_steps ((c.steps_supersedeFlight i e.key).trans
    (c.steps_replaceValueLocked i (Table.mem_of_get he) hw.1 hw.2))
  tombstone c i _ hkey h := .of_steps (c.steps_insertNegativeTombstoneLocked i hkey h)
  touch c i _ h := .of_steps (c.steps_touchEntry i h)
  extend c i _ ttl h := .of_steps (c.steps_refreshExpiryLocked i h ttl)
  stale c i _ h := .of_steps (c.steps_staleHit i h)
  enqueue c i _ ha h := .of_gauge (.of_steps (c.steps_enqueuePending ha i h)) rfl
  unqueue c i key := c.moves_applyPendingKeyLocked i key
  drain c i := fun hr ↦ by
    have hclear : Steps cfg T c (c.modify i fun s ↦ { s with pending := .empty }) :=
      .of_step (.pending c.core i .empty nofun) (c.core_modify i _)
    exact hclear.trans (steps_applyAll i (hr i).1 _)
  finish {c d i id f} hf h := fun hr ↦ by
    have hend : Steps cfg T c (c.endFlight i f) := by
      refine .of_step (.flights c.core i _ (.finish _ f ?_)) (c.core_modify i _)
      rw [show f.id = id from NodeList.ident_of_lookup hf]
      exact hf
    exact hend.trans (h ((hr i).2 f (NodeList.mem_of_lookup hf)) (hr.steps hend))
  promote c i _ _ _ storeExpireAt hkey hp := .of_steps (c.steps_promoteLocked i hkey storeExpireAt hp)
  sweep c i hT := .of_steps (c.steps_sweepExpiredLocked i hT)
  clear c i := .of_steps ((c.steps_supersedeAllFlights i).trans (c.steps_clearShard i))
  bound c newSize hT := .of_steps (c.steps_withBound hT newSize)
  resizeShard c i hT := .of_steps (c.steps_resizeShard hT i)
  snapshot c i _ hkey hw := .of_steps ((c.steps_supersedeFlight _ _).trans
    (c.steps_applySnapshotLocked _ hkey hw.1 hw.2))

end Working

variable [PartialEquivBEq K]

theorem beq_self_of_beq {a b : K} (h : a == b) : b == b :=
  PartialEquivBEq.trans (BEq.symm h) h

/-- A key that finds an entry equals itself. -/
theorem beq_self_of_get {t : Table K V} {e : Entry K V} (h : t.get key = some e) : key == key :=
  beq_self_of_beq (Table.key_of_get h)

variable [NeZero n]

theorem settles_getLocked (i : Fin n) (htake : ∀ e, (c.shards i).get key = some e → T.takes i key) :
    Settles cfg T c (c.getLocked cfg env i key).2 := by
  unfold getLocked
  split
  · exact Moves.refl.flush i
  · next e he =>
    have hmem := Table.mem_of_get he
    have hkey := htake e he
    split
    · -- served under the read lock: nothing is swept, and nothing was added
      have hhit : Settles cfg T c (c.countHit i e) := .of_gauge (.of_steps (c.steps_countHit i hmem)) rfl
      split
      · exact hhit.trans (.of_gauge (.of_steps (steps_recordReadMiss ..)) (gauge_recordReadMiss ..))
      · exact hhit
    · split
      · split
        · refine Moves.flush (.of_steps ((c.steps_triggerAsyncRefreshLocked i hkey).trans ?_)) i
          refine steps_staleHit _ i ?_
          rw [core_shards]
          simpa [Shard.core] using hmem
        · exact Moves.flush
            (.of_steps ((c.steps_removeLocked i hmem _).frame (core_countExpiration _))) i
      · split
        · exact Moves.refl.flush i
        · refine Moves.flush (.of_steps (.trans ?_ (steps_maybePromoteOnSlowHit ..))) i
          split
          · exact (c.steps_touchEntry i hmem).trans (steps_triggerAsyncRefreshLocked _ i hkey)
          · exact c.steps_touchEntry i hmem

theorem settles_get (htake : ∀ e, (c.shards (shardFor cfg key)).get key = some e →
    T.takes (shardFor cfg key : Fin n) key) : Settles cfg T c (c.get cfg env key).2 := by
  simp only [get]
  split
  · exact .refl
  · split
    · exact .refl
    · split
      · next e he =>
        obtain ⟨rm, id, -, -, -, hid, -⟩ := tryLockFreeGet_eq_hit he
        exact .of_gauge (.of_steps (c.steps_countHit _ (Table.mem_of_byId hid))) rfl
      · exact .refl
      · exact c.settles_getLocked _ htake

theorem settles_watchKey : Settles cfg T c (c.watchKey cfg key) := by
  refine .of_gauge (.of_steps (c.steps_flights (shardFor cfg key)
    (f := fun s ↦ (s.watchLocked key).2) ?_)) rfl
  unfold Flights.watchLocked
  split
  · exact .watch _ _ _ _
  · exact .watch _ _ _ _

theorem settles_unwatchKey (w : ℕ) : Settles cfg T c (c.unwatchKey cfg key w) :=
  .of_gauge (.of_steps (c.steps_flights (shardFor cfg key) (f := fun s ↦ s.unwatchLocked key w)
    (.watch _ _ _ _))) rfl

end Cache

/-! ### Runs -/

section Run

variable [NeZero n] [Inhabited V] {cfg : Config K V} {T : Permits K V} {L : Licence K V}

/-- The keys of a step equal themselves, and it does what `T` permits. -/
def StepOk (cfg : Config K V) (T : Permits K V) (c : Cache K V n) (p : Env K × Op K V n) :
    Prop :=
  (∀ k ∈ p.2.keys, k == k) ∧ p.2.Permitted cfg T c

/-- **Every operation is a sequence of instructions that settles.** -/
theorem settles_step [PartialEquivBEq K] {env : Env K} {op : Op K V n} {c : Cache K V n}
    (hkeys : ∀ k ∈ op.keys, L.takes (Cache.shardFor cfg k : Fin n) k)
    (hT : op.Permitted cfg L.toPermits c) (hsweep : ∀ i, op = .sweep i → L.sweep)
    (hget : ∀ key e, (c.shards (Cache.shardFor cfg key)).get key = some e →
      L.takes (Cache.shardFor cfg key : Fin n) key) : Settles cfg L c (step cfg env c op) := by
  refine Cache.settling.step c hkeys hT hsweep fun hapart ↦ ?_
  cases op with
  | get key => exact c.settles_get (hget key)
  | watchKey key => exact c.settles_watchKey
  | unwatchKey key w => exact c.settles_unwatchKey w
  | _ => exact hapart.elim

/-- A step of a run may sweep. -/
theorem settles_step_of_permits [PartialEquivBEq K] {env : Env K} {op : Op K V n} {c : Cache K V n}
    (h : StepOk cfg T c (env, op)) : Settles cfg T.sweeping c (step cfg env c op) :=
  settles_step (L := T.sweeping) h.1 h.2 (fun _ _ ↦ trivial) fun _ _ he ↦ Cache.beq_self_of_get he

omit [NeZero n] [Inhabited V] in
/-- Where every key equals itself and tombstones are permitted, only a resize asks for something. -/
theorem stepOk_of_permits [EquivBEq K] (ht : ∀ e, T.tombstone e) (c : Cache K V n)
    (p : Env K × Op K V n) (hr : ∀ newSize, p.2 = .resize newSize → T.resize) :
    StepOk cfg T c p :=
  ⟨fun _ _ ↦ BEq.rfl, Op.permitted_of_permits ht c hr⟩

omit [NeZero n] [Inhabited V] in
/-- Where every key equals itself and everything is permitted, nothing is asked of a step. -/
theorem stepOk_of_equiv [EquivBEq K] (c : Cache K V n) (p : Env K × Op K V n) :
    StepOk cfg .all c p :=
  stepOk_of_permits (fun _ ↦ trivial) c p fun _ _ ↦ trivial

omit [BEq K] [NeZero n] [Inhabited V] in
theorem ready_new (cfg : Config K V) : (new cfg n).core.Ready L :=
  fun _ ↦ ⟨nofun, nofun⟩

/-- **Every run is a sequence of instructions** from the fresh cache. -/
theorem steps_run [PartialEquivBEq K] {ops : List (Env K × Op K V n)}
    (h : Runs.Along (stepIn cfg) (StepOk cfg T) (new cfg n) ops) :
    Steps cfg T.sweeping (new cfg n) (run cfg (new cfg n) ops) :=
  h.invariant (I := fun c ↦ Steps cfg T.sweeping (new cfg n) c)
    (fun _ _ hok hs ↦ hs.trans ((settles_step_of_permits hok).moves ((ready_new cfg).steps hs))) .refl

omit [BEq K] [NeZero n] [Inhabited V] in
theorem settled_new (cfg : Config K V) : (new cfg n).core.Settled :=
  .inr fun _ ↦ rfl

/-- **After every operation of a run the cache is settled.** -/
theorem settled_run [PartialEquivBEq K] {ops : List (Env K × Op K V n)}
    (h : Runs.Along (stepIn cfg) (StepOk cfg T) (new cfg n) ops) :
    (run cfg (new cfg n) ops).core.Settled := by
  refine (h.invariant (I := fun c ↦ Steps cfg T.sweeping (new cfg n) c ∧ c.core.Settled) ?_
    ⟨.refl, settled_new cfg⟩).2
  rintro c p hok ⟨hsteps, hs⟩
  have hr := (ready_new cfg).steps hsteps
  exact ⟨hsteps.trans ((settles_step_of_permits hok).moves hr),
    (settles_step_of_permits hok).settled (Cache.inv_of_steps hsteps (Cache.inv_new cfg n)) hr hs⟩

end Run

end Memcache
