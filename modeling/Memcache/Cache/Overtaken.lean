import Memcache.Cache.Heeds
import Memcache.Cache.Insert
import Memcache.Cache.Registry
import Memcache.Cache.Tend

/-!
# Overtaken loads

A load is overtaken when its key is written, deleted or invalidated, or when a newer load of the key
starts, while it runs. Every path that replaces a key's data marks the registered loads of the key
before it changes the table, a load that may still store is registered (`Flights.Ok`), and no
instruction takes a mark back. So **whatever happens between the start of a load and its end, if the
load was overtaken once its end changes nothing**.

What does not overtake a load is what only loses data: evictions, expiry and a negative tombstone.
-/

namespace Memcache

variable {K V : Type*} {n : ℕ}

/-! ### Marks stay -/

namespace Flights

/-- The loads of before are the same, with the marks they had: what is not one of them is newer. -/
structure Later (s s' : Flights K) : Prop where
  nextFlight : s.nextFlight ≤ s'.nextFlight
  running : ∀ f ∈ s'.running, f.id < s.nextFlight →
    ∃ g ∈ s.running, g.id = f.id ∧ g.key = f.key ∧ (g.superseded → f.superseded)

variable {s s' s'' : Flights K}

namespace Later

theorem refl (s : Flights K) : Later s s := ⟨le_rfl, fun f hf _ ↦ ⟨f, hf, rfl, rfl, id⟩⟩

theorem trans (h : Later s s') (h' : Later s' s'') : Later s s'' where
  nextFlight := h.nextFlight.trans h'.nextFlight
  running f hf hlt := by
    obtain ⟨f', hf', hid, hkey, hsup⟩ := h'.running f hf (hlt.trans_le h.nextFlight)
    obtain ⟨f'', hf'', hid', hkey', hsup'⟩ := h.running f' hf' (hid ▸ hlt)
    exact ⟨f'', hf'', hid'.trans hid, hkey'.trans hkey, hsup ∘ hsup'⟩

theorem of_descends (hn : s'.nextFlight = s.nextFlight) (h : Descends s.running s'.running) :
    Later s s' :=
  ⟨hn.ge, fun f hf _ ↦ h f hf⟩

variable [BEq K]

theorem startFlight (s : Flights K) (key : K) : Later s (s.startFlight key) where
  nextFlight := Nat.le_succ _
  running f hf hlt := by
    rcases List.mem_cons.1 hf with rfl | hf
    · exact absurd hlt (lt_irrefl _)
    · exact Descends.mark _ _ f hf

theorem leave (s : Flights K) (id : ℕ) : Later s (s.leave id) := by
  refine of_descends ?_ (.leave s id)
  unfold Flights.leave orphanFlight
  split
  · rfl
  · split_ifs <;> rfl

/-- **No instruction takes a mark back.** -/
theorem of_step {P : K → Prop} (h : FlightStep P s s') : Later s s' := by
  cases h with
  | supersede key => exact of_descends rfl (.mark _ _)
  | supersedeAll => exact of_descends rfl (.mark _ _)
  | supersedeMatching matcher => exact of_descends rfl (.mark _ _)
  | start key => exact startFlight s key
  | join id => exact of_descends rfl (.addRefs 1 id _)
  | leave id => exact leave s id
  | finish f => exact of_descends rfl (.unlink f.id _)
  | watch tokens watches nextToken => exact of_descends rfl (.refl _)

end Later

/-! ### Overtaking -/

variable [BEq K] {key : K}

/-- Of the loads of a key that ran before, none may store any more. -/
def Overtakes (key : K) (s s' : Flights K) : Prop :=
  ∀ f ∈ s'.running, f.key == key → f.id < s.nextFlight → f.superseded = true

theorem Later.overtakes (h : Later s s') (h' : Overtakes key s' s'') : Overtakes key s s'' :=
  fun f hf hkey hlt ↦ h' f hf hkey (hlt.trans_le h.nextFlight)

theorem Overtakes.later (h : Overtakes key s s') (hn : s.nextFlight ≤ s'.nextFlight)
    (h' : Later s' s'') : Overtakes key s s'' := by
  intro f hf hkey hlt
  obtain ⟨g, hg, hid, hgkey, hsup⟩ := h'.running f hf (hlt.trans_le hn)
  exact hsup (h g hg (hgkey ▸ hkey) (hid ▸ hlt))

namespace Ok

/-- Marking every registered load of a key leaves none that may store. -/
theorem overtakes_mark (h : s.Ok) {ids : List ℕ}
    (hids : ∀ k id, k == key → s.inflight.get k = some id ∨ s.orphans.get k = some id → id ∈ ids)
    (hrun : s'.running = mark ids s.running) : Overtakes key s s' := by
  intro f hf hkey _
  rcases Bool.eq_false_or_eq_true f.superseded with hsup | hsup
  · exact hsup
  rw [hrun] at hf
  obtain ⟨f', hf', -, hfkey, -, hold⟩ := mem_mark hf
  obtain ⟨hsup', hnot⟩ := hold hsup
  exact absurd (hids f'.key f'.id (hfkey ▸ hkey) (h.registered f' hf' hsup')) hnot

theorem overtakes_supersedeAllFlights (h : s.Ok) (key : K) :
    Overtakes key s s.supersedeAllFlights := by
  refine h.overtakes_mark (fun k id _ hget ↦ ?_) rfl
  exact List.mem_append.2 (hget.imp KeyMap.mem_values_of_get KeyMap.mem_values_of_get)

variable [PartialEquivBEq K]

theorem overtakes_supersedeFlight (h : s.Ok) (key : K) : Overtakes key s (s.supersedeFlight key) := by
  refine h.overtakes_mark (fun k id hk hget ↦ ?_) rfl
  rw [KeyMap.get_congr hk, KeyMap.get_congr hk] at hget
  rcases hget with hget | hget <;> simp [hget]

theorem overtakes_supersedeMatching (h : s.Ok) {matcher : K → Bool}
    (hm : ∀ k, k == key → matcher k = true) : Overtakes key s (s.supersedeMatching matcher) := by
  refine h.overtakes_mark (fun k id hk hget ↦ ?_) rfl
  have hpair : ∃ p ∈ s.inflight.pairs ++ s.orphans.pairs, (p.1 == k) ∧ p.2 = id := by
    rcases hget with hget | hget
    · obtain ⟨p, hp, hpk, hid⟩ := KeyMap.get_eq_some hget
      exact ⟨p, List.mem_append_left _ hp, hpk, hid⟩
    · obtain ⟨p, hp, hpk, hid⟩ := KeyMap.get_eq_some hget
      exact ⟨p, List.mem_append_right _ hp, hpk, hid⟩
  obtain ⟨p, hp, hpk, rfl⟩ := hpair
  exact List.mem_map_of_mem (List.mem_filter.2 ⟨hp, hm p.1 (PartialEquivBEq.trans hpk hk)⟩)

/-- A newer load of the key overtakes. -/
theorem overtakes_of_newer (h : s'.Ok) {g : Flight K} (hg : g ∈ s'.running)
    (hkey : g.key == key) (hnew : s.nextFlight ≤ g.id) : Overtakes key s s' :=
  fun f hf hfkey hlt ↦
    h.newest f hf g hg (PartialEquivBEq.trans hfkey (BEq.symm hkey)) (hlt.trans_le hnew)

end Ok

end Flights

namespace Cache

variable {e : Entry K V} {reason : EvictionReason}

section Sections

variable [BEq K] [PartialEquivBEq K] {cfg : Config K V} {env : Env K} {T : Licence K V}
  {c c' c'' : Cache K V n} {i : Fin n} {key k : K}

omit [PartialEquivBEq K] in
theorem later_of_steps (h : Steps cfg T c c') (i : Fin n) :
    (c.shards i).flights.Later (c'.shards i).flights := by
  refine h.invariant (I := fun d ↦ (c.core.shards i).flights.Later (d.shards i).flights) ?_ (.refl _)
  intro d d' hstep hd
  -- only the instructions on loads and watches change them, in one shard
  have one {j : Fin n} {s : CoreShard K V} (hs : (d.shards j).flights.Later s.flights) :
      (c.core.shards i).flights.Later ((d.set j s).shards i).flights := by
    rcases eq_or_ne i j with rfl | hj
    · rw [Core.set_shards_self]
      exact hd.trans hs
    · rwa [Core.set_shards_of_ne _ _ hj]
  cases hstep with
  | flights _ j f hf => exact one (.of_step hf)
  | read _ j s hs => cases hs <;> exact one (.refl _)
  | bounds => exact hd
  | _ => exact one (.refl _)

/-- A state between operations, or between the instructions of one: its loads are registered and its
queue holds what may be applied. -/
structure Sound (c : Cache K V n) : Prop where
  inv : c.core.Inv
  ready : c.core.Ready .all
  flights : c.core.FlightsOk

theorem Sound.steps (h : c.Sound) (hs : Steps cfg .all c c') : c'.Sound :=
  ⟨inv_of_steps hs h.inv, h.ready.steps hs, hs.invariant (I := Core.FlightsOk) Core.FlightsOk.step
    h.flights⟩

/-- The loads of a key that run in `c` may not store after `c'`. -/
def Overtakes (i : Fin n) (key : K) (c c' : Cache K V n) : Prop :=
  (c.shards i).flights.Overtakes key (c'.shards i).flights

omit [PartialEquivBEq K] in
theorem Overtakes.before (hs : Steps cfg T c c') (h : Overtakes i key c' c'') :
    Overtakes i key c c'' :=
  (later_of_steps hs i).overtakes h

omit [PartialEquivBEq K] in
theorem Overtakes.after (h : Overtakes i key c c') (hs : Steps cfg T c c')
    (hs' : Steps cfg T c' c'') : Overtakes i key c c'' :=
  Flights.Overtakes.later h (later_of_steps hs i).nextFlight (later_of_steps hs' i)

omit [PartialEquivBEq K] in
/-- A section that marks the key's loads before anything else. -/
theorem overtakes_of_flights (hc : c.core.Ready .all) {f : Flights K → Flights K}
    (hstep : FlightStep (fun k ↦ k == k) (c.shards i).flights (f (c.shards i).flights))
    (hover : (c.shards i).flights.Overtakes key (f (c.shards i).flights))
    (h : Moves cfg .all (c.modify i fun s ↦ { s with flights := f s.flights }) c') :
    Overtakes i key c c' := by
  have hmark : Steps cfg .all c (c.modify i fun s ↦ { s with flights := f s.flights }) :=
    c.steps_flights i hstep
  have hfirst : Overtakes i key c (c.modify i fun s ↦ { s with flights := f s.flights }) := by
    unfold Overtakes
    rw [modify_shards_self]
    exact hover
  exact hfirst.after hmark (h (hc.steps hmark))

theorem overtakes_of_moves (hc : c.Sound) (hk : k == key)
    (h : Moves cfg .all (c.supersedeFlight i k) c') : Overtakes i key c c' := by
  rw [supersedeFlight_congr c i hk] at h
  exact overtakes_of_flights (f := fun s ↦ s.supersedeFlight key) hc.ready (.supersede _ key)
    ((hc.flights i).overtakes_supersedeFlight key) h

/-- Removing the entry of a key for good begins by marking the key's loads. -/
theorem steps_removeLocked_of_get (hget : (c.shards i).get k = some e)
    (hreason : supersedesFlight reason = true) :
    Steps cfg T (c.supersedeFlight i k) (c.removeLocked cfg env i e reason) := by
  have hsame : c.supersedeFlight i k = c.supersedeFlight i e.key :=
    (supersedeFlight_congr c i (Table.key_of_get hget)).symm
  unfold removeLocked
  rw [if_pos hreason, hsame]
  refine steps_dropLocked _ i ?_ reason
  rw [supersedeFlight, modify_shards_self]
  exact Table.mem_of_get hget

/-- What marks the loads of a key and its token. -/
structure Strikes (i : Fin n) (key : K) (c c' : Cache K V n) : Prop where
  overtakes : Overtakes i key c c'
  voids : Voids i key c c'

theorem voids_upsertLocked (hk : k == key) (i : Fin n) (value : V) (weight effectiveTTL : ℤ)
    (sliding : Bool) (rawTTL : ℤ) (tags : List String) :
    Voids i key c (c.upsertLocked cfg env i k value weight effectiveTTL sliding rawTTL tags) := by
  obtain ⟨P, hput⟩ := upsertLocked_supersedes cfg env c i k value weight effectiveTTL sliding rawTTL tags
  exact hput.voids hk

variable [NeZero n]

/-- A section of the key with nothing queued. -/
theorem strikes_keyed (hc : c.Sound) (hk : Names n cfg key k)
    (hqueue : (c.shards (shardFor cfg k)).pending.get k = none)
    {f : Cache K V n → Fin n → Cache K V n}
    (h : Moves cfg .all (c.supersedeFlight (shardFor cfg k) k) (f c (shardFor cfg k)) ∧
      Voids (shardFor cfg k) key c (f c (shardFor cfg k))) :
    Strikes (shardFor cfg key) key c (c.keyed cfg env k f) := by
  have hnone : c.applyPendingKeyLocked cfg env (shardFor cfg k) k = (c, []) := by
    rw [applyPendingKeyLocked, hqueue]
  unfold keyed
  dsimp only
  rw [hnone, ← hk.2]
  exact ⟨overtakes_of_moves hc hk.1 (settling.unlockAfter h.1 _ _).moves,
    h.2.after (.of_frame (fades_unlockAfter _ _).toFrame)⟩

theorem overtakes_onKey (hc : c.Sound) (hk : Names n cfg key k) (hsync : cfg.asyncWrites = false)
    (hopen : c.closed = false) {f : Cache K V n → Fin n → Cache K V n}
    (h : Moves cfg .all (c.supersedeFlight (shardFor cfg k) k) (f c (shardFor cfg k))) :
    Overtakes (shardFor cfg key) key c (c.onKey cfg env k f) := by
  unfold onKey applyPendingKey
  rw [if_neg (by simp [hopen]), if_neg (by simp [hsync]), ← hk.2]
  exact overtakes_of_moves hc hk.1 (h.flush _).moves

omit [NeZero n] in
/-- A loop that comes to a section which overtakes, with what it needs in place until then. -/
theorem overtakes_foldl {α : Type*} {f : Cache K V n → α → Cache K V n} {P : Cache K V n → Prop}
    {a : α} {l : List α} (ha : a ∈ l) (hmoves : ∀ d b, Moves cfg .all d (f d b))
    (hkeep : ∀ d b, d.Sound → P d → Overtakes i key d (f d b) ∨ P (f d b))
    (hat : ∀ d, d.Sound → P d → Overtakes i key d (f d a)) (hc : c.Sound) (hP : P c) :
    Overtakes i key c (l.foldl f c) := by
  induction l generalizing c with
  | nil => cases ha
  | cons b l ih =>
    have hb : Steps cfg .all c (f c b) := hmoves c b hc.ready
    have hsound : (f c b).Sound := hc.steps hb
    have hrest : Steps cfg .all (f c b) (l.foldl f (f c b)) :=
      Moves.foldl (fun a _ d ↦ hmoves d a) _ hsound.ready
    rcases List.mem_cons.1 ha with rfl | ha
    · exact (hat c hc hP).after hb hrest
    · rcases hkeep c b hc hP with h | h
      · exact h.after hb hrest
      · exact (ih ha hsound h).before hb

omit [NeZero n] in
theorem strikes_foldl {α : Type*} {f : Cache K V n → α → Cache K V n} {P : Cache K V n → Prop}
    {a : α} {l : List α} (ha : a ∈ l) (hmoves : ∀ d b, Moves cfg .all d (f d b))
    (hheeds : ∀ d b, Heeds d (f d b))
    (hkeep : ∀ d b, d.Sound → P d → Strikes i key d (f d b) ∨ P (f d b))
    (hat : ∀ d, d.Sound → P d → Strikes i key d (f d a)) (hc : c.Sound) (hP : P c) :
    Strikes i key c (l.foldl f c) where
  overtakes := overtakes_foldl ha hmoves
    (fun d b hd h ↦ (hkeep d b hd h).imp_left Strikes.overtakes)
    (fun d hd h ↦ (hat d hd h).overtakes) hc hP
  voids := Heeds.voids_foldl (P := fun d ↦ d.Sound ∧ P d) hheeds ha
    (fun d b hd ↦ (hkeep d b hd.1 hd.2).imp Strikes.voids
      fun h ↦ ⟨hd.1.steps (hmoves d b hd.1.ready), h⟩)
    (fun d hd ↦ (hat d hd.1 hd.2).voids) ⟨hc, hP⟩

end Sections

/-! ### The operations that replace a key's data -/

variable {i : Fin n}

section Replace

variable [BEq K] [PartialEquivBEq K] [NeZero n] {cfg : Config K V} {env : Env K} {T : Licence K V}
  {c : Cache K V n} {key k : K} {value : V}

omit [PartialEquivBEq K] in
theorem Names.beq_self [PartialEquivBEq K] (h : Names n cfg key k) : k == k :=
  PartialEquivBEq.trans h.1 (BEq.symm h.1)

section Keyed

variable (hc : c.Sound) (hk : Names n cfg key k)
include hc hk

theorem strikes_setTTL (hsync : cfg.asyncWrites = false) {ttl : ℤ}
    (h : (c.setTTL cfg env k value ttl).1 = .ok ()) :
    Strikes (shardFor cfg key) key c (c.setTTL cfg env k value ttl).2 := by
  unfold setTTL at h ⊢
  dsimp only at h ⊢
  rw [if_neg (by simp [hsync])] at h ⊢
  rcases hw : c.checkSet cfg k value (cfg.autoTags value) with err | weight
  · rw [hw] at h
    cases h
  · obtain ⟨h₁, h₂⟩ := c.checkSet_eq_ok hw
    rw [← hk.2]
    refine ⟨overtakes_of_moves hc hk.1
      (Moves.trans (Moves.flush (.of_steps ?_) _).moves (settling.enforceGroupBudgets _ _).moves),
      ((voids_upsertLocked hk.1 _ value _ _ _ _ _).after
        (.of_frame (sheds_flushAndUnlock _).toFrame)).after (heeding.enforceGroupBudgets _ _)⟩
    exact c.steps_upsertLocked _ hk.beq_self h₁ h₂ _ _ _

theorem strikes_setWithOptions (hsync : cfg.asyncWrites = false) {opts : List SetOption}
    {guard : Bool} (h : (c.setWithOptions cfg env k value opts guard).1 = .ok ()) :
    Strikes (shardFor cfg key) key c (c.setWithOptions cfg env k value opts guard).2 := by
  unfold setWithOptions at h ⊢
  dsimp only at h ⊢
  rcases hw : c.checkOptions cfg k value (resolveOptions cfg value opts) with err | weight
  · rw [hw] at h
    cases h
  · rw [hw] at h
    dsimp only at h ⊢
    rw [if_neg (by simp [hsync])] at h ⊢
    rcases guard with - | -
    · cases h
    · obtain ⟨h₁, h₂⟩ := c.checkOptions_eq_ok hw
      rw [← hk.2]
      refine ⟨overtakes_of_moves hc hk.1
        (Moves.trans (Moves.flush (.of_steps ?_) _).moves (settling.enforceGroupBudgets _ _).moves),
        Voids.after (.after ?_ (.of_frame (sheds_flushAndUnlock _).toFrame))
          (heeding.enforceGroupBudgets _ _)⟩
      · exact c.steps_upsertOptionsLocked _ hk.beq_self h₁ h₂ _
      · unfold upsertOptionsLocked
        split_ifs
        · obtain ⟨P, hput⟩ := upsertWithAbsoluteExpiryLocked_supersedes cfg env c (shardFor cfg k) k
            value _ _ _
          exact hput.voids hk.1
        · exact voids_upsertLocked hk.1 _ value _ _ _ _ _

section

variable (hqueue : (c.shards (shardFor cfg k)).pending.get k = none)
include hqueue

/-- A conditional write that finds what it asks for. -/
theorem strikes_setConditional {kind : Conditional} {weight : ℤ}
    (hw : c.checkSet cfg k value (cfg.autoTags value) = .ok weight)
    (h : kind = .setIfPresent ↔ (c.freshEntryLocked cfg env (shardFor cfg k) k).isSome) :
    Strikes (shardFor cfg key) key c (c.setConditional cfg env kind k value) := by
  unfold setConditional
  rw [hw]
  obtain ⟨h₁, h₂⟩ := c.checkSet_eq_ok hw
  have hup : Moves cfg .all (c.supersedeFlight (shardFor cfg k) k)
      (c.upsertDefault cfg env (shardFor cfg k) k value weight) :=
    .of_steps (c.steps_upsertDefault (shardFor cfg k) hk.beq_self h₁ h₂)
  refine strikes_keyed hc hk hqueue ?_
  unfold conditionalLocked
  split
  · next hnone => exact absurd (h.1 rfl) (by simp [hnone])
  · exact ⟨hup, voids_upsertLocked hk.1 _ value _ _ _ _ _⟩
  · next hsome => exact absurd (h.2 (by simp [hsome])) (by simp)
  · next hne _ hsome => exact absurd (h.2 (by simp [hsome])) (by simpa using hne)
  · exact ⟨hup, voids_upsertLocked hk.1 _ value _ _ _ _ _⟩

/-- Whether the function of a `Compute` has a value stored or the key's fresh entry removed. -/
def Computes (cfg : Config K V) (env : Env K) (c : Cache K V n) (k : K)
    (fn : Option V → ComputeResult V) : Prop :=
  match fn ((c.freshEntryLocked cfg env (shardFor cfg k) k).map Entry.value) with
  | .store value => ∃ weight, computeWeight cfg value = .ok weight
  | .delete => (c.freshEntryLocked cfg env (shardFor cfg k) k).isSome
  | .noOp | .error => False

theorem strikes_compute (hopen : c.closed = false) {fn : Option V → ComputeResult V}
    (h : c.Computes cfg env k fn) : Strikes (shardFor cfg key) key c (c.compute cfg env k fn) := by
  unfold compute
  rw [if_neg (by simp [hopen])]
  refine strikes_keyed hc hk hqueue ?_
  unfold Computes at h
  unfold computeLocked
  split
  · next value hfn =>
    rw [hfn] at h
    obtain ⟨weight, hw⟩ := h
    obtain ⟨h₁, h₂⟩ := computeWeight_eq_ok hw
    unfold computeStoreLocked
    rw [hw]
    dsimp only
    refine ⟨.of_steps (c.steps_storeComputedLocked _ hk.beq_self h₁ h₂), ?_⟩
    unfold storeComputedLocked
    split
    · next e he =>
      exact (puts_replaceValueLocked cfg env (c.freshEntryLocked_eq_some _ he).1 value _).voids hk.1
    · exact voids_upsertLocked hk.1 _ value _ _ _ _ _
  · next e _ he =>
    obtain ⟨hget, -⟩ := c.freshEntryLocked_eq_some _ he
    exact ⟨.of_steps (steps_removeLocked_of_get hget rfl),
      (puts_removeLocked cfg env (Table.key_of_get hget) rfl).voids hk.1⟩
  · next hfn hnone =>
    rw [hfn, hnone] at h
    cases h
  all_goals
    next hfn =>
    rw [hfn] at h
    cases h

theorem strikes_computeIfAbsent (hopen : c.closed = false) {ttl weight : ℤ}
    (hnone : c.freshEntryLocked cfg env (shardFor cfg k) k = none) (httl : 0 ≤ ttl)
    (hw : computeWeight cfg value = .ok weight) :
    Strikes (shardFor cfg key) key c (c.computeIfAbsent cfg env k (some (value, ttl))) := by
  unfold computeIfAbsent
  rw [if_neg (by simp [hopen])]
  refine strikes_keyed hc hk hqueue ?_
  obtain ⟨h₁, h₂⟩ := computeWeight_eq_ok hw
  unfold computeIfAbsentLocked
  rw [hnone]
  dsimp only
  rw [if_neg (by omega), hw]
  exact ⟨.of_steps (c.steps_upsertLocked _ hk.beq_self h₁ h₂ _ _ _),
    voids_upsertLocked hk.1 _ value _ _ _ _ _⟩

theorem strikes_deleteKey (hopen : c.closed = false) (reason : EvictionReason) :
    Strikes (shardFor cfg key) key c (c.deleteKey cfg env k reason) := by
  unfold deleteKey
  rw [if_neg (by simp [hopen])]
  exact strikes_keyed hc hk hqueue ⟨.of_steps (c.steps_removeKeyLocked _ k reason),
    (puts_removeKeyLocked cfg env _ k reason).voids hk.1⟩

end

theorem overtakes_deleteIf (hsync : cfg.asyncWrites = false) (hopen : c.closed = false)
    {pred : V → Bool} (he : c.freshEntryLocked cfg env (shardFor cfg k) k = some e)
    (hpred : pred e.value = true) :
    Overtakes (shardFor cfg key) key c (c.deleteIf cfg env k pred) := by
  refine overtakes_onKey hc hk hsync hopen ?_
  rw [he]
  dsimp only
  rw [if_pos hpred]
  exact .of_steps ((steps_removeLocked_of_get (c.freshEntryLocked_eq_some _ he).1 rfl).frame rfl)

theorem strikes_removeAndFlush (he : (c.lookupKey cfg k).isSome)
    (hreason : supersedesFlight reason = true) :
    Strikes (shardFor cfg key) key c (c.removeAndFlush cfg env k reason) := by
  obtain ⟨e, he⟩ := Option.isSome_iff_exists.1 he
  have he : (c.shards (shardFor cfg k)).get k = some e := he
  unfold removeAndFlush
  dsimp only
  rw [he, ← hk.2]
  exact ⟨overtakes_of_moves hc hk.1
    (Moves.flush (.of_steps (steps_removeLocked_of_get he hreason)) _).moves,
    ((puts_removeLocked cfg env (Table.key_of_get he) hreason).voids hk.1).after
      (.of_frame (sheds_flushAndUnlock _).toFrame)⟩

theorem strikes_storeBulkLoaded (hopen : c.closed = false) {w : ℕ}
    (hw : ((c.shards (shardFor cfg k)).flights.token w).any fun t ↦ !t.superseded) {weight : ℤ}
    (hweight : computeWeight cfg value = .ok weight) (ttl : ℤ) :
    Strikes (shardFor cfg key) key c (c.storeBulkLoaded cfg env k value ttl w) := by
  obtain ⟨h₁, h₂⟩ := computeWeight_eq_ok hweight
  unfold storeBulkLoaded
  dsimp only
  rw [if_pos (by simp [hw, hopen]), ← hk.2]
  unfold storeLoadedLocked
  rw [hweight]
  refine ⟨overtakes_of_moves hc hk.1 (Moves.flush (.of_steps ?_) _).moves,
    (voids_upsertLocked hk.1 _ value _ _ _ _ _).after (.of_frame (sheds_flushAndUnlock _).toFrame)⟩
  exact c.steps_upsertLocked _ hk.beq_self h₁ h₂ _ _ _

/-- A promotion marks the key's loads, with the watch taken out of the map before. -/
theorem overtakes_promote (hopen : c.closed = false)
    (hnone : c.freshEntryLocked cfg env (shardFor cfg k) k = none) {storeExpireAt weight : ℤ}
    (hw : c.preparePromotion cfg k value storeExpireAt = .ok weight) :
    Overtakes (shardFor cfg key) key c (c.promote cfg env k value storeExpireAt) := by
  obtain ⟨h₁, h₂⟩ := c.preparePromotion_eq_ok hw
  unfold promote
  dsimp only
  rw [hnone, if_pos Option.isNone_none, hw, ← hk.2]
  unfold promoteLocked
  dsimp only
  rw [if_neg (by simp [hopen])]
  set i : Fin n := shardFor cfg k
  have hhide : Steps cfg .all c (c.hideWatch i k) :=
    c.steps_flights i (f := fun s ↦ { s with watches := s.watches.erase k }) (.watch _ _ _ _)
  refine Overtakes.before hhide (overtakes_of_moves (hc.steps hhide) hk.1
    (Moves.flush (.of_steps (Steps.trans ?_ (steps_restoreWatch ..))) _).moves)
  unfold upsertPromoted
  dsimp only
  split_ifs
  · exact steps_upsertLocked _ i hk.beq_self h₁ h₂ _ _ _
  · exact steps_upsertDefault _ i hk.beq_self h₁ h₂

end Keyed

/-! ### Removals of many keys -/

/-- What a method that empties the queue first overtakes with the rest of its work. -/
theorem overtakes_drained (cfg : Config K V) (env : Env K) {c' : Cache K V n} (hc : c.Sound)
    (h : (c.applyAllPending cfg env).Sound → Overtakes i key (c.applyAllPending cfg env) c') :
    Overtakes i key c c' := by
  have hdrain : Steps cfg .all c (c.applyAllPending cfg env) :=
    (settling.applyAllPending c).moves hc.ready
  exact (h (hc.steps hdrain)).before hdrain

theorem overtakes_deletePrefix (hc : c.Sound) (hopen : c.closed = false) {m : K → Bool}
    (hm : ∀ k, k == key → m k = true) (i : Fin n) :
    Overtakes i key c (c.deletePrefix cfg env (some m)) := by
  unfold deletePrefix
  rw [if_neg (by simp [hopen])]
  refine overtakes_drained cfg env hc fun hc ↦ ?_
  refine overtakes_foldl (P := fun _ ↦ True) (List.mem_finRange i)
    (fun d j ↦ (settling.deletePrefixShard d m j).moves) (fun _ _ _ _ ↦ .inr trivial) ?_ hc trivial
  intro d hd _
  exact overtakes_of_flights (f := fun s ↦ s.supersedeMatching m) hd.ready
    (.supersedeMatching _ m) ((hd.flights i).overtakes_supersedeMatching hm)
    (Moves.flush (settling.removeAll _ i .deletedPrefix _) i).moves

theorem strikes_reset (hc : c.Sound) (i : Fin n) : Strikes i key c (c.reset cfg env) := by
  have hclear (d : Cache K V n) (j : Fin n) :
      Moves cfg .all (d.supersedeAllFlights j) ((d.clearShard cfg j).flushAndUnlock cfg env j) :=
    (Moves.flush (.of_steps (d.steps_clearShard j)) j).moves
  have hheeds (d : Cache K V n) (j : Fin n) :
      Heeds d ((d.clearShard cfg j).flushAndUnlock cfg env j) :=
    (heeds_clearShard d j).frame (sheds_flushAndUnlock _).toFrame
  have hloop {d : Cache K V n} (hd : d.Sound) : Strikes i key d ((List.finRange n).foldl
      (fun d j ↦ (d.clearShard cfg j).flushAndUnlock cfg env j) d) := by
    refine strikes_foldl (P := fun _ ↦ True) (List.mem_finRange i)
      (fun d j ↦ Moves.trans (.of_steps (d.steps_supersedeAllFlights j)) (hclear d j)) hheeds
      (fun _ _ _ _ ↦ .inr trivial) (fun d hd _ ↦ ⟨?_, Voids.after (fun w hw ↦ ?_)
        (.of_frame (sheds_flushAndUnlock _).toFrame)⟩) hd trivial
    · exact overtakes_of_flights (f := fun s ↦ s.supersedeAllFlights) hd.ready (.supersedeAll _)
        ((hd.flights i).overtakes_supersedeAllFlights key) (hclear d i)
    · have hflights : ((d.clearShard cfg i).shards i).flights =
          (d.shards i).flights.supersedeAllFlights := by
        simp [clearShard, addCounters, emptyShard, supersedeAllFlights, untagShardLocked]
      rw [hflights]
      exact Flights.void_supersedeAllFlights hw
  have hdrain : Steps cfg .all c (c.applyAllPending cfg env) :=
    (settling.applyAllPending c).moves hc.ready
  unfold reset
  exact ⟨overtakes_drained cfg env hc fun hc ↦ (hloop hc).overtakes,
    .before (heeding.applyAllPending c) (hloop (hc.steps hdrain)).voids (.foldl hheeds _ _)⟩

theorem overtakes_clear (hc : c.Sound) (hopen : c.closed = false) (i : Fin n) :
    Overtakes i key c (c.clear cfg env) := by
  unfold clear
  rw [if_neg (by simp [hopen])]
  exact (strikes_reset hc i).overtakes

/-- The loop of `DeleteWhere` over a shard's keys comes to a key it is to remove. -/
theorem overtakes_removeKeys (hk : e.key == key) (hreason : supersedesFlight reason = true)
    {keys : List K} (hmem : e.key ∈ keys) (hc : c.Sound) (he : e ∈ (c.shards i).storage) :
    Overtakes i key c (removeKeys cfg env i reason keys c) := by
  induction keys generalizing c with
  | nil => cases hmem
  | cons k keys ih =>
    have htable : TableOk (c.shards i).toTable c.core.nextId := hc.inv.table i
    have hself : e.key == e.key := PartialEquivBEq.trans hk (BEq.symm hk)
    unfold removeKeys
    split
    · next hnone =>
      rcases List.mem_cons.1 hmem with rfl | hmem
      · cases hnone.symm.trans (htable.get_eq he hself)
      · exact ih hmem hc he
    · next a ha =>
      have hstep : Steps cfg .all c (c.removeLocked cfg env i a reason) :=
        c.steps_removeLocked i (Table.mem_of_get ha) reason
      by_cases hae : a.key == e.key
      · -- the entry under this key is the one in question
        obtain rfl := htable.eq_of_key (Table.mem_of_get ha) he hae
        have hka : k == key := PartialEquivBEq.trans (BEq.symm (Table.key_of_get ha)) hk
        exact (overtakes_of_moves hc hka
          (.of_steps (steps_removeLocked_of_get ha hreason))).after hstep
          (settling.removeKeys _ i reason keys (hc.steps hstep).ready)
      · have hstay : e ∈ ((c.removeLocked cfg env i a reason).shards i).storage := by
          rw [toTable_removeLocked]
          refine List.mem_filter.2 ⟨he, ?_⟩
          rw [BEq.comm] at hae
          simpa using hae
        have hne : e.key ≠ k := by
          rintro rfl
          exact hae (Table.key_of_get ha)
        exact (ih ((List.mem_cons.1 hmem).resolve_left hne) (hc.steps hstep) hstay).before hstep

omit [NeZero n] in
theorem spares_removeKeys {doomed : Fin n → Entry K V → Prop} (hdoom : ∀ a, doomed i a)
    (reason : EvictionReason) (keys : List K) (hinv : c.core.Inv) :
    Spares doomed c (removeKeys cfg env i reason keys c) := by
  induction keys generalizing c with
  | nil => exact .of_calm (.refl c)
  | cons k keys ih =>
    unfold removeKeys
    split
    · exact ih hinv
    · next a ha =>
      have hmem := Table.mem_of_get ha
      have hstep : Steps cfg .all c (c.removeLocked cfg env i a reason) :=
        c.steps_removeLocked i hmem reason
      exact (spares_removeLocked (hinv.table i) hmem (hdoom a) reason).trans
        (ih (inv_of_steps hstep hinv))

/-- A cache within its bounds that stores an entry. -/
def Stores (i : Fin n) (e : Entry K V) (c : Cache K V n) : Prop :=
  c.overBudget = false ∧ e ∈ (c.shards i).storage

omit [BEq K] [PartialEquivBEq K] [NeZero n] in
theorem stores_of_settled (hs : c.core.Settled) (he : e ∈ (c.shards i).storage) : Stores i e c := by
  refine ⟨hs.resolve_right fun hempty ↦ ?_, he⟩
  have hnil : (c.shards i).storage = [] := hempty i
  rw [hnil] at he
  cases he

omit [PartialEquivBEq K] [NeZero n] in
theorem Spares.stores {doomed : Fin n → Entry K V → Prop} {c' : Cache K V n}
    (h : Spares doomed c c') (hd : ¬ doomed i e) (hs : Stores i e c) : Stores i e c' :=
  ⟨h.within hs.1, h.kept hs.1 hs.2 hd⟩

theorem overtakes_deleteWhere (hc : c.Sound) (hs : c.core.Settled) (hsync : cfg.asyncWrites = false)
    (hopen : c.closed = false) {pred : K → V → Bool} (he : e ∈ (c.shards i).storage)
    (hk : e.key == key) (hlive : entryExpiredLocked cfg e env.now = false)
    (hneg : e.negative = false) (hpred : pred e.key e.value = true) :
    Overtakes i key c (c.deleteWhere cfg env pred) := by
  unfold deleteWhere applyAllPending
  rw [if_neg (by simp [hopen]), if_neg (by simp [hsync])]
  have hmoves (d : Cache K V n) (j : Fin n) : Moves cfg .all d (deleteWhereShard cfg env pred d j) := by
    unfold deleteWhereShard
    dsimp only
    split_ifs
    · exact .refl
    · exact (Moves.flush (settling.removeKeys d j _ _) j).moves
  have hat (d : Cache K V n) (hd : d.Sound) (hP : Stores i e d) :
      Overtakes i key d (deleteWhereShard cfg env pred d i) := by
    have hmem : e.key ∈ ((d.shards i).storage.filter fun e ↦
        !entryExpiredLocked cfg e env.now && !e.negative && pred e.key e.value).map Entry.key :=
      List.mem_map_of_mem (List.mem_filter.2 ⟨hP.2, by simp [hlive, hneg, hpred]⟩)
    unfold deleteWhereShard
    dsimp only
    rw [if_neg (by simpa using List.ne_nil_of_mem hmem)]
    exact (overtakes_removeKeys hk rfl hmem hd hP.2).after (T := .all) (settling.removeKeys d i _ _ hd.ready)
      (steps_flushAndUnlock _ i)
  refine overtakes_foldl (P := Stores i e) (List.mem_finRange i) hmoves ?_ hat hc
    (stores_of_settled hs he)
  intro d j hd hP
  rcases eq_or_ne j i with rfl | hj
  · exact .inl (hat d hd hP)
  · -- the other shards keep the entry where it is
    have hspares : Spares (fun j' _ ↦ j' = j) d (deleteWhereShard cfg env pred d j) := by
      unfold deleteWhereShard
      dsimp only
      split_ifs
      · exact .of_calm (.refl d)
      · exact (spares_removeKeys (fun _ ↦ rfl) _ _ hd.inv).trans (.of_calm (calm_flushAndUnlock _ j))
    exact .inr (hspares.stores hj.symm hP)

/-- Removing the entry under a key leaves the entries of other keys. -/
theorem spares_removeAndFlush (hinv : c.core.Inv) (k : K) (reason : EvictionReason) :
    Spares (fun j a ↦ j = shardFor cfg k ∧ (a.key == k) = true) c
      (c.removeAndFlush cfg env k reason) := by
  unfold removeAndFlush
  dsimp only
  split
  · exact .of_calm (calm_flushAndUnlock _ _)
  · next a ha =>
    exact (spares_removeLocked (hinv.table _) (Table.mem_of_get ha) ⟨rfl, Table.key_of_get ha⟩
      reason).trans (.of_calm (calm_flushAndUnlock _ _))

/-- The loop of `InvalidateTags` over the keys of the index comes to a resident entry's key. -/
theorem strikes_invalidateTags (hc : c.Sound) (hs : c.core.Settled)
    (hsync : cfg.asyncWrites = false) (hopen : c.closed = false) {tags : List String}
    (hk : Names n cfg key k) (hmem : k ∈ (tags.flatMap c.tagged).eraseDups)
    (he : c.lookupKey cfg key = some e) :
    Strikes (shardFor cfg key) key c (c.invalidateTags cfg env tags) := by
  have htags : tags ≠ [] := by
    rintro rfl
    simp at hmem
  have hekey : e.key == key := Table.key_of_get he
  unfold invalidateTags applyAllPending
  rw [if_neg (by simp [hopen, htags]), if_neg (by simp [hsync])]
  have hat {k' : K} (hk' : Names n cfg key k') (d : Cache K V n) (hd : d.Sound)
      (hP : Stores (shardFor cfg key) e d) :
      Strikes (shardFor cfg key) key d (d.removeAndFlush cfg env k' .tag) := by
    refine strikes_removeAndFlush hd hk' ?_ rfl
    have hfound : d.lookupKey cfg key = some e := (hd.inv.table _).get_eq hP.2 hekey
    rw [hk'.lookupKey, hfound]
    rfl
  refine strikes_foldl (P := Stores (shardFor cfg key) e) hmem
    (fun d k ↦ (settling.removeAndFlush d k .tag).moves)
    (fun d k ↦ .of_frame (fades_removeAndFlush d k .tag).toFrame) ?_ (hat hk) hc
    (stores_of_settled hs (Table.mem_of_get he))
  intro d k' hd hP
  by_cases hk' : Names n cfg key k'
  · exact .inl (hat hk' d hd hP)
  · -- another entry goes
    refine .inr ((spares_removeAndFlush hd.inv k' .tag).stores ?_ hP)
    rintro ⟨hshard, hke⟩
    exact hk' ⟨PartialEquivBEq.trans (BEq.symm hke) hekey, hshard.symm⟩

theorem overtakes_close (hc : c.Sound) (hopen : c.closed = false) (i : Fin n) :
    Overtakes i key c (c.close cfg env) := by
  unfold close
  rw [if_neg (by simp [hopen])]
  have hclosed : Moves cfg .all c c.markClosed := .of_steps (.of_eq rfl)
  have hsealed (d : Cache K V n) : Moves cfg .all d d.markSealed := .of_steps (.of_eq rfl)
  have hstop (d : Cache K V n) : Moves cfg .all d d.stopAllJanitors :=
    Moves.foldl (fun j _ d ↦ .of_steps (.of_eq (d.core_modify_eq j rfl))) d
  have hdrain (d : Cache K V n) : Moves cfg .all d (d.applyAllPending cfg env) :=
    (settling.applyAllPending d).moves
  have hsteps := (((hclosed.trans (hdrain _)).trans (hsealed _)).trans (hstop _)) hc.ready
  exact (strikes_reset (hc.steps hsteps) i).overtakes.before hsteps

/-- The state of a `Load` or `Merge` when it comes to the record after `staged`. -/
def loadPrior (cfg : Config K V) (env : Env K) (c : Cache K V n) (clearFirst : Bool)
    (staged : List (SnapRecord K V)) : Cache K V n :=
  staged.foldl (fun c snap ↦ c.loadRecord cfg env snap) (if clearFirst then c.reset cfg env else c)

/-- A record of the key that is applied. -/
theorem overtakes_loadInto [ReflBEq K] (hc : c.Sound) (hopen : c.closed = false) (clearFirst : Bool)
    {before after : List (SnapRecord K V)} {snap : SnapRecord K V} (hk : Names n cfg key snap.key)
    (hlive : ¬ (snap.expireAt ≠ 0 ∧ snap.expireAt ≤ env.now))
    (hallow : (admitSnapshotRecord cfg (c.loadPrior cfg env clearFirst before) snap).isSome) :
    Overtakes (shardFor cfg key) key c
      (c.loadInto cfg env clearFirst (before ++ snap :: after)) := by
  have hrecords (l : List (SnapRecord K V)) (d : Cache K V n) :
      Moves cfg .all d (l.foldl (fun c snap ↦ c.loadRecord cfg env snap) d) :=
    Moves.foldl (fun snap _ d ↦ (settling.loadRecord d (BEq.refl snap.key)).moves) d
  have hprior : Moves cfg .all c (c.loadPrior cfg env clearFirst before) := by
    refine Moves.trans ?_ (hrecords before _)
    split_ifs
    · exact (settling.reset c).moves
    · exact .refl
  set d := c.loadPrior cfg env clearFirst before with hd
  have hsound : d.Sound := hc.steps (hprior hc.ready)
  have hall : c.loadInto cfg env clearFirst (before ++ snap :: after) =
      after.foldl (fun c snap ↦ c.loadRecord cfg env snap) (d.loadRecord cfg env snap) := by
    unfold loadInto
    rw [if_neg (by simp [hopen]), List.foldl_append, List.foldl_cons, hd, loadPrior]
  have hrecord : Overtakes (shardFor cfg key) key d (d.loadRecord cfg env snap) := by
    obtain ⟨snap', hsnap⟩ := Option.isSome_iff_exists.1 hallow
    obtain ⟨hkey, h₁, h₂⟩ := admitSnapshotRecord_eq_some d hsnap
    unfold loadRecord
    rw [if_neg hlive, hsnap]
    dsimp only
    rw [← hk.2, hkey]
    refine overtakes_of_moves hsound hk.1 (Moves.flush (.of_steps ?_) _).moves
    rw [← hkey]
    exact d.steps_applySnapshotLocked _ (BEq.refl _) h₁ h₂
  rw [hall]
  have hstep : Steps cfg .all d (d.loadRecord cfg env snap) :=
    (settling.loadRecord d (BEq.refl snap.key)).moves hsound.ready
  exact (hrecord.after hstep (hrecords after _ (hsound.steps hstep).ready)).before (hprior hc.ready)

/-- An operation on an open cache with synchronous writes that writes, deletes or invalidates the
key. -/
def Replaces (cfg : Config K V) (env : Env K) (c : Cache K V n) (key : K) : Op K V n → Prop
  | .set k value => Names n cfg key k ∧ (c.set cfg env k value).1 = .ok ()
  | .setWithTTL k value ttl => Names n cfg key k ∧ (c.setWithTTL cfg env k value ttl).1 = .ok ()
  | .setWithOptions k value opts guard =>
    Names n cfg key k ∧ (c.setWithOptions cfg env k value opts guard).1 = .ok ()
  | .setConditional kind k value => Names n cfg key k ∧
    (∃ weight, c.checkSet cfg k value (cfg.autoTags value) = .ok weight) ∧
    (kind = .setIfPresent ↔ (c.freshEntryLocked cfg env (shardFor cfg k) k).isSome)
  | .compute k fn => Names n cfg key k ∧ c.closed = false ∧ c.Computes cfg env k fn
  | .computeIfPresent k fn => Names n cfg key k ∧ c.closed = false ∧
    c.Computes cfg env k fun cur ↦ match cur with | none => .noOp | some v => fn v
  | .update k fn => Names n cfg key k ∧ c.closed = false ∧
    c.Computes cfg env k fun cur ↦ match cur with | none => .noOp | some v => .store (fn v)
  | .compareAndSwap k same newValue => Names n cfg key k ∧ c.closed = false ∧
    c.Computes cfg env k fun cur ↦ match cur with
      | none => .noOp
      | some v => if same v then .store newValue else .noOp
  | .computeIfAbsent k res => Names n cfg key k ∧ c.closed = false ∧
    c.freshEntryLocked cfg env (shardFor cfg k) k = none ∧
    ∃ value ttl weight, res = some (value, ttl) ∧ 0 ≤ ttl ∧ computeWeight cfg value = .ok weight
  | .delete k | .deleteWithReason k _ => Names n cfg key k ∧ c.closed = false
  | .deleteIf k pred => Names n cfg key k ∧ c.closed = false ∧
    ∃ e, c.freshEntryLocked cfg env (shardFor cfg k) k = some e ∧ pred e.value = true
  | .deleteWhere pred => c.closed = false ∧ ∃ e, c.lookupKey cfg key = some e ∧
    entryExpiredLocked cfg e env.now = false ∧ e.negative = false ∧ pred e.key e.value = true
  | .deletePrefix matcher => c.closed = false ∧
    ∃ m, matcher = some m ∧ ∀ k, k == key → m k = true
  | .invalidateTags tags => c.closed = false ∧ (∃ e, c.lookupKey cfg key = some e) ∧
    ∃ k ∈ (tags.flatMap c.tagged).eraseDups, Names n cfg key k
  | .storeBulkLoaded k value _ w => Names n cfg key k ∧ c.closed = false ∧
    (((c.shards (shardFor cfg k)).flights.token w).any fun t ↦ !t.superseded) ∧
    ∃ weight, computeWeight cfg value = .ok weight
  | .promote k value storeExpireAt => Names n cfg key k ∧ c.closed = false ∧
    c.freshEntryLocked cfg env (shardFor cfg k) k = none ∧
    ∃ weight, c.preparePromotion cfg k value storeExpireAt = .ok weight
  | .rollbackInMemory k => Names n cfg key k ∧ (c.lookupKey cfg k).isSome
  | .loadInto clearFirst staged => c.closed = false ∧ ∃ before snap after,
    staged = before ++ snap :: after ∧ Names n cfg key snap.key ∧
    ¬ (snap.expireAt ≠ 0 ∧ snap.expireAt ≤ env.now) ∧
    (admitSnapshotRecord cfg (c.loadPrior cfg env clearFirst before) snap).isSome
  | .clear | .close => c.closed = false
  | .reset => True
  | _ => False

end Replace

/-! ### Runs -/

section Run

variable [BEq K] [EquivBEq K] [NeZero n] [Inhabited V] {cfg : Config K V} {env : Env K}
  {c : Cache K V n} {key : K}

theorem sound_of_reachable (hc : Reachable cfg c) : c.Sound := by
  refine ⟨(readInv_of_reachable hc).1, ?_, flightsOk_of_reachable hc⟩
  obtain ⟨ops, rfl⟩ := hc
  exact (ready_new cfg).steps (steps_run (T := .all) (.of_forall stepOk_of_equiv _ _))

theorem moves_run (c : Cache K V n) (ops : List (Env K × Op K V n)) :
    Moves cfg .all c (run cfg c ops) :=
  Moves.foldl (fun p _ d ↦ (settles_step_of_permits (stepOk_of_equiv d p)).moves) c

/-- **Every operation that replaces a key's data overtakes the key's loads.** -/
theorem overtakes_of_replaces (hc : Reachable cfg c) (hsync : cfg.asyncWrites = false)
    {op : Op K V n} (h : Replaces cfg env c key op) :
    Overtakes (shardFor cfg key) key c (step cfg env c op) := by
  have hs : c.Sound := sound_of_reachable hc
  have hqueue (k : K) : (c.shards (shardFor cfg k)).pending.get k = none :=
    pending_of_reachable hc hsync _ k
  cases op with
  | set k value => exact (strikes_setTTL hs h.1 hsync h.2).overtakes
  | setWithTTL k value ttl =>
    obtain ⟨hk, hok⟩ := h
    simp only [step]
    unfold setWithTTL at hok ⊢
    by_cases hneg : ttl < 0
    · rw [if_pos hneg] at hok
      cases hok
    · rw [if_neg hneg] at hok ⊢
      exact (strikes_setTTL hs hk hsync hok).overtakes
  | setWithOptions k value opts guard => exact (strikes_setWithOptions hs h.1 hsync h.2).overtakes
  | setConditional kind k value =>
    obtain ⟨hk, ⟨weight, hw⟩, hfresh⟩ := h
    exact (strikes_setConditional hs hk (hqueue k) hw hfresh).overtakes
  | compute k fn => exact (strikes_compute hs h.1 (hqueue k) h.2.1 h.2.2).overtakes
  | computeIfPresent k fn => exact (strikes_compute hs h.1 (hqueue k) h.2.1 h.2.2).overtakes
  | update k fn => exact (strikes_compute hs h.1 (hqueue k) h.2.1 h.2.2).overtakes
  | compareAndSwap k same newValue => exact (strikes_compute hs h.1 (hqueue k) h.2.1 h.2.2).overtakes
  | computeIfAbsent k res =>
    obtain ⟨hk, hopen, hnone, value, ttl, weight, rfl, httl, hw⟩ := h
    exact (strikes_computeIfAbsent hs hk (hqueue k) hopen hnone httl hw).overtakes
  | delete k =>
    simp only [step, delete, hsync, Bool.not_false, if_true]
    exact (strikes_deleteKey hs h.1 (hqueue k) h.2 .deleted).overtakes
  | deleteWithReason k reason => exact (strikes_deleteKey hs h.1 (hqueue k) h.2 reason).overtakes
  | deleteIf k pred =>
    obtain ⟨hk, hopen, e, he, hpred⟩ := h
    exact overtakes_deleteIf hs hk hsync hopen he hpred
  | deleteWhere pred =>
    obtain ⟨hopen, e, he, hlive, hneg, hpred⟩ := h
    exact overtakes_deleteWhere hs (settled_of_reachable hc) hsync hopen (Table.mem_of_get he)
      (Table.key_of_get he) hlive hneg hpred
  | deletePrefix matcher =>
    obtain ⟨hopen, m, rfl, hm⟩ := h
    exact overtakes_deletePrefix hs hopen hm _
  | invalidateTags tags =>
    obtain ⟨hopen, ⟨e, he⟩, k, hmem, hk⟩ := h
    exact (strikes_invalidateTags hs (settled_of_reachable hc) hsync hopen hk hmem he).overtakes
  | storeBulkLoaded k value ttl w =>
    obtain ⟨hk, hopen, hw, weight, hweight⟩ := h
    exact (strikes_storeBulkLoaded hs hk hopen hw hweight ttl).overtakes
  | promote k value storeExpireAt =>
    obtain ⟨hk, hopen, hnone, weight, hw⟩ := h
    exact overtakes_promote hs hk hopen hnone hw
  | rollbackInMemory k => exact (strikes_removeAndFlush hs h.1 h.2 rfl).overtakes
  | loadInto clearFirst staged =>
    obtain ⟨hopen, before, snap, after, rfl, hk, hlive, hallow⟩ := h
    exact overtakes_loadInto hs hopen clearFirst hk hlive hallow
  | clear => exact overtakes_clear hs h _
  | close => exact overtakes_close hs h _
  | reset => exact (strikes_reset hs _).overtakes
  | _ => exact h.elim

/-- An operation overtakes the loads of a key by replacing the key's data, or by starting a newer
load of the key. -/
def Overtaking (cfg : Config K V) (env : Env K) (c : Cache K V n) (key : K) (op : Op K V n) : Prop :=
  Replaces cfg env c key op ∨
    ∃ g ∈ ((step cfg env c op).shards (shardFor cfg key)).flights.running,
      g.key == key ∧ (c.shards (shardFor cfg key)).flights.nextFlight ≤ g.id

theorem overtakes_of_overtaking (hc : Reachable cfg c) (hsync : cfg.asyncWrites = false)
    {op : Op K V n} (h : Overtaking cfg env c key op) :
    Overtakes (shardFor cfg key) key c (step cfg env c op) := by
  rcases h with h | ⟨g, hg, hkey, hnew⟩
  · exact overtakes_of_replaces hc hsync h
  · exact (flightsOk_of_reachable (hc.step env op) _).overtakes_of_newer hg hkey hnew

omit [Inhabited V] in
/-- Releasing a lock with the cache settled takes nothing away. -/
theorem storage_flushAndUnlock (hs : c.core.Settled) (i j : Fin n) :
    ((c.flushAndUnlock cfg env i).shards j).storage = (c.shards j).storage := by
  rcases hs with hw | hempty
  · exact (calm_flushAndUnlock c i).storage hw j
  · have hnil : (c.shards j).storage = [] := hempty j
    rw [hnil]
    exact (shedding_empty cfg env .capacity j).flushAndUnlock c i hnil

/-- The end of a load that may not store changes no entry and no cached error. -/
theorem finishLoad_of_superseded (hs : c.core.Settled) {id : ℕ}
    (hsup : ∀ f, (c.shards i).flights.flight id = some f → f.superseded = true) (res : LoadResult V)
    (j : Fin n) :
    ((c.finishLoad cfg env i id res).shards j).storage = (c.shards j).storage ∧
      ((c.finishLoad cfg env i id res).shards j).errors = (c.shards j).errors := by
  unfold finishLoad
  split
  · exact ⟨rfl, rfl⟩
  · next f hf =>
    unfold applyLoadResultLocked
    rw [hsup f hf, Bool.true_or, if_pos rfl]
    have hend : ((c.endFlight i f).shards j).storage = (c.shards j).storage ∧
        ((c.endFlight i f).shards j).errors = (c.shards j).errors := by
      unfold endFlight
      exact modify_cases j ⟨rfl, rfl⟩ fun _ _ ↦ ⟨rfl, rfl⟩
    have hsettled : (c.endFlight i f).core.Settled := by
      refine hs.imp (fun hw ↦ hw) fun hempty k ↦ ?_
      rw [endFlight, core_modify]
      exact Core.set_cases k (hempty i) fun k _ ↦ hempty k
    refine ⟨(storage_flushAndUnlock hsettled i j).trans hend.1, ?_⟩
    exact ((sheds_flushAndUnlock (c.endFlight i f)).errors j).trans hend.2

/-- **A load that was overtaken changes nothing when it ends.** The load runs in a reachable state,
an operation overtakes it, and after any further operations it ends, with whatever result. -/
theorem finishLoad_of_overtaken (hsync : cfg.asyncWrites = false) (hc : Reachable cfg c)
    {f : Flight K} (hf : f ∈ (c.shards (shardFor cfg key)).flights.running) (hkey : f.key == key)
    {op : Op K V n} (hover : Overtaking cfg env c key op) (ops : List (Env K × Op K V n))
    (env' : Env K) (res : LoadResult V) (j : Fin n) :
    let c' := run cfg (step cfg env c op) ops
    ((c'.finishLoad cfg env' (shardFor cfg key) f.id res).shards j).storage =
        (c'.shards j).storage ∧
      ((c'.finishLoad cfg env' (shardFor cfg key) f.id res).shards j).errors =
        (c'.shards j).errors := by
  intro c'
  have hflights := flightsOk_of_reachable hc (shardFor cfg key)
  have hreach : Reachable cfg (step cfg env c op) := hc.step env op
  have hstep : Steps cfg .all c (step cfg env c op) :=
    (settles_step_of_permits (stepOk_of_equiv c (env, op))).moves (sound_of_reachable hc).ready
  have hrest : Steps cfg .all (step cfg env c op) c' :=
    moves_run _ ops (sound_of_reachable hreach).ready
  have hend : Overtakes (shardFor cfg key) key c c' :=
    (overtakes_of_overtaking hc hsync hover).after hstep hrest
  refine finishLoad_of_superseded (settled_of_reachable (hreach.run ops)) (fun f' hf' ↦ ?_) res j
  have hmem : f' ∈ (c'.shards (shardFor cfg key)).flights.running := NodeList.mem_of_lookup hf'
  have hid : f'.id = f.id := NodeList.ident_of_lookup hf'
  have hold : f'.id < (c.shards (shardFor cfg key)).flights.nextFlight := hid ▸ hflights.fresh f hf
  -- what still runs under the identity is the load of before, so its key is the same
  obtain ⟨g, hg, hgid, hgkey, -⟩ := (later_of_steps (hstep.trans hrest) _).running f' hmem hold
  obtain rfl : g = f := hflights.distinct.eq_of_ident hg hf (hgid.trans hid)
  exact hend f' hmem (hgkey ▸ hkey) hold

/-- A cache with a loader. -/
def loadConfig : Config ℕ ℕ := { defaultConfig fun _ ↦ 0 with hasLoader := true }

/-- A load of key 1 runs. -/
def loadStart : Cache ℕ ℕ 1 := run loadConfig (new loadConfig 1) [(.instant 0, .getOrLoad 1 true)]

/-- The key is deleted while its load runs. -/
theorem finishLoad_of_overtaken_delete :
    let c' := run loadConfig (step loadConfig (.instant 1) loadStart (.delete 1)) []
    ((c'.finishLoad loadConfig (.instant 2) 0 0 (.value 5 0)).shards 0).storage =
        (c'.shards 0).storage ∧
      ((c'.finishLoad loadConfig (.instant 2) 0 0 (.value 5 0)).shards 0).errors =
        (c'.shards 0).errors := by
  have hrun : (⟨0, 1, 1, false⟩ : Flight ℕ) ∈
      (loadStart.shards (shardFor loadConfig 1)).flights.running := by decide +kernel
  have hover : Overtaking loadConfig (.instant 1) loadStart 1 (.delete 1) :=
    .inl ⟨⟨rfl, rfl⟩, by decide +kernel⟩
  exact finishLoad_of_overtaken rfl ⟨_, rfl⟩ hrun rfl hover [] (.instant 2) (.value 5 0) 0

end Run

end Cache

end Memcache
