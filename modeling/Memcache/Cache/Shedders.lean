import Memcache.Cache.Reached
import Memcache.Cache.Shed

/-!
# Threads that shed

Any thread that leaves the cache over its bounds calls `shedOverBudget`, but only one of them sheds at a
time. A thread that finds another one at it sets `shedRetry`, tries once more, and leaves the work to
the other. Here the calls of any number of threads run step by step: each load, store and
compare-and-swap of `shedding` and `shedRetry`, each look at the counters and each round of an eviction
is a step of its own, and between two of them any other thread may take its steps.

The argument is that **some thread always minds** the entries that are too many (`Shedders.Minds`):

* one that has not looked at the counters since, or has seen them and not asked for a retry yet;
* one that tries again while no other sheds;
* the one that sheds, as long as its sweep is still to begin, or has evicted something, or a retry was
  asked for since it began, or **all the shards it has been through are empty**;
* one that has stopped shedding and is about to find that it evicted something or that a retry was
  asked for.

The clause on the empty shards carries a sweep through to its end. A thread that adds an entry behind
the sweep minds it itself until it has asked for the retry, and that request outlives the sweep: only
the next one withdraws it, as it begins.
-/

namespace Memcache

variable {K V T : Type*} {n : ℕ}

/-! ### The calls, step by step -/

/-- Where a thread is in `shedOverBudget`. In a sweep it carries the number of entries the sweep has
evicted and the shards still to visit. -/
inductive ShedPhase (n : ℕ) where
  | work
  | loop
  | trySwap
  | askRetry
  | tryAgain
  | clearRetry
  | startPass
  | visit (evicted : ℕ) (todo : List (Fin n))
  | evict (evicted : ℕ) (shard : Fin n) (todo : List (Fin n))
  | release (evicted : ℕ)
  | reload (evicted : ℕ)
  | done
deriving DecidableEq, Repr

/-- A thread, with the evictions its call has counted. -/
structure ShedThread (n : ℕ) where
  phase : ShedPhase n
  count : ℕ
deriving DecidableEq, Repr

/-- The cache with the two flags the shedders share. -/
structure Shedders (K V : Type*) (n : ℕ) where
  cache : Cache K V n
  shedding : Bool
  shedRetry : Bool

namespace Shedders

section Advance

variable [BEq K] [NeZero n]

/-- One atomic step of a thread's call. -/
def advance (cfg : Config K V) (env : Env K) (reason : EvictionReason) (last : Option (Fin n))
    (s : Shedders K V n) (t : ShedThread n) : Shedders K V n × ShedThread n :=
  match t.phase with
  | .work => (s, { t with phase := .loop })
  | .loop => (s, { t with phase := if s.cache.overBudget then .trySwap else .done })
  | .trySwap =>
    if s.shedding then (s, { t with phase := .askRetry })
    else ({ s with shedding := true }, { t with phase := .clearRetry })
  | .askRetry => ({ s with shedRetry := true }, { t with phase := .tryAgain })
  | .tryAgain =>
    if s.shedding then (s, { t with phase := .done })
    else ({ s with shedding := true }, { t with phase := .clearRetry })
  | .clearRetry => ({ s with shedRetry := false }, { t with phase := .startPass })
  | .startPass =>
    ({ s with cache := { s.cache with shedNext := s.cache.shedNext + 1 } },
      { t with phase := .visit 0 (Cache.shedOrder (s.cache.shedNext + 1) last) })
  | .visit evicted [] => (s, { t with phase := .release evicted })
  | .visit evicted (i :: todo) =>
    (s, { t with phase := if s.cache.overBudget then .evict evicted i todo else .release evicted })
  | .evict evicted i todo =>
    match s.cache.nextVictim cfg i 0 with
    | (none, p) =>
      ({ s with cache := (s.cache.modifyTable i fun t ↦ { t with policy := p }).releaseShard i },
        { t with phase := .visit evicted todo })
    | (some r, p) =>
      ({ s with cache := s.cache.evict cfg env i r p reason },
        { t with phase := .evict (evicted + 1) i todo })
  | .release evicted => ({ s with shedding := false }, { t with phase := .reload evicted })
  | .reload evicted =>
    (s, ⟨if evicted = 0 ∧ s.shedRetry = false then .done else .loop, t.count + evicted⟩)
  | .done => (s, t)

end Advance

/-! ### Who minds -/

/-- The phases of the thread that has the `shedding` flag. -/
def Holds : ShedPhase n → Prop
  | .clearRetry | .startPass | .visit _ _ | .evict _ _ _ | .release _ => True
  | _ => False

/-- The policy of a shard has nothing left to give. -/
def Clean (c : Cache K V n) (i : Fin n) : Prop := (c.shards i).policy.tracked = []

/-- Over the bounds, with something left to evict. -/
def Unsettled (c : Cache K V n) : Prop := c.overBudget = true ∧ ¬ ∀ i, Clean c i

/-- A thread in this phase will see to entries that are too many. -/
def Minds (s : Shedders K V n) : ShedPhase n → Prop
  | .work | .loop | .trySwap | .askRetry => True
  | .tryAgain => s.shedding = false
  | .clearRetry | .startPass => True
  | .visit evicted todo => s.shedRetry = true ∨ 0 < evicted ∨ ∀ i ∉ todo, Clean s.cache i
  | .evict evicted i todo => s.shedRetry = true ∨ 0 < evicted ∨ ∀ j ∉ i :: todo, Clean s.cache j
  | .release evicted | .reload evicted => s.shedRetry = true ∨ 0 < evicted
  | .done => False

/-- Whoever minds in `s` does in `s'`. -/
structure Lets (s s' : Shedders K V n) : Prop where
  free : s.shedding = false → s'.shedding = false
  retry : s.shedRetry = true → s'.shedRetry = true
  clean : ∀ i, Clean s.cache i → Clean s'.cache i

theorem Lets.refl (s : Shedders K V n) : Lets s s := ⟨id, id, fun _ ↦ id⟩

theorem Lets.minds {s s' : Shedders K V n} (h : Lets s s') {p : ShedPhase n} (hp : s.Minds p) :
    s'.Minds p := by
  cases p with
  | tryAgain => exact h.free hp
  | visit evicted todo => exact hp.imp h.retry (Or.imp_right fun hc j hj ↦ h.clean j (hc j hj))
  | evict evicted i todo => exact hp.imp h.retry (Or.imp_right fun hc j hj ↦ h.clean j (hc j hj))
  | release evicted => exact hp.imp_left h.retry
  | reload evicted => exact hp.imp_left h.retry
  | _ => exact hp

/-- While a retry is asked for, the thread that sheds minds. -/
theorem minds_of_retry {s : Shedders K V n} (h : s.shedRetry = true) {p : ShedPhase n} (hp : Holds p) :
    s.Minds p := by
  cases p with
  | visit evicted todo => exact .inl h
  | evict evicted i todo => exact .inl h
  | release evicted => exact .inl h
  | clearRetry => trivial
  | startPass => trivial
  | _ => exact hp.elim

/-! ### One step of one thread -/

section Step

variable [BEq K] [NeZero n] {cfg : Config K V} {env : Env K} {reason : EvictionReason}
  {last : Option (Fin n)} {s : Shedders K V n} {t : ShedThread n}

/-- What a step does with the flag: it leaves it where it is, takes it, or gives it back. -/
inductive Passes (p p' : ShedPhase n) (b b' : Bool) : Prop where
  | keep (h : Holds p' ↔ Holds p) (hb : b' = b)
  | take (h : ¬ Holds p) (h' : Holds p') (hb : b = false) (hb' : b' = true)
  | give (h : Holds p) (h' : ¬ Holds p') (hb' : b' = false)

theorem passes_advance (s : Shedders K V n) (t : ShedThread n) :
    Passes t.phase (s.advance cfg env reason last t).2.phase s.shedding
      (s.advance cfg env reason last t).1.shedding := by
  rcases t with ⟨phase, count⟩
  unfold advance
  cases phase with
  | loop =>
    dsimp only
    split_ifs <;> exact .keep .rfl rfl
  | trySwap =>
    dsimp only
    split_ifs with h
    · exact .keep .rfl rfl
    · exact .take id trivial (by simpa using h) rfl
  | tryAgain =>
    dsimp only
    split_ifs with h
    · exact .keep .rfl rfl
    · exact .take id trivial (by simpa using h) rfl
  | visit evicted todo =>
    rcases todo with - | ⟨i, todo⟩
    · exact .keep .rfl rfl
    · dsimp only
      split_ifs <;> exact .keep .rfl rfl
  | evict evicted i todo =>
    dsimp only
    split <;> exact .keep .rfl rfl
  | release evicted => exact .give trivial id rfl
  | reload evicted =>
    dsimp only
    split_ifs <;> exact .keep .rfl rfl
  | _ => exact .keep .rfl rfl

omit [BEq K] [NeZero n] in
/-- A policy that declines keeps what it tracks. -/
theorem clean_declined {c : Cache K V n} {i : Fin n} {p : Policy K}
    (hwf : (c.shards i).policy.WellFormed) (hy : (c.shards i).policy.Yields p none) (j : Fin n) :
    Clean ((c.modifyTable i fun t ↦ { t with policy := p }).releaseShard i) j ↔ Clean c j := by
  have hperm : p.tracked.Perm (c.shards i).policy.tracked := hy.picks hwf
  show (((c.modifyTable i fun t ↦ { t with policy := p }).releaseShard i).core.shards
    j).policy.tracked = [] ↔ (c.core.shards j).policy.tracked = []
  rw [Cache.core_releaseShard, Cache.core_modifyTable]
  rcases eq_or_ne j i with rfl | hj
  · rw [Core.set_shards_self]
    show p.tracked = [] ↔ (c.shards j).policy.tracked = []
    constructor
    · intro h
      rw [h, List.nil_perm] at hperm
      exact hperm
    · intro h
      rw [h, List.perm_nil] at hperm
      exact hperm
  · rw [Core.set_shards_of_ne _ _ hj]

/-- **What a thread leaves behind**: it minds, or it did not before and whoever did still does, or it
has asked the thread that sheds for a retry. -/
theorem minds_advance {L : Licence K V} (hc : s.cache.core.Counted L)
    (hu : Unsettled (s.advance cfg env reason last t).1.cache) :
    (s.advance cfg env reason last t).1.Minds (s.advance cfg env reason last t).2.phase ∨
      ¬ s.Minds t.phase ∧ Unsettled s.cache ∧ Lets s (s.advance cfg env reason last t).1 ∨
      s.shedding = true ∧ (s.advance cfg env reason last t).1.shedRetry = true ∧
        ¬ Holds t.phase := by
  rcases t with ⟨phase, count⟩
  revert hu
  unfold advance
  cases phase with
  | work => exact fun _ ↦ .inl trivial
  | loop =>
    intro hu
    have hover : s.cache.overBudget = true := hu.1
    dsimp only
    rw [if_pos hover]
    exact .inl trivial
  | trySwap =>
    intro _
    dsimp only
    split_ifs <;> exact .inl trivial
  | askRetry =>
    intro _
    rcases Bool.eq_false_or_eq_true s.shedding with h | h
    · exact .inr (.inr ⟨h, rfl, id⟩)
    · exact .inl h
  | tryAgain =>
    dsimp only
    split_ifs with h
    · have hnot : ¬ s.Minds .tryAgain := fun hfree ↦ Bool.noConfusion (h.symm.trans hfree)
      exact fun hu ↦ .inr (.inl ⟨hnot, hu, .refl s⟩)
    · exact fun _ ↦ .inl trivial
  | clearRetry => exact fun _ ↦ .inl trivial
  | startPass =>
    exact fun _ ↦ .inl (.inr (.inr fun i hi ↦ absurd (Cache.mem_shedOrder _ last i) hi))
  | visit evicted todo =>
    rcases todo with - | ⟨i, todo⟩
    · intro hu
      -- all shards visited: were they all empty, nothing would be left
      by_cases hm : s.Minds (.visit evicted [])
      · refine .inl (hm.imp_right fun h ↦ h.resolve_right fun hclean ↦ ?_)
        exact hu.2 fun i ↦ hclean i List.not_mem_nil
      · exact .inr (.inl ⟨hm, hu, .refl s⟩)
    · intro hu
      have hover : s.cache.overBudget = true := hu.1
      dsimp only
      rw [if_pos hover]
      by_cases hm : s.Minds (.visit evicted (i :: todo))
      · exact .inl hm
      · exact .inr (.inl ⟨hm, hu, .refl s⟩)
  | evict evicted i todo =>
    have hy := s.cache.yields_nextVictim i cfg 0
    dsimp only
    split
    · next p hp =>
      intro hu
      rw [hp] at hy
      have hclean := clean_declined (hc.policy i) hy
      have hunsettled : Unsettled s.cache := ⟨hu.1, fun h ↦ hu.2 fun j ↦ (hclean j).2 (h j)⟩
      by_cases hm : s.Minds (.evict evicted i todo)
      · -- no victim, though the cache is over its bounds: the shard is empty
        have hi : Clean s.cache i := by
          have hstored (hnil : (s.cache.shards i).storage = []) :
              (s.cache.shards i).policy.tracked = [] := by
            refine List.eq_nil_iff_forall_not_mem.2 fun r hr ↦ ?_
            obtain ⟨e, he, -⟩ := hc.stored i r hr
            have he : e ∈ (s.cache.shards i).storage := he
            rw [hnil] at he
            cases he
          refine (Cache.tracked_of_nextVictim (hc.policy i) hstored (by rw [hp])).resolve_left ?_
          rw [hunsettled.1]
          exact Bool.true_eq_false_eq_False
        refine .inl (hm.imp_right (Or.imp_right fun h j hj ↦ (hclean j).2 ?_))
        rcases eq_or_ne j i with rfl | hne
        · exact hi
        · exact h j (List.mem_cons.not.2 (not_or.2 ⟨hne, hj⟩))
      · exact .inr (.inl ⟨hm, hunsettled, ⟨id, id, fun j ↦ (hclean j).2⟩⟩)
    · exact fun _ ↦ .inl (.inr (.inl (Nat.succ_pos _)))
  | release evicted =>
    intro hu
    by_cases hm : s.Minds (.release evicted)
    · exact .inl hm
    · exact .inr (.inl ⟨hm, hu, ⟨fun _ ↦ rfl, id, fun _ ↦ id⟩⟩)
  | reload evicted =>
    intro hu
    dsimp only
    split_ifs with h
    · refine .inr (.inl ⟨?_, hu, .refl s⟩)
      rintro (hretry | hpos)
      · cases h.2.symm.trans hretry
      · exact hpos.ne' h.1
    · exact .inl trivial
  | done => exact fun hu ↦ .inr (.inl ⟨id, hu, .refl s⟩)

/-- The cache after a step is reached by instructions. -/
theorem steps_advance {L : Licence K V} (s : Shedders K V n) (t : ShedThread n) :
    Steps cfg L s.cache (s.advance cfg env reason last t).1.cache := by
  unfold advance
  split
  · exact .refl
  · exact .refl
  · split_ifs <;> exact .refl
  · exact .refl
  · split_ifs <;> exact .refl
  · exact .refl
  · exact .of_eq rfl
  · exact .refl
  · exact .refl
  · next evicted i todo _ =>
    have hy := s.cache.yields_nextVictim i cfg 0
    split
    · next p hp =>
      rw [hp] at hy
      exact (s.cache.steps_policy i hy).frame (Cache.core_releaseShard ..)
    · next r p hp =>
      rw [hp] at hy
      exact s.cache.steps_evict i hy reason
  · exact .refl
  · exact .refl
  · exact .refl

end Step

end Shedders

open Shedders (Unsettled Passes Holds Minds)

/-! ### Runs of any number of threads -/

/-- The shedders with their threads. -/
structure ShedRun (T K V : Type*) (n : ℕ) extends Shedders K V n where
  threads : T → ShedThread n

namespace ShedRun

variable [DecidableEq T] [BEq K] [NeZero n] [Inhabited V]

/-- No thread has called yet. -/
def start (c : Cache K V n) : ShedRun T K V n where
  cache := c
  shedding := false
  shedRetry := false
  threads _ := ⟨.work, 0⟩

/-- The run after one step of a thread's call. -/
def advance (cfg : Config K V) (env : Env K) (reason : EvictionReason) (last : Option (Fin n))
    (s : ShedRun T K V n) (t : T) : ShedRun T K V n :=
  let r := s.toShedders.advance cfg env reason last (s.threads t)
  { r.1 with threads := Function.update s.threads t r.2 }

/-- One step. A thread that has not called yet does whatever is done under a shard's lock, such as an
insert; one whose call has returned may set to work again. -/
inductive Step (cfg : Config K V) (s : ShedRun T K V n) : ShedRun T K V n → Prop where
  | work (t : T) (h : (s.threads t).phase = .work) (env : Env K) {c' : Cache K V n}
      (hc : Locked cfg env s.cache c') : Step cfg s { s with cache := c' }
  | advance (t : T) (env : Env K) (reason : EvictionReason) (last : Option (Fin n)) :
      Step cfg s (s.advance cfg env reason last t)
  | again (t : T) (h : (s.threads t).phase = .done) :
      Step cfg s { s with threads := Function.update s.threads t ⟨.work, 0⟩ }

/-- Every call has returned. -/
def Returned (s : ShedRun T K V n) : Prop := ∀ t, (s.threads t).phase = .done

/-- What every step keeps: one thread at most has the flag, and when there is something to shed, some
thread minds. -/
structure Ok (cfg : Config K V) (s : ShedRun T K V n) : Prop where
  steps : Steps cfg (.placed cfg n True) (new cfg n) s.cache
  unique : ∀ t t', Holds (s.threads t).phase → Holds (s.threads t').phase → t = t'
  held : s.shedding = true ↔ ∃ t, Holds (s.threads t).phase
  minded : Unsettled s.cache → ∃ t, s.Minds (s.threads t).phase

variable [PartialEquivBEq K] {cfg : Config K V} {s s' : ShedRun T K V n}

omit [DecidableEq T] [Inhabited V] in
theorem Ok.counted (h : Ok cfg s) : s.cache.core.Counted (.placed cfg n True) :=
  h.steps.invariant Core.Counted.step (Cache.counted_new ..)

omit [Inhabited V] in
/-- One thread's step keeps it. -/
theorem Ok.advance (h : Ok cfg s) (t : T) (env : Env K) (reason : EvictionReason)
    (last : Option (Fin n)) : Ok cfg (s.advance cfg env reason last t) := by
  have hself : (s.advance cfg env reason last t).threads t =
      (s.toShedders.advance cfg env reason last (s.threads t)).2 := Function.update_self ..
  have hother {t' : T} (ht : t' ≠ t) : (s.advance cfg env reason last t).threads t' = s.threads t' :=
    Function.update_of_ne ht ..
  have hpass : Passes (s.threads t).phase
      ((s.advance cfg env reason last t).threads t).phase s.shedding
      (s.advance cfg env reason last t).shedding := by
    rw [hself]
    exact Shedders.passes_advance ..
  -- the other threads have the flag as before
  have hholds {t' : T} (ht : t' ≠ t) :
      Holds ((s.advance cfg env reason last t).threads t').phase ↔
        Holds (s.threads t').phase := by
    rw [hother ht]
  refine ⟨h.steps.trans (Shedders.steps_advance ..), ?_, ?_, fun hu ↦ ?_⟩
  · rcases hpass with ⟨hiff, -⟩ | ⟨-, -, hfree, -⟩ | ⟨hold, hnot, -⟩
    · have hall (t' : T) : Holds ((s.advance cfg env reason last t).threads t').phase ↔
          Holds (s.threads t').phase := by
        rcases eq_or_ne t' t with rfl | ht
        · exact hiff
        · exact hholds ht
      intro t₁ t₂ h₁ h₂
      exact h.unique t₁ t₂ ((hall t₁).1 h₁) ((hall t₂).1 h₂)
    · -- nobody had the flag, so whoever has it now is the one who took it
      have hnone (t' : T) : ¬ Holds (s.threads t').phase := fun ht' ↦ by
        rw [h.held.2 ⟨t', ht'⟩] at hfree
        cases hfree
      have honly {t' : T} (ht' : Holds
          ((s.advance cfg env reason last t).threads t').phase) : t' = t := by
        by_contra ht
        exact hnone t' ((hholds ht).1 ht')
      exact fun t₁ t₂ h₁ h₂ ↦ (honly h₁).trans (honly h₂).symm
    · intro t₁ t₂ h₁ h₂
      have hne {t' : T} (ht' : Holds
          ((s.advance cfg env reason last t).threads t').phase) : t' ≠ t := by
        rintro rfl
        exact hnot ht'
      exact h.unique t₁ t₂ ((hholds (hne h₁)).1 h₁) ((hholds (hne h₂)).1 h₂)
  · rcases hpass with ⟨hiff, hb⟩ | ⟨-, hnow, -, hb⟩ | ⟨hold, hnot, hb⟩
    · rw [hb, h.held]
      refine exists_congr fun t' ↦ ?_
      rcases eq_or_ne t' t with rfl | ht
      · exact hiff.symm
      · exact (hholds ht).symm
    · exact ⟨fun _ ↦ ⟨t, hnow⟩, fun _ ↦ hb⟩
    · rw [hb]
      refine ⟨nofun, ?_⟩
      rintro ⟨t', ht'⟩
      have hne : t' ≠ t := by
        rintro rfl
        exact hnot ht'
      exact absurd (h.unique t' t ((hholds hne).1 ht') hold) hne
  · rcases Shedders.minds_advance h.counted hu with hm | ⟨hnot, hun, hlets⟩ | ⟨hheld, hretry, hnot⟩
    · exact ⟨t, hself.symm ▸ hm⟩
    · obtain ⟨w, hw⟩ := h.minded hun
      have hne : w ≠ t := by
        rintro rfl
        exact hnot hw
      exact ⟨w, (hother hne).symm ▸ hlets.minds hw⟩
    · obtain ⟨w, hw⟩ := h.held.1 hheld
      have hne : w ≠ t := by
        rintro rfl
        exact hnot hw
      exact ⟨w, (hother hne).symm ▸ Shedders.minds_of_retry hretry hw⟩

/-- **Every step keeps it.** -/
theorem Ok.step (h : Ok cfg s) (hstep : Step cfg s s') : Ok cfg s' := by
  cases hstep with
  | work t ht env hc =>
    refine ⟨h.steps.trans (hc.moves ((ready_new cfg).steps h.steps)), h.unique, h.held, fun _ ↦ ?_⟩
    -- the thread that did it has not called yet
    refine ⟨t, ?_⟩
    rw [ht]
    trivial
  | advance t env reason last => exact h.advance t env reason last
  | again t ht =>
    have hholds (t' : T) : Holds (Function.update s.threads t ⟨.work, 0⟩ t').phase ↔
        Holds (s.threads t').phase := by
      rcases eq_or_ne t' t with rfl | hne
      · rw [Function.update_self, ht]
        exact .rfl
      · rw [Function.update_of_ne hne]
    refine ⟨h.steps, fun t₁ t₂ h₁ h₂ ↦ h.unique t₁ t₂ ((hholds t₁).1 h₁) ((hholds t₂).1 h₂), ?_,
      fun _ ↦ ⟨t, ?_⟩⟩
    · rw [h.held]
      exact exists_congr fun t' ↦ (hholds t').symm
    · show Minds _ (Function.update s.threads t ⟨.work, 0⟩ t).phase
      rw [Function.update_self]
      trivial

omit [DecidableEq T] in
theorem ok_start {c : Cache K V n} (hc : Reached cfg c) (hwithin : c.overBudget = false) :
    Ok cfg (start c : ShedRun T K V n) where
  steps := steps_of_reached hc
  unique _ _ h := h.elim
  held := ⟨nofun, fun ⟨_, h⟩ ↦ h.elim⟩
  minded hu := by
    have hover : c.overBudget = true := hu.1
    rw [hwithin] at hover
    cases hover

omit [DecidableEq T] [Inhabited V] [PartialEquivBEq K] in
/-- Once every call has returned, nobody is left to mind. -/
theorem Ok.settled (h : Ok cfg s) (hdone : s.Returned) : ¬ Unsettled s.cache := by
  intro hu
  obtain ⟨t, ht⟩ := h.minded hu
  rw [hdone t] at ht
  exact ht

/-- **When every call has returned, the cache holds no more entries than `MaxEntries`**, however many
threads there were, whatever they did to the cache before they called and however their steps were
interleaved. What the counter says is also what is stored, when keys equal themselves. -/
theorem entries_le_of_returned {c : Cache K V n} (hc : Reached cfg c) (hwithin : c.overBudget = false)
    (h : Relation.ReflTransGen (Step cfg) (start c : ShedRun T K V n) s) (hdone : s.Returned)
    (hbound : 0 < s.cache.maxEntries) :
    s.cache.entries ≤ s.cache.maxEntries ∧
      ((∀ k : K, k == k) → s.cache.stored ≤ s.cache.maxEntries) := by
  have hok : Ok cfg s := by
    clear hdone hbound
    induction h with
    | refl => exact ok_start hc hwithin
    | tail _ hstep ih => exact ih.step hstep
  have hentries : s.cache.entries ≤ s.cache.maxEntries := by
    by_cases hover : s.cache.overBudget = true
    · have hclean : ∀ i, Shedders.Clean s.cache i := by
        by_contra hnot
        exact hok.settled hdone ⟨hover, hnot⟩
      exact (hok.counted.entries_le_zero hclean).trans (Int.natCast_nonneg _)
    · by_contra hlt
      exact hover (decide_eq_true (.inl ⟨hbound, not_le.1 hlt⟩))
  refine ⟨hentries, fun hrefl ↦ ?_⟩
  have : EquivBEq K := { rfl := hrefl _ }
  have hinv : s.cache.core.Inv := Cache.inv_of_steps hok.steps (Cache.inv_new cfg n)
  have hstored : s.cache.entries = s.cache.stored := by
    rw [show s.cache.entries = s.cache.core.entries from rfl, hinv.entries]
    simp [Core.total, Cache.stored, Cache.core, Shard.core]
  omega

end ShedRun

/-- One entry at most, keys placed by their parity. -/
def shedConfig : Config ℕ ℕ :=
  { defaultConfig UInt64.ofNat with maxEntries := 1 }

/-- What a thread does that adds a key. -/
def shedInsert (c : Cache ℕ ℕ 2) (key : ℕ) : Cache ℕ ℕ 2 :=
  c.upsertLocked shedConfig (.instant 0) (Cache.shardFor shedConfig key) key key 1 0 false 0 []

/-- Two threads have added an entry each, to shards of their own. -/
def shedTwo : ShedRun Bool ℕ ℕ 2 :=
  { ShedRun.start (new shedConfig 2) with cache := shedInsert (shedInsert (new shedConfig 2) 0) 1 }

/-- One sheds, and the other leaves it to the first before the sweep begins. -/
def shedSchedule : List Bool :=
  [true, true, true, false, false, false, false, true, true, false] ++ List.replicate 12 true

/-- The state after steps of calls only. -/
def shedAfter (s : ShedRun Bool ℕ ℕ 2) (l : List Bool) : ShedRun Bool ℕ ℕ 2 :=
  l.foldl (fun s t ↦ s.advance shedConfig (.instant 0) .capacity (some 1) t) s

theorem reached_shedAfter (s : ShedRun Bool ℕ ℕ 2) (l : List Bool) :
    Relation.ReflTransGen (ShedRun.Step shedConfig) s (shedAfter s l) := by
  induction l generalizing s with
  | nil => exact .refl
  | cons t l ih => exact .head (.advance t (.instant 0) .capacity (some 1)) (ih _)

theorem ShedRun.entries_le_of_returned_two :
    shedTwo.cache.entries = 2 ∧ (shedAfter shedTwo shedSchedule).cache.entries ≤ 1 := by
  refine ⟨by decide +kernel, ?_⟩
  have hfirst : ShedRun.Step shedConfig (ShedRun.start (new shedConfig 2))
      ({ ShedRun.start (new shedConfig 2) with cache := shedInsert (new shedConfig 2) 0 } :
        ShedRun Bool ℕ ℕ 2) :=
    .work true rfl (.instant 0) (.upsertLocked 0 0 1 0 false 0 [] (by decide) (by decide))
  have hsecond : ShedRun.Step shedConfig
      ({ ShedRun.start (new shedConfig 2) with cache := shedInsert (new shedConfig 2) 0 } :
        ShedRun Bool ℕ ℕ 2) shedTwo :=
    .work false rfl (.instant 0) (.upsertLocked 1 1 1 0 false 0 [] (by decide) (by decide))
  have hrun : Relation.ReflTransGen (ShedRun.Step shedConfig) (ShedRun.start (new shedConfig 2))
      (shedAfter shedTwo shedSchedule) :=
    .head hfirst (.head hsecond (reached_shedAfter shedTwo shedSchedule))
  have hdone : (shedAfter shedTwo shedSchedule).Returned := by
    have hboth : ((shedAfter shedTwo shedSchedule).threads true).phase = .done ∧
        ((shedAfter shedTwo shedSchedule).threads false).phase = .done := by decide +kernel
    rintro (- | -)
    · exact hboth.2
    · exact hboth.1
  have hbound : (shedAfter shedTwo shedSchedule).cache.maxEntries = 1 := by decide +kernel
  have hle := (ShedRun.entries_le_of_returned (.new shedConfig) rfl hrun hdone
    (by rw [hbound]; decide)).1
  rw [hbound] at hle
  exact hle

end Memcache
