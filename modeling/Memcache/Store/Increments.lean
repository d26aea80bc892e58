import Memcache.Store.Agreement
import Mathlib.Data.BitVec

/-!
# Counting through the Store

`IncrementBy` is a `Compute`: it takes the key's current value from memory or, when memory lost it, from
the Store, and puts the sum in memory first and in the Store afterwards. **An increment counts when, and
only when, its Store write gets through**: until then the record is the old sum, and memory, which has
the new one, is rolled back if the write fails. So the record is at every moment the sum of the
increments that returned without an error, whatever is evicted in between, and each of these returned
the sum up to its own.
-/

namespace Memcache

variable {K V : Type*} {n : ℕ} [BEq K] [NeZero n] {cfg : Config K V} {env : Env K} {key : K}

namespace StoreRun

variable [AddMonoid V] {s s' : StoreRun K V n} {cur : Current K V} {v₀ d : V} {ds : List V}

/-- The calls that returned without an error, in the order in which they held the key's lock. -/
def succeeded (s : StoreRun K V n) : List (Outcome V) := s.log.filter fun o ↦ !o.error

/-- The increments that returned without an error were those by `ds`, each returned the sum up to its
own, and the record is the whole sum. -/
structure Sums (v₀ : V) (s : StoreRun K V n) (ds : List V) : Prop where
  calls : s.succeeded.map Outcome.call = ds.map KeyCall.incrementBy
  values : s.succeeded.map Outcome.value = ((ds.scanl (· + ·) v₀).tail).map some
  record : s.record = some (v₀ + ds.sum)

/-- What the holder of the lock is about: an increment, whose sum is on its way to the Store once it is
in memory. -/
def Counting (s : StoreRun K V n) : Prop :=
  match s.phase with
  | .free => True
  | .reading call | .answered call _ | .rollback call => ∃ d, call = .incrementBy d
  | .mirror call m => ∃ d v, call = .incrementBy d ∧ m = .set (v + d) ∧ s.record = some v
  | .deleting _ | .removing _ _ => False

/-- Only increments take the lock. -/
def Increments (cfg : Config K V) (key : K) (s : StoreRun K V n) (a : Act K V n) : Prop :=
  s.Permitted cfg key a ∧ ∀ env call, a = .begin env call → ∃ d, call = .incrementBy d

theorem foldl_add_eq_add_sum (v₀ : V) (ds : List V) : ds.foldl (· + ·) v₀ = v₀ + ds.sum := by
  induction ds generalizing v₀ with
  | nil => simp
  | cons d ds ih => rw [List.foldl_cons, ih, List.sum_cons, add_assoc]

omit [BEq K] [NeZero n] in
/-- What failed counts for nothing. -/
theorem Sums.of_failed (h : s.Sums v₀ ds) {o : Outcome V} (ho : o.error = true)
    (hlog : s'.log = s.log ++ [o]) (hrec : s'.record = s.record) : s'.Sums v₀ ds := by
  have hsame : s'.succeeded = s.succeeded := by
    rw [succeeded, hlog, List.filter_append]
    simp [succeeded, ho]
  exact ⟨hsame ▸ h.calls, hsame ▸ h.values, hrec.trans h.record⟩

omit [BEq K] [NeZero n] in
/-- An increment that got through counts once. -/
theorem Sums.of_succeeded (h : s.Sums v₀ ds) {o : Outcome V} (ho : o.error = false)
    (hcall : o.call = .incrementBy d) (hvalue : o.value = some (v₀ + ds.sum + d))
    (hlog : s'.log = s.log ++ [o]) (hrec : s'.record = some (v₀ + ds.sum + d)) :
    s'.Sums v₀ (ds ++ [d]) := by
  have hnew : s'.succeeded = s.succeeded ++ [o] := by
    rw [succeeded, hlog, List.filter_append]
    simp [succeeded, ho]
  refine ⟨?_, ?_, ?_⟩
  · rw [hnew, List.map_append, List.map_append, h.calls]
    simp [hcall]
  · have hne : ds.scanl (· + ·) v₀ ≠ [] := by cases ds <;> simp
    rw [hnew, List.map_append, h.values, List.scanl_append, List.tail_append_of_ne_nil hne,
      foldl_add_eq_add_sum]
    simp [hvalue]
  · rw [hrec, List.sum_append, List.sum_singleton, add_assoc]

/-- **An increment acts on the record**: it is refused, or its sum goes to memory first. -/
theorem Sums.acts (h : s.Sums v₀ ds) (hcur : cur.value = s.record)
    (ha : Acts cfg key s cur (.incrementBy d) s') : s'.Sums v₀ ds ∧ s'.Counting := by
  have hstores : (KeyCall.incrementBy d).stores cur.value = some (v₀ + ds.sum + d) := by
    rw [hcur, h.record]
    rfl
  cases ha with
  | @returned c error value _ hnone =>
    have herror : error = true := by
      rcases error
      · rw [hnone rfl] at hstores
        cases hstores
      · rfl
    exact ⟨h.of_failed herror rfl rfl, trivial⟩
  | stored _ _ hv =>
    obtain rfl := Option.some.inj (hstores.symm.trans hv)
    exact ⟨⟨h.calls, h.values, h.record⟩, d, v₀ + ds.sum, rfl, rfl, h.record⟩
  | deleted _ _ hnone =>
    rw [hnone] at hstores
    cases hstores
  | deleting _ hnone =>
    rw [hnone] at hstores
    cases hstores
  | other hno => cases hno

section Step

variable [PartialEquivBEq K]

theorem Sums.consult (hok : s.Ok cfg key) (hexp : s.expects = some s.record) (h : s.Sums v₀ ds) :
    (s.consult cfg key env (.incrementBy d)).Sums v₀ ds ∧
      (s.consult cfg key env (.incrementBy d)).Counting := by
  rcases hok.consult_cases hexp env (.incrementBy d) with ⟨cur, hv, hcur, heq⟩ | heq
  · rw [heq]
    exact h.acts hv (acts_act hok.sealed hcur)
  · rw [heq]
    exact ⟨⟨h.calls, h.values, h.record⟩, d, rfl⟩

/-- The holder of the lock goes on: with the record, or without an answer. -/
theorem Sums.resume (hok : s.Ok cfg key) (h : s.Sums v₀ ds) (hc : s.Counting)
    (ttl : Option Cache.TTLAnswer) :
    (s.resume cfg key env ttl).Sums v₀ ds ∧ (s.resume cfg key env ttl).Counting := by
  rcases hp : s.phase with _ | call | ⟨call, answer⟩ | ⟨call, m⟩ | call | call | ⟨call, failed⟩
  case answered =>
    obtain ⟨d, rfl⟩ : ∃ d, call = .incrementBy d := by rwa [Counting, hp] at hc
    rcases hok.answered_cases hp env ttl with ⟨-, heq⟩ | ⟨c, cur, hc, hv, hcur, heq⟩
    · rw [heq]
      exact ⟨h.of_failed rfl rfl rfl, trivial⟩
    · have hmid : Sums v₀ { s with cache := c } ds := ⟨h.calls, h.values, h.record⟩
      rw [heq]
      exact hmid.acts hv (acts_act (hc.sealed.trans hok.sealed) hcur)
  case rollback =>
    unfold StoreRun.resume
    rw [hp]
    exact ⟨h.of_failed rfl rfl rfl, trivial⟩
  case removing =>
    rw [Counting, hp] at hc
    exact hc.elim
  all_goals
    unfold StoreRun.resume
    rw [hp]
    exact ⟨h, hc⟩

omit [PartialEquivBEq K] in
theorem Sums.store (h : s.Sums v₀ ds) (hc : s.Counting) (fails : Bool) :
    ∃ ds', (s.store cfg key fails).Sums v₀ ds' ∧ (s.store cfg key fails).Counting := by
  rcases hp : s.phase with _ | call | ⟨call, answer⟩ | ⟨call, m⟩ | call | call | ⟨call, failed⟩
  case reading =>
    unfold StoreRun.store
    rw [Counting, hp] at hc
    rw [hp]
    exact ⟨ds, ⟨h.calls, h.values, h.record⟩, hc⟩
  case mirror =>
    rw [Counting, hp] at hc
    obtain ⟨d, v, rfl, rfl, hv⟩ := hc
    unfold StoreRun.store
    rw [hp]
    obtain rfl : v = v₀ + ds.sum := Option.some.inj (hv.symm.trans h.record)
    cases fails
    · exact ⟨ds ++ [d], h.of_succeeded rfl rfl rfl rfl rfl, trivial⟩
    · exact ⟨ds, ⟨h.calls, h.values, h.record⟩, d, rfl⟩
  case deleting =>
    rw [Counting, hp] at hc
    exact hc.elim
  all_goals
    unfold StoreRun.store
    rw [hp]
    exact ⟨ds, h, hc⟩

theorem Sums.step (hok : s.Ok cfg key) (h : s.Sums v₀ ds) (hc : s.Counting) {a : Act K V n}
    (ha : s.Increments cfg key a) :
    ∃ ds', (s.step cfg key a).Sums v₀ ds' ∧ (s.step cfg key a).Counting := by
  cases a with
  | begin env call =>
    obtain ⟨d, rfl⟩ := ha.2 env call rfl
    unfold StoreRun.step
    dsimp only
    split
    · next hp =>
      refine ⟨ds, ?_⟩
      show (StoreRun.begin cfg key env s (.compute _)).Sums v₀ ds ∧ _
      unfold StoreRun.begin
      dsimp only
      split_ifs
      · exact ⟨h.of_failed rfl rfl rfl, trivial⟩
      · exact h.consult hok (by rw [expects, hp])
    · exact ⟨ds, h, hc⟩
  | store fails => exact h.store hc fails
  | resume env ttl => exact ⟨ds, h.resume hok hc ttl⟩
  | work c => exact ⟨ds, ⟨h.calls, h.values, h.record⟩, hc⟩

/-- **The record counts exactly the increments that returned without an error**, and each of them
returned the sum up to its own, in the order in which they held the key's lock. -/
theorem sums_of_increments {c : Cache K V n} (hsealed : c.sealed = false) {v₀ : V}
    (hm : c.memory cfg key = none ∨ c.memory cfg key = some v₀) {l : List (Act K V n)}
    (hl : Runs.Along (step cfg key) (Increments cfg key) (start c (some v₀)) l) :
    ∃ ds, Sums v₀ (l.foldl (step cfg key) (start c (some v₀))) ds := by
  have hinv := hl.invariant (I := fun s ↦ s.Ok cfg key ∧ ∃ ds, s.Sums v₀ ds ∧ s.Counting)
    (fun s a ha h ↦ by
      obtain ⟨hok, ds, hs, hc⟩ := h
      exact ⟨(hok.step ha.1).ok, hs.step hok hc ha⟩)
    ⟨ok_start hsealed hm, [], ⟨rfl, rfl, by simp [start]⟩, trivial⟩
  obtain ⟨-, ds, hs, -⟩ := hinv
  exact ⟨ds, hs⟩

end Step

end StoreRun

/-- An increment that wraps, one that the Store refuses, and one that cannot read the Store. -/
def wrappingIncrements : List (StoreRun.Act ℕ (BitVec 8) 1) :=
  [.begin (.instant 1) (.incrementBy 10), .store false, .resume (.instant 2) none, .store false,
    .begin (.instant 3) (.incrementBy 1), .store true, .resume (.instant 4) none,
    .begin (.instant 5) (.incrementBy 2), .store true, .resume (.instant 6) none]

theorem sums_of_increments_wrapping :
    (wrappingIncrements.foldl (StoreRun.step (defaultConfig fun _ ↦ 0) 1)
      (.start (new (defaultConfig fun _ ↦ 0) 1) (some 250))).record = some 4 ∧
    ∃ ds, StoreRun.Sums 250 (wrappingIncrements.foldl (StoreRun.step (defaultConfig fun _ ↦ 0) 1)
      (.start (new (defaultConfig fun _ ↦ 0) 1) (some 250))) ds := by
  refine ⟨by decide +kernel, StoreRun.sums_of_increments rfl (.inl rfl) ?_⟩
  have hinc (s : StoreRun ℕ (BitVec 8) 1) (env : Env ℕ) (d : BitVec 8) :
      s.Increments (defaultConfig fun _ ↦ 0) 1 (.begin env (.incrementBy d)) := by
    refine ⟨trivial, ?_⟩
    rintro _ _ ⟨⟩
    exact ⟨d, rfl⟩
  exact ⟨hinc .., ⟨trivial, nofun⟩, ⟨trivial, nofun⟩, ⟨trivial, nofun⟩, hinc .., ⟨trivial, nofun⟩,
    ⟨trivial, nofun⟩, hinc .., ⟨trivial, nofun⟩, ⟨trivial, nofun⟩, trivial⟩

end Memcache
