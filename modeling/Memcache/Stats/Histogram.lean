import Mathlib.Algebra.BigOperators.Ring.Finset
import Mathlib.Data.BitVec
import Mathlib.Tactic.Abel
import Memcache.Lib.Runs

/-!
# The latency histogram

`Record` adds to a bucket, to `sumNs` and to `count`, `Reset` stores a zero in each: three and 26 atomic
steps, without a lock. **A `Reset` that runs between two adds of a `Record` splits it**: the bucket is lost
and the count is not. As long as no step of the one kind falls between two steps of the other, what the
histogram holds once all calls have returned is a tally of the samples recorded since the last `Reset`.

The integers are of 64 bits, and wrap.
-/

namespace Memcache

/-- The upper bound of each bucket. -/
def boundsNs : List ℤ :=
  [100, 200, 500, 1000, 2000, 5000, 10000, 20000, 50000, 100000, 200000, 500000, 1000000, 2000000, 5000000,
    10000000, 20000000, 50000000, 100000000, 200000000, 500000000, 1000000000, 2000000000, 5000000000]

def numBuckets : ℕ := 24

/-- The binary search of `bucketFor`. -/
def searchBucket (ns : ℤ) : ℕ → ℕ → ℕ → ℕ
  | 0, lo, _ => lo
  | fuel + 1, lo, hi =>
    if lo < hi then
      let mid := (lo + hi) / 2
      if boundsNs.getD mid 0 < ns then searchBucket ns fuel (mid + 1) hi else searchBucket ns fuel lo mid
    else lo

/-- Each round at least halves the range, so there is fuel to spare. -/
def bucketFor (ns : ℤ) : ℕ := searchBucket ns numBuckets 0 (numBuckets - 1)

theorem searchBucket_le (ns : ℤ) {fuel lo hi : ℕ} (h : lo ≤ hi) : searchBucket ns fuel lo hi ≤ hi := by
  induction fuel generalizing lo hi with
  | zero => exact h
  | succ fuel ih =>
    unfold searchBucket
    dsimp only
    split_ifs
    · exact ih (by omega)
    · exact (ih (by omega)).trans (by omega)
    · exact h

theorem bucketFor_lt (ns : ℤ) : bucketFor ns < numBuckets :=
  Nat.lt_of_le_pred (by decide) (searchBucket_le ns (by decide))

/-- A call, by what it does next. -/
inductive HistCall where
  | record (ns : ℤ)
  | addSum (ns : ℤ)
  | addCount
  /-- A `Reset` after so many of its stores. -/
  | reset (stored : ℕ)
  | returned
deriving DecidableEq, Repr

namespace HistCall

/-- A `Record` between its first and its last add. -/
def recording : HistCall → Bool
  | .addSum _ | .addCount => true
  | _ => false

/-- A `Reset` between its first and its last store. -/
def resetting : HistCall → Bool
  | .reset (_ + 1) => true
  | _ => false

/-- What the call has still to add to `sumNs`, of a sample that is in its bucket. -/
def unsummed : HistCall → BitVec 64
  | .addSum ns => .ofInt 64 ns
  | _ => 0

def uncounted : HistCall → BitVec 64
  | .addSum _ | .addCount => 1
  | _ => 0

end HistCall

/-- A histogram and the calls so far, with the samples whose first add no store of a `Reset` followed. -/
structure HistRun where
  counts : ℕ → BitVec 64
  sumNs : BitVec 64
  count : BitVec 64
  calls : List HistCall
  survivors : List ℤ

namespace HistRun

inductive Act where
  | record (d : ℤ)
  | reset
  /-- The call with this index makes its next atomic step. -/
  | next (j : ℕ)
deriving DecidableEq, Repr

def start : HistRun := ⟨fun _ ↦ 0, 0, 0, [], []⟩

/-- The next step of `Record` or `Reset`. -/
def advance (s : HistRun) (j : ℕ) : HistCall → HistRun
  | .record ns =>
    { s with
      counts := Function.update s.counts (bucketFor ns) (s.counts (bucketFor ns) + 1)
      calls := s.calls.set j (.addSum ns)
      survivors := ns :: s.survivors }
  | .addSum ns => { s with sumNs := s.sumNs + .ofInt 64 ns, calls := s.calls.set j .addCount }
  | .addCount => { s with count := s.count + 1, calls := s.calls.set j .returned }
  | .reset k =>
    -- the buckets in turn, then `sumNs`, then `count`
    { counts := if k < numBuckets then Function.update s.counts k 0 else s.counts
      sumNs := if k = numBuckets then 0 else s.sumNs
      count := if numBuckets < k then 0 else s.count
      calls := s.calls.set j (if numBuckets < k then .returned else .reset (k + 1))
      survivors := [] }
  | .returned => s

def step (s : HistRun) : Act → HistRun
  -- a negative duration is dropped
  | .record d => { s with calls := s.calls ++ [if d < 0 then .returned else .record d] }
  | .reset => { s with calls := s.calls ++ [.reset 0] }
  | .next j =>
    match s.calls[j]? with
    | some call => s.advance j call
    | none => s

/-- What must not be under way when a call makes a step. -/
def Clear (s : HistRun) : HistCall → Prop
  | .reset _ => ∀ c ∈ s.calls, c.recording = false
  | _ => ∀ c ∈ s.calls, c.resetting = false

/-- No add is made while a `Reset` is under way, and no store while a `Record` is. -/
def Apart (s : HistRun) : Act → Prop
  | .next j => ∀ call ∈ s.calls[j]?, s.Clear call
  | _ => True

instance (s : HistRun) (call : HistCall) : Decidable (s.Clear call) := by
  cases call <;> unfold Clear <;> infer_instance

instance (s : HistRun) (a : Act) : Decidable (s.Apart a) := by
  cases a <;> unfold Apart <;> infer_instance

/-- The histogram holds the survivors, but for what calls under way have still to add. -/
structure Tallies (s : HistRun) : Prop where
  counts : ∀ i < numBuckets, s.counts i = (s.survivors.countP (bucketFor · = i) : ℕ)
  sumNs : s.sumNs + (s.calls.map HistCall.unsummed).sum = (s.survivors.map (BitVec.ofInt 64)).sum
  count : s.count + (s.calls.map HistCall.uncounted).sum = (s.survivors.length : ℕ)

/-- What a `Reset` has stored stays, as long as it is under way. -/
structure Zeroed (s : HistRun) (k : ℕ) : Prop where
  survivors : s.survivors = []
  calls : ∀ call ∈ s.calls, call.recording = false
  counts : ∀ i ≤ k, i < numBuckets → s.counts i = 0
  sumNs : numBuckets ≤ k → s.sumNs = 0

structure Ok (s : HistRun) : Prop where
  zeroed : ∀ k, .reset (k + 1) ∈ s.calls → s.Zeroed k
  tallies : (∀ call ∈ s.calls, call.resetting = false) → s.Tallies

variable {s s' : HistRun} {j : ℕ} {call call' : HistCall}

theorem sum_map_set {α G : Type*} [AddCommGroup G] (f : α → G) {l : List α} {j : ℕ} {a : α}
    (h : l[j]? = some a) (b : α) : ((l.set j b).map f).sum = (l.map f).sum - f a + f b := by
  obtain ⟨hj, rfl⟩ := List.getElem?_eq_some_iff.1 h
  rw [((List.set_perm_cons_eraseIdx hj b).map f).sum_eq,
    ← ((List.getElem_cons_eraseIdx_perm hj).map f).sum_eq, List.map_cons, List.map_cons, List.sum_cons,
    List.sum_cons]
  abel

/-- A call comes in, and has done nothing yet. -/
theorem Ok.called (h : s.Ok) (hnew : call = .returned ∨ call = .reset 0 ∨ ∃ ns, call = .record ns) :
    Ok { s with calls := s.calls ++ [call] } := by
  obtain ⟨hrec, hres, hun, hunc⟩ : call.recording = false ∧ call.resetting = false ∧ call.unsummed = 0 ∧
      call.uncounted = 0 := by
    rcases hnew with rfl | rfl | ⟨ns, rfl⟩ <;> exact ⟨rfl, rfl, rfl, rfl⟩
  refine ⟨fun k hk ↦ ?_, fun hno ↦ ?_⟩
  · rcases List.mem_append.1 hk with hk | hk
    · obtain ⟨h₁, h₂, h₃, h₄⟩ := h.zeroed k hk
      refine ⟨h₁, fun c hc ↦ ?_, h₃, h₄⟩
      rcases List.mem_append.1 hc with hc | hc
      · exact h₂ c hc
      · exact List.mem_singleton.1 hc ▸ hrec
    · rw [← List.mem_singleton.1 hk] at hres
      cases hres
  · obtain ⟨h₁, h₂, h₃⟩ := h.tallies fun c hc ↦ hno c (List.mem_append_left _ hc)
    exact ⟨h₁, by simpa [hun] using h₂, by simpa [hunc] using h₃⟩

/-- An add, with no `Reset` under way: what the call has still to add is less by as much, or there is a
survivor more. -/
theorem Ok.added (h : s.Ok) (hj : s.calls[j]? = some call)
    (hapart : ∀ c ∈ s.calls, c.resetting = false) (hcalls : s'.calls = s.calls.set j call')
    (hres : call'.resetting = false)
    (hcounts : ∀ i < numBuckets, s'.counts i + (s.survivors.countP (bucketFor · = i) : ℕ) =
      s.counts i + (s'.survivors.countP (bucketFor · = i) : ℕ))
    (hsum : s'.sumNs + call'.unsummed + (s.survivors.map (BitVec.ofInt 64)).sum =
      s.sumNs + call.unsummed + (s'.survivors.map (BitVec.ofInt 64)).sum)
    (hcount : s'.count + call'.uncounted + (s.survivors.length : ℕ) =
      s.count + call.uncounted + (s'.survivors.length : ℕ)) : s'.Ok := by
  obtain ⟨h₁, h₂, h₃⟩ := h.tallies hapart
  refine ⟨fun k hk ↦ ?_, fun _ ↦ ⟨fun i hi ↦ ?_, ?_, ?_⟩⟩
  · rw [hcalls] at hk
    rcases List.mem_or_eq_of_mem_set hk with hk | rfl
    · cases hapart _ hk
    · cases hres
  · have := hcounts i hi
    rw [h₁ i hi, add_comm] at this
    exact add_left_cancel this
  · rw [← h₂] at hsum
    rw [hcalls, sum_map_set _ hj]
    refine add_left_cancel (a := s.sumNs + call.unsummed) (Eq.trans ?_ hsum)
    abel
  · rw [← h₃] at hcount
    rw [hcalls, sum_map_set _ hj]
    refine add_left_cancel (a := s.count + call.uncounted) (Eq.trans ?_ hcount)
    abel

/-- With no `Record` under way nothing is left to add. -/
theorem sum_eq_zero (h : ∀ c ∈ s.calls, c.recording = false) :
    (s.calls.map HistCall.unsummed).sum = 0 ∧ (s.calls.map HistCall.uncounted).sum = 0 := by
  refine ⟨List.sum_eq_zero fun x hx ↦ ?_, List.sum_eq_zero fun x hx ↦ ?_⟩
  all_goals
    obtain ⟨c, hc, rfl⟩ := List.mem_map.1 hx
    have hrec := h c hc
    cases c with
    | addSum ns => cases hrec
    | addCount => cases hrec
    | _ => rfl

theorem recording_advance_reset (h : ∀ c ∈ s.calls, c.recording = false) (k : ℕ) :
    ∀ c ∈ (s.advance j (.reset k)).calls, c.recording = false := by
  intro c hc
  rcases List.mem_or_eq_of_mem_set hc with hc | rfl
  · exact h c hc
  · split_ifs <;> rfl

/-- A further store leaves the zeros. -/
theorem Zeroed.advance {m : ℕ} (h : s.Zeroed m) (k : ℕ) : (s.advance j (.reset k)).Zeroed m := by
  refine ⟨rfl, recording_advance_reset h.calls k, fun i hi hlt ↦ ?_, fun hm ↦ ?_⟩
  · show (if k < numBuckets then Function.update s.counts k 0 else s.counts) i = 0
    split_ifs
    · rw [Function.update_apply, h.counts i hi hlt, ite_self]
    · exact h.counts i hi hlt
  · show (if k = numBuckets then 0 else s.sumNs) = 0
    rw [h.sumNs hm, ite_self]

/-- A store, with no `Record` under way. -/
theorem Ok.advance_reset (h : s.Ok) {k : ℕ} (hj : s.calls[j]? = some (.reset k))
    (hclear : ∀ c ∈ s.calls, c.recording = false) : (s.advance j (.reset k)).Ok := by
  -- what the call itself has stored before
  have hself (k' : ℕ) (hk : k = k' + 1) : (s.advance j (.reset k)).Zeroed k' :=
    (h.zeroed k' (hk ▸ List.mem_of_getElem? hj)).advance k
  have hrec := recording_advance_reset (j := j) hclear k
  refine ⟨fun m hm ↦ ?_, fun hno ↦ ?_⟩
  · rcases List.mem_or_eq_of_mem_set hm with hm | heq
    · exact (h.zeroed m hm).advance k
    · split_ifs at heq with hk
      cases heq
      refine ⟨rfl, hrec, fun i hi hlt ↦ ?_, fun hk' ↦ if_pos (by omega)⟩
      rcases hi.lt_or_eq with hi | rfl
      · exact (hself (k - 1) (by omega)).counts i (by omega) hlt
      · show (if i < numBuckets then Function.update s.counts i 0 else s.counts) i = 0
        rw [if_pos hlt, Function.update_self]
  · have hk : numBuckets < k := by
      by_contra hk
      have hnext : .reset (k + 1) ∈ (s.advance j (.reset k)).calls := by
        show _ ∈ s.calls.set j (if numBuckets < k then .returned else .reset (k + 1))
        rw [if_neg hk]
        exact List.mem_set (List.getElem?_eq_some_iff.1 hj).1 _
      cases hno _ hnext
    have hzero := hself (k - 1) (by omega)
    obtain ⟨hun, hunc⟩ := sum_eq_zero hrec
    refine ⟨fun i hi ↦ hzero.counts i (by omega) hi, ?_, ?_⟩
    · rw [hun, hzero.sumNs (by omega)]
      rfl
    · rw [hunc, show (s.advance j (.reset k)).count = 0 from if_pos hk]
      rfl

theorem Ok.advance (h : s.Ok) (hj : s.calls[j]? = some call) (hclear : s.Clear call) :
    (s.advance j call).Ok := by
  cases call with
  | record ns =>
    refine h.added hj hclear rfl rfl (fun i hi ↦ ?_) ?_ ?_
    · show Function.update s.counts (bucketFor ns) _ i + _ =
        s.counts i + ((ns :: s.survivors).countP (bucketFor · = i) : ℕ)
      rw [List.countP_cons]
      rcases eq_or_ne (bucketFor ns) i with rfl | hne
      · rw [Function.update_self, if_pos (by simp), Nat.cast_succ]
        abel
      · rw [Function.update_of_ne hne.symm, if_neg (by simpa using hne), add_zero]
    · simp only [HistRun.advance, HistCall.unsummed, List.map_cons, List.sum_cons]
      abel
    · simp only [HistRun.advance, HistCall.uncounted, List.length_cons, Nat.cast_succ]
      abel
  | addSum ns =>
    refine h.added hj hclear rfl rfl (fun _ _ ↦ rfl) ?_ rfl
    simp only [HistRun.advance, HistCall.unsummed, add_zero]
  | addCount =>
    refine h.added hj hclear rfl rfl (fun _ _ ↦ rfl) rfl ?_
    simp only [HistRun.advance, HistCall.uncounted, add_zero]
  | reset k => exact h.advance_reset hj hclear
  | returned => exact h

theorem Ok.step (h : s.Ok) {a : Act} (ha : s.Apart a) : (s.step a).Ok := by
  cases a with
  | record d =>
    refine h.called ?_
    split_ifs
    · exact .inl rfl
    · exact .inr (.inr ⟨d, rfl⟩)
  | reset => exact h.called (.inr (.inl rfl))
  | next j =>
    show Ok (match s.calls[j]? with | some call => s.advance j call | none => s)
    rcases hj : s.calls[j]? with _ | call
    · exact h
    · exact h.advance hj (ha call hj)

theorem ok_start : start.Ok :=
  ⟨fun _ hk ↦ absurd hk List.not_mem_nil, fun _ ↦ ⟨fun _ _ ↦ rfl, rfl, rfl⟩⟩

/-- Every sample is in one bucket. -/
theorem sum_countP_bucketFor (l : List ℤ) :
    ∑ i ∈ Finset.range numBuckets, l.countP (bucketFor · = i) = l.length := by
  induction l with
  | nil => simp
  | cons ns l ih =>
    have hin : bucketFor ns ∈ Finset.range numBuckets := Finset.mem_range.2 (bucketFor_lt ns)
    simp only [List.countP_cons, decide_eq_true_eq, Finset.sum_add_distrib, ih, Finset.sum_ite_eq, if_pos hin,
      List.length_cons]

/-- **In every run whose `Record`s and `Reset`s do not mix, the histogram is the tally of the samples
recorded since the last `Reset`** once all calls have returned: none is split. -/
theorem tallies_of_apart {l : List Act} (hl : Runs.Along step Apart start l)
    (hret : ∀ call ∈ (l.foldl step start).calls, call = .returned) :
    ∑ i ∈ Finset.range numBuckets, (l.foldl step start).counts i = (l.foldl step start).count ∧
      (l.foldl step start).sumNs = ((l.foldl step start).survivors.map (BitVec.ofInt 64)).sum ∧
      (l.foldl step start).count = ((l.foldl step start).survivors.length : ℕ) ∧
      ∀ i < numBuckets, (l.foldl step start).counts i =
        ((l.foldl step start).survivors.countP (bucketFor · = i) : ℕ) := by
  have hok : (l.foldl step start).Ok := hl.invariant (I := Ok) (fun _ _ ha hs ↦ hs.step ha) ok_start
  generalize l.foldl step start = s at hok hret
  obtain ⟨h₁, h₂, h₃⟩ := hok.tallies fun c hc ↦ by rw [hret c hc]; rfl
  obtain ⟨hun, hunc⟩ := sum_eq_zero (s := s) fun c hc ↦ by rw [hret c hc]; rfl
  rw [hun, add_zero] at h₂
  rw [hunc, add_zero] at h₃
  refine ⟨?_, h₂, h₃, h₁⟩
  rw [h₃, ← sum_countP_bucketFor, Nat.cast_sum]
  exact Finset.sum_congr rfl fun i hi ↦ h₁ i (Finset.mem_range.1 hi)

/-- A sample, a `Reset` and two samples that overlap. -/
def apartActs : List Act :=
  [.record 50, .next 0, .next 0, .next 0, .reset] ++ List.replicate 26 (.next 1) ++
    [.record 150, .record 700, .next 2, .next 3, .next 2, .next 3, .next 3, .next 2]

theorem tallies_of_apart_two : (apartActs.foldl step start).survivors = [700, 150] ∧
    (apartActs.foldl step start).sumNs = 850 ∧ (apartActs.foldl step start).count = 2 := by
  have h := tallies_of_apart (l := apartActs) (by decide +kernel) (by decide +kernel)
  exact ⟨by decide +kernel, h.2.1.trans (by decide +kernel), h.2.2.1.trans (by decide +kernel)⟩

/-- A `Reset` between the first add of a `Record` and the second. -/
def mixedActs : List Act :=
  [.record 150, .next 0, .reset] ++ List.replicate 26 (.next 1) ++ [.next 0, .next 0]

/-- All buckets are empty and one sample is counted. -/
theorem split_by_reset : (∀ call ∈ (mixedActs.foldl step start).calls, call = .returned) ∧
    ∑ i ∈ Finset.range numBuckets, (mixedActs.foldl step start).counts i = 0 ∧
    (mixedActs.foldl step start).count = 1 ∧ (mixedActs.foldl step start).sumNs = 150 := by
  decide +kernel

end HistRun

end Memcache
