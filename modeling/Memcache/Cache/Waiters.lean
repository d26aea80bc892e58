import Memcache.Cache.Fade
import Memcache.Cache.Registry

/-!
# Waiters of a load

A load counts who waits for it. The leader that starts it and every caller that joins it wait until
it ends, or give up when their own context does; the last to give up abandons the load and cancels
the context it runs under. A background refresh has nobody waiting and one reference of its own.

The count, the two maps and the cancellation are changed in separate critical sections, by callers
and by the goroutine of the load. Here the sections of one shard are actions on its loads, beside the
list of who really waits, which loads are background refreshes and which contexts a leaving waiter
cancelled; **the actions come in any order**.
-/

namespace Memcache

open Flights (orphanFlight mem_addRefs mem_mark mark)

variable {K V : Type*} {n : ℕ}

/-- A critical section that changes the loads of a shard. -/
inductive FlightAct (K : Type*) where
  /-- A caller that found no value joins the load of the key, or starts one if the limiter allows. -/
  | call (key : K) (allow : Bool)
  /-- A background refresh of the key starts, unless it has a load in flight. -/
  | refresh (key : K)
  /-- A waiter of the load gives up. -/
  | leave (flight : ℕ)
  | finish (flight : ℕ)
  /-- The key is written, deleted or invalidated. -/
  | supersede (key : K)
  | supersedeAll
  | supersedeMatching (matcher : K → Bool)

/-- The loads of a shard, and what the source leaves to its goroutines: the load each waiting caller
waits for, the loads started as background refreshes, the loads cancelled by a waiter. -/
structure FlightRun (K : Type*) where
  flights : Flights K
  waiting : List ℕ
  background : List ℕ
  cancelled : List ℕ

namespace FlightRun

variable [BEq K]

def start : FlightRun K := ⟨.empty, [], [], []⟩

/-- One critical section. -/
def step (s : FlightRun K) : FlightAct K → FlightRun K
  | .call key allow =>
    match s.flights.inflight.get key with
    | some id => { s with flights := s.flights.join id, waiting := id :: s.waiting }
    | none =>
      if allow then
        { s with flights := s.flights.startFlight key, waiting := s.flights.nextFlight :: s.waiting }
      else s
  | .refresh key =>
    if (s.flights.inflight.get key).isSome then s
    else { s with
      flights := s.flights.startFlight key
      background := s.flights.nextFlight :: s.background }
  | .leave id =>
    if id ∈ s.waiting then
      { s with
        flights := s.flights.leave id
        waiting := s.waiting.erase id
        cancelled := if (s.flights.flight id).any (fun f ↦ f.refs - 1 = 0) then id :: s.cancelled
          else s.cancelled }
    else s
  | .finish id =>
    match s.flights.flight id with
    | none => s
    | some f => { s with flights := { s.flights.leaveInflight f.key f.id with
        running := NodeList.unlink Flight.id f.id s.flights.running } }
  | .supersede key => { s with flights := s.flights.supersedeFlight key }
  | .supersedeAll => { s with flights := s.flights.supersedeAllFlights }
  | .supersedeMatching matcher => { s with flights := s.flights.supersedeMatching matcher }

/-- The references a load should have. -/
def holders (s : FlightRun K) (id : ℕ) : ℤ :=
  s.waiting.count id + if id ∈ s.background then 1 else 0

/-- Each key has at most one load in either map; a load in flight is running, with a reference for
each waiter and one for a background refresh, at least one in all, and was not cancelled by a
waiter. -/
structure Registered (s : FlightRun K) : Prop where
  inflightUnique : ∀ p ∈ s.flights.inflight.pairs, ∀ q ∈ s.flights.inflight.pairs, p.1 == q.1 → p = q
  orphansUnique : ∀ p ∈ s.flights.orphans.pairs, ∀ q ∈ s.flights.orphans.pairs, p.1 == q.1 → p = q
  inflight : ∀ p ∈ s.flights.inflight.pairs, ∃ f, s.flights.flight p.2 = some f ∧
    f.refs = s.holders p.2 ∧ 1 ≤ f.refs ∧ p.2 ∉ s.cancelled

/-- A load that ends or is abandoned unregisters no other load. -/
def SparesOthers (s : FlightRun K) (a : FlightAct K) : Prop :=
  match a with
  | .leave id | .finish id => ∀ p : K × ℕ, p.2 ≠ id →
      (p ∈ s.flights.inflight.pairs → p ∈ (s.step a).flights.inflight.pairs) ∧
      (p ∈ s.flights.orphans.pairs → p ∈ (s.step a).flights.orphans.pairs)
  | _ => True

/-! ### What the sections keep -/

/-- The count of every running load is right, a load in flight is held, and one that a waiter
cancelled is not in flight. -/
structure Counted (s : FlightRun K) : Prop where
  ok : s.flights.Ok
  refs : ∀ f ∈ s.flights.running, f.refs = s.holders f.id
  held : ∀ f ∈ s.flights.running, f.id ∈ s.flights.inflight.values → 1 ≤ f.refs
  waiting : ∀ id ∈ s.waiting, id < s.flights.nextFlight
  background : ∀ id ∈ s.background, id < s.flights.nextFlight
  cancelled : ∀ id ∈ s.cancelled, id < s.flights.nextFlight ∧ id ∉ s.flights.inflight.values

namespace Counted

variable {s : FlightRun K} {key : K} {id : ℕ}

theorem empty : (start : FlightRun K).Counted :=
  ⟨.empty, nofun, nofun, nofun, nofun, nofun⟩

variable {flights : Flights K}

/-- A section that marks loads. -/
theorem of_mark (h : s.Counted) (hok : flights.Ok) {ids : List ℕ}
    (hrunning : flights.running = mark ids s.flights.running)
    (hinflight : flights.inflight = s.flights.inflight)
    (hnext : flights.nextFlight = s.flights.nextFlight) :
    ({ s with flights := flights } : FlightRun K).Counted where
  ok := hok
  refs f hf := by
    obtain ⟨g, hg, hid, -, hrefs, -⟩ := mem_mark (hrunning ▸ hf)
    rw [hrefs, hid]
    exact h.refs g hg
  held f hf hmem := by
    obtain ⟨g, hg, hid, -, hrefs, -⟩ := mem_mark (hrunning ▸ hf)
    rw [hrefs]
    exact h.held g hg (hid ▸ hinflight ▸ hmem)
  waiting id hid := hnext ▸ h.waiting id hid
  background id hid := hnext ▸ h.background id hid
  cancelled id hid := by
    rw [hnext, hinflight]
    exact h.cancelled id hid

theorem holders_nextFlight (h : s.Counted) : s.holders s.flights.nextFlight = 0 := by
  have hwait : s.flights.nextFlight ∉ s.waiting := fun hmem ↦ (h.waiting _ hmem).ne rfl
  have hback : s.flights.nextFlight ∉ s.background := fun hmem ↦ (h.background _ hmem).ne rfl
  rw [holders, List.count_eq_zero_of_not_mem hwait, if_neg hback]
  rfl

variable [PartialEquivBEq K]

/-- A load starts, held once. -/
theorem startFlight (h : s.Counted) (hkey : key == key) (hnone : s.flights.inflight.get key = none)
    {waiting background : List ℕ}
    (hheld : ∀ id, ({ s with waiting := waiting, background := background } : FlightRun K).holders id =
      s.holders id + if id = s.flights.nextFlight then 1 else 0)
    (hwaiting : ∀ id ∈ waiting, id ≤ s.flights.nextFlight)
    (hbackground : ∀ id ∈ background, id ≤ s.flights.nextFlight) :
    ({ s with
        flights := s.flights.startFlight key
        waiting := waiting
        background := background } : FlightRun K).Counted where
  ok := h.ok.startFlight hkey hnone
  refs f hf := by
    refine Eq.trans ?_ (hheld f.id).symm
    rcases List.mem_cons.1 hf with rfl | hf
    · rw [h.holders_nextFlight, if_pos rfl]
      rfl
    · obtain ⟨g, hg, hid, -, hrefs, -⟩ := mem_mark hf
      rw [hrefs, hid, if_neg (h.ok.fresh g hg).ne, add_zero]
      exact h.refs g hg
  held f hf hmem := by
    rcases List.mem_cons.1 hf with rfl | hf
    · exact le_rfl
    · obtain ⟨g, hg, hid, -, hrefs, -⟩ := mem_mark hf
      rw [hrefs]
      refine h.held g hg ((KeyMap.mem_values_insert (hid ▸ hmem)).resolve_left ?_)
      exact (h.ok.fresh g hg).ne
  waiting id hid := Nat.lt_succ_of_le (hwaiting id hid)
  background id hid := Nat.lt_succ_of_le (hbackground id hid)
  cancelled id hid := by
    obtain ⟨hlt, hnot⟩ := h.cancelled id hid
    refine ⟨hlt.trans (Nat.lt_succ_self _), fun hmem ↦ ?_⟩
    rcases KeyMap.mem_values_insert hmem with rfl | hmem
    · exact hlt.ne rfl
    · exact hnot hmem

theorem call (h : s.Counted) (hkey : key == key) (allow : Bool) : (s.step (.call key allow)).Counted := by
  simp only [step]
  rcases hget : s.flights.inflight.get key with - | id
  · dsimp only
    split_ifs
    · refine h.startFlight hkey hget (fun id ↦ ?_) (fun id hid ↦ ?_) fun id hid ↦ (h.background id hid).le
      · simp only [holders, List.count_cons, beq_iff_eq, eq_comm (a := id)]
        push_cast
        ring
      · rcases List.mem_cons.1 hid with rfl | hid
        · exact le_rfl
        · exact (h.waiting id hid).le
    · exact h
  · obtain ⟨⟨f, hf, rfl, -⟩, -⟩ := h.ok.of_get_inflight hget
    have hcount (g : Flight K) (hg : g ∈ s.flights.running) :
        g.refs + (if g.id = f.id then 1 else 0) =
          ({ s with waiting := f.id :: s.waiting } : FlightRun K).holders g.id := by
      rw [h.refs g hg]
      simp only [holders, List.count_cons, beq_iff_eq, eq_comm (a := f.id)]
      push_cast
      ring
    refine ⟨h.ok.addRefs 1 f.id, fun g' hg' ↦ ?_, fun g' hg' hmem ↦ ?_, fun id hid ↦ ?_, h.background,
      h.cancelled⟩
    · obtain ⟨g, hg, hid, -, -, hrefs⟩ := mem_addRefs hg'
      rw [hrefs, hid]
      exact hcount g hg
    · obtain ⟨g, hg, hid, -, -, hrefs⟩ := mem_addRefs hg'
      have := h.held g hg (hid ▸ hmem)
      rw [hrefs]
      split_ifs <;> omega
    · rcases List.mem_cons.1 hid with rfl | hid
      · exact h.ok.fresh f hf
      · exact h.waiting id hid

theorem refresh (h : s.Counted) (hkey : key == key) : (s.step (.refresh key)).Counted := by
  simp only [step]
  split_ifs with hsome
  · exact h
  · refine h.startFlight hkey (by simpa using hsome) (fun id ↦ ?_) (fun id hid ↦ (h.waiting id hid).le)
      fun id hid ↦ ?_
    · have hback : s.flights.nextFlight ∉ s.background := fun hmem ↦ (h.background _ hmem).ne rfl
      simp only [holders, List.mem_cons]
      by_cases hid : id = s.flights.nextFlight
      · subst hid
        simp [hback]
      · simp [hid]
    · rcases List.mem_cons.1 hid with rfl | hid
      · exact le_rfl
      · exact (h.background id hid).le

theorem finish (h : s.Counted) (id : ℕ) : (s.step (.finish id)).Counted := by
  simp only [step]
  rcases hf : s.flights.flight id with - | f
  · exact h
  · have hid : f.id = id := NodeList.ident_of_lookup hf
    have hvalues {i : ℕ} (hmem : i ∈ (s.flights.leaveInflight f.key f.id).inflight.values) :
        i ∈ s.flights.inflight.values := by
      simp only [Flights.leaveInflight] at hmem
      split_ifs at hmem
      · exact KeyMap.mem_values_of_erase hmem
      · exact hmem
    refine ⟨h.ok.finish (hid ▸ hf), fun g hg ↦ h.refs g (NodeList.mem_unlink.1 hg).1,
      fun g hg hmem ↦ h.held g (NodeList.mem_unlink.1 hg).1 (hvalues hmem), h.waiting, h.background,
      fun i hi ↦ ⟨(h.cancelled i hi).1, fun hmem ↦ (h.cancelled i hi).2 (hvalues hmem)⟩⟩

/-- A load in flight is registered under its own key. -/
theorem get_of_mem_values (h : s.Counted) {f : Flight K} (hf : f ∈ s.flights.running)
    (hmem : f.id ∈ s.flights.inflight.values) : s.flights.inflight.get f.key = some f.id := by
  obtain ⟨p, hp, hid⟩ := List.mem_map.1 hmem
  obtain ⟨g, hg, hgid, hkey⟩ := h.ok.inflight p hp
  obtain rfl := h.ok.distinct.eq_of_ident hg hf (hgid.trans hid)
  exact hid ▸ h.ok.inflightUnique.get_eq hp (BEq.symm hkey)

/-- Once its last waiter has left, a load is not in flight. -/
theorem notMem_values_orphanFlight (h : s.Counted) {f : Flight K} (hf : f ∈ s.flights.running)
    {running : List (Flight K)} :
    f.id ∉ (({ s.flights with running := running } : Flights K).orphanFlight f.key
      f.id).inflight.values := by
  unfold orphanFlight
  dsimp only
  split_ifs with hget
  · intro hmem
    obtain ⟨p, hp, hid⟩ := List.mem_map.1 hmem
    obtain ⟨hp, hne⟩ := KeyMap.mem_of_mem_erase hp
    obtain ⟨g, hg, hgid, hkey⟩ := h.ok.inflight p hp
    obtain rfl := h.ok.distinct.eq_of_ident hg hf (hgid.trans hid)
    rw [BEq.comm, hne] at hkey
    cases hkey
  · exact fun hmem ↦ hget (h.get_of_mem_values hf hmem)

omit [PartialEquivBEq K] in
theorem mem_values_of_leave {i : ℕ} (hmem : i ∈ (flights.leave id).inflight.values) :
    i ∈ flights.inflight.values := by
  unfold Flights.leave orphanFlight at hmem
  split at hmem
  · exact hmem
  · split_ifs at hmem
    · exact KeyMap.mem_values_of_erase hmem
    · exact hmem
    · exact hmem

omit [PartialEquivBEq K] in
/-- A waiter that leaves takes its reference with it. -/
theorem mem_running_leave {f : Flight K} (hf : f ∈ (flights.leave id).running) :
    ∃ g ∈ flights.running, f.id = g.id ∧ f.refs = g.refs + if g.id = id then -1 else 0 := by
  unfold Flights.leave orphanFlight at hf
  split at hf
  · next hnone =>
    exact ⟨f, hf, rfl, by rw [if_neg (NodeList.lookup_eq_none.1 hnone f hf), add_zero]⟩
  · split_ifs at hf
    · obtain ⟨g, hg, hid, -, hrefs, -⟩ := mem_mark hf
      obtain ⟨b, hb, hbid, -, -, hbrefs⟩ := mem_addRefs hg
      exact ⟨b, hb, hid.trans hbid, hrefs.trans hbrefs⟩
    · obtain ⟨b, hb, hbid, -, -, hbrefs⟩ := mem_addRefs hf
      exact ⟨b, hb, hbid, hbrefs⟩
    · obtain ⟨b, hb, hbid, -, -, hbrefs⟩ := mem_addRefs hf
      exact ⟨b, hb, hbid, hbrefs⟩

omit [PartialEquivBEq K] in
theorem nextFlight_leave (flights : Flights K) (id : ℕ) :
    (flights.leave id).nextFlight = flights.nextFlight := by
  unfold Flights.leave orphanFlight
  split
  · rfl
  · split_ifs <;> rfl

/-- **A waiter leaves.** The last one takes the load out of flight before it cancels it. -/
theorem leave (h : s.Counted) (id : ℕ) : (s.step (.leave id)).Counted := by
  by_cases hwait : id ∈ s.waiting
  swap
  · rw [step, if_neg hwait]
    exact h
  rw [step, if_pos hwait]
  have hholders (i : ℕ) : ({ s with waiting := s.waiting.erase id } : FlightRun K).holders i =
      s.holders i + if i = id then -1 else 0 := by
    simp only [holders]
    rcases eq_or_ne i id with rfl | hne
    · have hpos := List.count_pos_iff.2 hwait
      rw [List.count_erase_self, if_pos rfl]
      push_cast [hpos]
      ring
    · rw [List.count_erase_of_ne hne, if_neg hne, add_zero]
  -- a load in flight that was left still has somebody
  have hlast (f : Flight K) (hf : f ∈ s.flights.running) (hid : f.id = id) (hrefs : f.refs - 1 = 0) :
      id ∉ (s.flights.leave id).inflight.values := by
    have hflight : s.flights.flight id = some f := hid ▸ h.ok.distinct.lookup_eq hf
    unfold Flights.leave
    rw [hflight]
    dsimp only
    rw [if_pos hrefs, ← hid]
    exact h.notMem_values_orphanFlight hf
  refine ⟨h.ok.leave id, fun f hf ↦ ?_, fun f hf hmem ↦ ?_, fun i hi ↦ ?_, fun i hi ↦ ?_, fun i hi ↦ ?_⟩
  · obtain ⟨g, hg, hid, hrefs⟩ := mem_running_leave hf
    rw [hrefs, hid, h.refs g hg]
    exact (hholders g.id).symm
  · obtain ⟨g, hg, hid, hrefs⟩ := mem_running_leave hf
    have hge := h.held g hg (hid ▸ mem_values_of_leave hmem)
    rw [hrefs]
    split_ifs with hgid
    · have hin : id ∈ (s.flights.leave id).inflight.values := (hid.trans hgid).subst hmem
      have : g.refs - 1 ≠ 0 := fun hz ↦ hlast g hg hgid hz hin
      omega
    · omega
  · rw [nextFlight_leave]
    exact h.waiting i (List.mem_of_mem_erase hi)
  · rw [nextFlight_leave]
    exact h.background i hi
  · rw [nextFlight_leave]
    dsimp only at hi
    split_ifs at hi with hany
    · rcases List.mem_cons.1 hi with rfl | hi
      · obtain ⟨f, hf, hrefs⟩ := (Option.any_eq_true _ _).1 hany
        exact ⟨h.waiting i hwait, hlast f (NodeList.mem_of_lookup hf) (NodeList.ident_of_lookup hf)
          (of_decide_eq_true hrefs)⟩
      · exact ⟨(h.cancelled i hi).1, fun hmem ↦ (h.cancelled i hi).2 (mem_values_of_leave hmem)⟩
    · exact ⟨(h.cancelled i hi).1, fun hmem ↦ (h.cancelled i hi).2 (mem_values_of_leave hmem)⟩

/-- **Every section keeps the count.** -/
theorem step [ReflBEq K] (h : s.Counted) (a : FlightAct K) : (s.step a).Counted := by
  cases a with
  | call key allow => exact h.call BEq.rfl allow
  | refresh key => exact h.refresh BEq.rfl
  | leave id => exact h.leave id
  | finish id => exact h.finish id
  | supersede key => exact h.of_mark (h.ok.supersedeFlight key) rfl rfl rfl
  | supersedeAll => exact h.of_mark h.ok.supersedeAllFlights rfl rfl rfl
  | supersedeMatching matcher => exact h.of_mark (h.ok.supersedeMatching matcher) rfl rfl rfl

theorem registered (h : s.Counted) : s.Registered where
  inflightUnique _ hp _ hq := h.ok.inflightUnique.eq_of_beq hp hq
  orphansUnique _ hp _ hq := h.ok.orphansUnique.eq_of_beq hp hq
  inflight p hp := by
    obtain ⟨f, hf, hid, -⟩ := h.ok.inflight p hp
    have hmem : p.2 ∈ s.flights.inflight.values := List.mem_map_of_mem hp
    refine ⟨f, hid ▸ h.ok.distinct.lookup_eq hf, hid ▸ h.refs f hf, h.held f hf (hid ▸ hmem), ?_⟩
    exact fun hc ↦ (h.cancelled _ hc).2 hmem

/-- A load that ends takes its own registration with it. -/
theorem sparesOthers_finish (h : s.Counted) (id : ℕ) : s.SparesOthers (.finish id) := by
  intro p hne
  simp only [FlightRun.step]
  rcases hf : s.flights.flight id with - | f
  · exact ⟨fun hp ↦ hp, fun hp ↦ hp⟩
  · have hid : f.id = id := NodeList.ident_of_lookup hf
    -- what is erased is under an equal key, so it would be the pair itself
    have hkeep {m : KeyMap K ℕ} (hm : m.Unique) (hp : p ∈ m.pairs) :
        p ∈ (if m.get f.key = some f.id then m.erase f.key else m).pairs := by
      split_ifs with hget
      · refine KeyMap.mem_erase hp ?_
        by_contra hk
        rw [hm.get_eq hp (by simpa using hk)] at hget
        exact hne ((Option.some.inj hget).trans hid)
      · exact hp
    exact ⟨hkeep h.ok.inflightUnique, hkeep h.ok.orphansUnique⟩

/-- An abandoned load moves its own registration. -/
theorem sparesOthers_leave (h : s.Counted) (id : ℕ) : s.SparesOthers (.leave id) := by
  intro p hne
  by_cases hwait : id ∈ s.waiting
  swap
  · rw [FlightRun.step, if_neg hwait]
    exact ⟨fun hp ↦ hp, fun hp ↦ hp⟩
  rw [FlightRun.step, if_pos hwait]
  show (p ∈ s.flights.inflight.pairs → p ∈ (s.flights.leave id).inflight.pairs) ∧
    (p ∈ s.flights.orphans.pairs → p ∈ (s.flights.leave id).orphans.pairs)
  unfold Flights.leave orphanFlight
  split
  · exact ⟨fun hp ↦ hp, fun hp ↦ hp⟩
  · next f hf =>
    split_ifs with hrefs hget
    · dsimp only at hget ⊢
      obtain ⟨-, hnone⟩ := h.ok.of_get_inflight hget
      refine ⟨fun hp ↦ KeyMap.mem_erase hp ?_, fun hp ↦ List.mem_cons_of_mem _ (KeyMap.mem_erase hp ?_)⟩
      · by_contra hk
        rw [h.ok.inflightUnique.get_eq hp (by simpa using hk)] at hget
        exact hne (Option.some.inj hget)
      · exact KeyMap.get_eq_none.1 hnone p hp
    · exact ⟨fun hp ↦ hp, fun hp ↦ hp⟩
    · exact ⟨fun hp ↦ hp, fun hp ↦ hp⟩

theorem sparesOthers (h : s.Counted) (a : FlightAct K) : s.SparesOthers a := by
  cases a with
  | leave id => exact h.sparesOthers_leave id
  | finish id => exact h.sparesOthers_finish id
  | _ => trivial

end Counted

/-- **In every interleaving each load in flight is held by exactly those who wait for it**, is not
cancelled under them, and is unregistered by no other load. -/
theorem registered_of_run [EquivBEq K] (l : List (FlightAct K)) :
    (l.foldl step (start : FlightRun K)).Registered ∧ Runs.Along step SparesOthers (start : FlightRun K) l := by
  have hstep (s : FlightRun K) (a : FlightAct K) (hs : s.Counted) : (s.step a).Counted := hs.step a
  refine ⟨(Runs.invariant hstep Counted.empty l).registered, ?_⟩
  exact Runs.Along.of_invariant (I := Counted) (Q := fun _ _ ↦ True) (fun s a _ ↦ hstep s a)
    (fun s a _ hs ↦ hs.sparesOthers a) (.of_forall (fun _ _ ↦ trivial) _ _) Counted.empty

/-- The leader of a load gives up, another caller starts a newer load, and the old one ends. -/
theorem registered_abandoned :
    ([.call 1 true, .leave 0, .call 1 true, .finish 0].foldl step (start : FlightRun ℕ)).Registered ∧
      Runs.Along step SparesOthers (start : FlightRun ℕ)
        [.call 1 true, .leave 0, .call 1 true, .finish 0] :=
  registered_of_run _

/-! ### The sections are the cache's -/

section Mirror

variable {c : Cache K V n} {i : Fin n} {s : FlightRun K} (hs : (c.shards i).flights = s.flights)

include hs

end Mirror

end FlightRun

end Memcache
