import Memcache.Policy.S3Rotation

/-!
# Scan resistance

`2Q` and `S3-FIFO` keep the entries that have proved useful, `Am` and `Main`, apart from those that
were only inserted. A scan inserts new keys one after another, and after each insert the policy
evicts while it is over its budget. As long as the kept queue is within its own budget, a policy
over budget is over budget in its **other** queue, so that is where the victim comes from: the kept
queue is not touched, for scans of any length (`Policy.kept_scan`).

Nothing sends a scanned key to the kept queue either: only a ghost would, and the ghosts a scan
leaves are keys of entries that were tracked before or of earlier keys of the scan.
-/

namespace Memcache

open NodeList (unlink_of_notMem unlink)

variable {K : Type*}

namespace Policy

/-! ### Scans -/

/-- The queue a scan should not touch, with the hits of its entries. -/
def kept : Policy K → List (Ref K × ℕ)
  | .twoQ p => p.am.map (·, 0)
  | .s3fifo p => p.main.map fun n ↦ (n.entry, n.freq)
  | _ => []

/-- The keys remembered after their eviction. -/
def ghosts : Policy K → List K
  | .twoQ p => p.a1out
  | .s3fifo p => p.ghost
  | _ => []

/-- The kept queue is within its budget, and no entry waits to be moved there. -/
def Calm : Policy K → Prop
  | .twoQ p => p.am.length ≤ p.amBudget
  | .s3fifo p => p.main.length ≤ p.mainBudget ∧ ∀ n ∈ p.small, n.freq = 0
  | _ => False

variable [BEq K]

/-- Evict while more than `b` entries are tracked, `fuel` of them at most. -/
def evictDown (hash : K → UInt64) (b : ℕ) : ℕ → Policy K → List (Ref K) × Policy K
  | 0, p => ([], p)
  | fuel + 1, p =>
    if b < p.len then
      match p.victim hash with
      | (none, q) => ([], q)
      | (some r, q) =>
        (r :: (evictDown hash b fuel (q.onRemove r.id)).1, (evictDown hash b fuel (q.onRemove r.id)).2)
    else ([], p)

/-- Insert entries one after another and evict after each; the entries evicted are collected. -/
def scan (hash : K → UInt64) (b : ℕ) : List (Ref K) → Policy K → List (Ref K) × Policy K
  | [], p => ([], p)
  | e :: es, p =>
    let a := evictDown hash b (p.onInsert hash e).len (p.onInsert hash e)
    (a.1 ++ (scan hash b es a.2).1, (scan hash b es a.2).2)

/-- The keys are new, to the policy and to its ghosts, and so are the entries. -/
structure Unseen (p : Policy K) (e : Ref K) : Prop where
  id : ∀ r ∈ p.tracked, r.id ≠ e.id
  key : ∀ r ∈ p.tracked, (r.key == e.key) = false
  ghost : ∀ g ∈ p.ghosts, (g == e.key) = false

/-- Entries under distinct keys, none of which the policy has or remembers. -/
structure IsScan (p : Policy K) (es : List (Ref K)) : Prop where
  unseen : ∀ e ∈ es, Unseen p e
  distinct : es.Pairwise fun a b ↦ a.id ≠ b.id ∧ (a.key == b.key) = false

/-! ### One insert and one eviction -/

/-- What an insert or an eviction of a scan does to a policy: the kept queue stays, and what is
tracked or remembered was so before, or is an entry `e`. -/
structure Passing (p q : Policy K) (e : Ref K) : Prop where
  calm : q.Calm
  kept : q.kept = p.kept
  tracked : ∀ r ∈ q.tracked, r ∈ e :: p.tracked
  ghosts : ∀ g ∈ q.ghosts, g = e.key ∨ g ∈ p.ghosts

theorem Unseen.passing {p q : Policy K} {e x : Ref K} (h : Unseen p x) (hq : Passing p q e)
    (hid : e.id ≠ x.id) (hkey : (e.key == x.key) = false) : Unseen q x where
  id r hr := by
    rcases List.mem_cons.1 (hq.tracked r hr) with rfl | hr
    · exact hid
    · exact h.id r hr
  key r hr := by
    rcases List.mem_cons.1 (hq.tracked r hr) with rfl | hr
    · exact hkey
    · exact h.key r hr
  ghost g hg := by
    rcases hq.ghosts g hg with rfl | hg
    · exact hkey
    · exact h.ghost g hg

theorem any_ghosts_eq_false {l : List K} {key : K} (h : ∀ g ∈ l, (g == key) = false) :
    l.any (· == key) = false := by
  simpa using h

/-- A scanned entry goes to the queue that is not kept. -/
theorem passing_onInsert {p : Policy K} {e : Ref K} (hash : K → UInt64) (hp : p.Calm)
    (he : Unseen p e) : Passing p (p.onInsert hash e) e := by
  have htracked : ∀ r ∈ (p.onInsert hash e).tracked, r ∈ e :: p.tracked := fun r hr ↦
    (tracked_onInsert hash e p).mem_iff.1 hr
  cases p with
  | twoQ p =>
    have hins : p.onInsert e = { p with a1in := p.a1in ++ [e] } := by
      rw [TwoQ.onInsert, any_ghosts_eq_false (l := p.a1out) he.ghost]
      rfl
    refine ⟨?_, ?_, htracked, fun g hg ↦ .inr ?_⟩
    · show (p.onInsert e).am.length ≤ (p.onInsert e).amBudget
      rw [hins]
      exact hp
    · show (p.onInsert e).am.map _ = _
      rw [hins]
      rfl
    · have hg : g ∈ (p.onInsert e).a1out := hg
      rwa [hins] at hg
  | s3fifo p =>
    have hins : p.onInsert e =
        { p with small := p.small ++ [⟨e, 0⟩], recentInsert := some e.id } := by
      rw [S3Fifo.onInsert, any_ghosts_eq_false (l := p.ghost) he.ghost]
      rfl
    refine ⟨?_, ?_, htracked, fun g hg ↦ .inr ?_⟩
    · show (p.onInsert e).main.length ≤ (p.onInsert e).mainBudget ∧ _
      rw [hins]
      refine ⟨hp.1, fun n hn ↦ ?_⟩
      rcases List.mem_append.1 hn with hn | hn
      · exact hp.2 n hn
      · obtain rfl := List.mem_singleton.1 hn
        rfl
    · show (p.onInsert e).main.map _ = _
      rw [hins]
      rfl
    · have hg : g ∈ (p.onInsert e).ghost := hg
      rwa [hins] at hg
  | _ => exact hp.elim

/-- What an eviction of a scan hands out. -/
structure Leaving (p : Policy K) (r : Ref K) (q : Policy K) : Prop extends Passing p q r where
  mem : r ∈ p.tracked
  notKept : ∀ n ∈ p.kept, n.1.id ≠ r.id
  len : q.len + 1 = p.len

end Policy

theorem mem_ghostRecord [BEq K] {budget : ℕ} {key g : K} {l : List K}
    (h : g ∈ ghostRecord budget key l) : g = key ∨ g ∈ l := by
  unfold ghostRecord at h
  split_ifs at h
  · exact .inr h
  · rcases List.mem_append.1 (List.drop_subset _ _ h) with h | h
    · exact .inr h
    · exact .inl (List.mem_singleton.1 h)

theorem twoQSplitBudget_add {b : ℕ} (hb : 2 ≤ b) :
    (twoQSplitBudget b).1 + (twoQSplitBudget b).2.1 = b := by
  unfold twoQSplitBudget
  rw [if_neg (by omega)]
  dsimp only
  omega

variable [BEq K] {hash : K → UInt64} {b : ℕ}

/-- `2Q` over its budget with `Am` within its own gives up the oldest entry of `A1in`. -/
theorem TwoQ.leaving_victim {p : TwoQ K} (hb : 2 ≤ b) (hp : NodeList.Distinct Ref.id p.tracked)
    (hblank : p.reset = TwoQ.new b) (hcalm : p.am.length ≤ p.amBudget)
    (hlen : b < p.a1in.length + p.am.length) :
    ∃ r q, p.victim = (some r, q) ∧ Policy.Leaving (.twoQ p) r (.twoQ (q.onRemove r.id)) := by
  have hin : p.inBudget = (twoQSplitBudget b).1 := congrArg TwoQ.inBudget hblank
  have ham : p.amBudget = (twoQSplitBudget b).2.1 := congrArg TwoQ.amBudget hblank
  have hsum := twoQSplitBudget_add hb
  have hover : p.inBudget < p.a1in.length := by omega
  rcases hl : p.a1in with _ | ⟨n, rest⟩
  · simp [hl] at hover
  have hv : p.victim = (some n, { p with
      a1in := rest, a1out := ghostRecord p.outBudget n.key p.a1out }) := by
    rw [TwoQ.victim, if_pos hover, TwoQ.evictIn, hl]
  -- the entry is nowhere else, so its removal finds nothing
  have hid : ∀ m ∈ rest ++ p.am, m.id ≠ n.id := by
    have hd : NodeList.Distinct Ref.id (n :: (rest ++ p.am)) := by
      rwa [TwoQ.tracked, hl] at hp
    intro m hm h
    exact (List.nodup_cons.1 hd).1 (h ▸ List.mem_map_of_mem hm)
  have hrest : unlink Ref.id n.id rest = rest :=
    unlink_of_notMem fun m hm ↦ hid m (List.mem_append_left _ hm)
  have hkeep : unlink Ref.id n.id p.am = p.am :=
    unlink_of_notMem fun m hm ↦ hid m (List.mem_append_right _ hm)
  refine ⟨n, _, hv, ⟨?_, ?_, ?_, ?_⟩, ?_, ?_, ?_⟩
  · show (unlink Ref.id n.id p.am).length ≤ p.amBudget
    rwa [hkeep]
  · show (unlink Ref.id n.id p.am).map _ = p.am.map _
    rw [hkeep]
  · intro r hr
    have hr : r ∈ unlink Ref.id n.id rest ++ unlink Ref.id n.id p.am := hr
    rw [hrest, hkeep] at hr
    show r ∈ n :: (p.a1in ++ p.am)
    rw [hl]
    exact List.mem_cons_of_mem _ (List.mem_cons_of_mem _ hr)
  · exact fun g hg ↦ mem_ghostRecord hg
  · show n ∈ p.a1in ++ p.am
    rw [hl]
    exact List.mem_cons_self
  · intro m hm
    obtain ⟨a, ha, rfl⟩ := List.mem_map.1 hm
    exact hid a (List.mem_append_right _ ha)
  · show (unlink Ref.id n.id rest).length + (unlink Ref.id n.id p.am).length + 1 =
      p.a1in.length + p.am.length
    rw [hrest, hkeep, hl, List.length_cons]
    omega

/-- Without hits in `Small`, an over-full one gives up its oldest entry that is not the last
insert. -/
theorem S3Fifo.victim_of_small {p : S3Fifo K} (hd : NodeList.Distinct S3Fifo.nodeId p.small)
    (hb : 1 ≤ p.smallBudget) (hover : p.smallBudget < p.small.length)
    (hfreq : ∀ n ∈ p.small, n.freq = 0) :
    ∃ n rest, p.small.Perm (n :: rest) ∧
      p.victim = (some n.entry, recordGhost { p with small := rest } n.entry.key) := by
  -- a pass over a state whose head is not the last insert answers
  have answers {p : S3Fifo K} {n : S3Node K} {rest : List (S3Node K)} (hs : p.small = n :: rest)
      (hover : p.smallBudget < p.small.length) (hr : p.isRecent n = false) (hf : n.freq = 0)
      (passes : ℕ) : p.rotate (passes + 1) =
        (some n.entry, recordGhost { p with small := rest } n.entry.key) := by
    rw [rotate_succ, pass, if_pos hover, hs]
    simp [hr, hf]
  rcases hl : p.small with _ | ⟨n, rest⟩
  · simp [hl] at hover
  obtain ⟨passes, hpasses⟩ : ∃ k, (p.small.length + p.main.length + 1) * (s3FreqMax + 1) + 1 =
      k + 1 + 1 := ⟨_, by rw [show s3FreqMax = 3 from rfl, Nat.add_mul]⟩
  rcases Bool.eq_false_or_eq_true (p.isRecent n) with hr | hr
  · have hskip := skipped_rotate hd hl hr
    have hlen : (rest ++ [n]).length = p.small.length := by simp [hl]
    rcases hl' : rest ++ [n] with _ | ⟨m, rest'⟩
    · simp at hl'
    have hm : m ∈ p.small := by
      have : m ∈ rest ++ [n] := hl' ▸ List.mem_cons_self
      rw [hl]
      exact (List.perm_append_singleton n rest).subset this
    refine ⟨m, rest', ?_, ?_⟩
    · rw [← hl']
      exact (List.perm_append_singleton n rest).symm
    · have hp : p.pass = .again { p with small := rest ++ [n] } := by
        rw [pass, if_pos hover, hl]
        simp [hr]
      rw [victim, hpasses, rotate_succ, hp]
      dsimp only
      have hover' : p.smallBudget < (rest ++ [n]).length := hlen ▸ hover
      exact answers (p := { p with small := rest ++ [n] }) hl' hover'
        (hskip.isRecent_head hb hl' hover') (hfreq m hm) passes
  · refine ⟨n, rest, .refl _, ?_⟩
    rw [victim, hpasses]
    exact answers hl hover hr (hfreq n (hl ▸ List.mem_cons_self)) _

/-- `S3-FIFO` over its budget with `Main` within its own gives up an entry of `Small`. -/
theorem S3Fifo.leaving_victim {p : S3Fifo K} (hb : 2 ≤ b)
    (hp : NodeList.Distinct Ref.id p.tracked) (hblank : p.reset = S3Fifo.new b)
    (hcalm : Policy.Calm (.s3fifo p)) (hlen : b < p.small.length + p.main.length) :
    ∃ r q, p.victim = (some r, q) ∧ Policy.Leaving (.s3fifo p) r (.s3fifo (q.onRemove r.id)) := by
  have hsb : p.smallBudget = (s3SplitBudget b).1 := congrArg S3Fifo.smallBudget hblank
  have hmb : p.mainBudget = (s3SplitBudget b).2 := congrArg S3Fifo.mainBudget hblank
  have hsum := s3SplitBudget_add (by omega : 1 ≤ b)
  have hpos := (s3SplitBudget_pos hb).1
  have hmain : p.main.length ≤ p.mainBudget := hcalm.1
  obtain ⟨n, rest, hperm, hv⟩ := victim_of_small (distinct_queues hp).1 (by omega) (by omega) hcalm.2
  have hid : ∀ m ∈ rest ++ p.main, S3Fifo.nodeId m ≠ S3Fifo.nodeId n := by
    have hd : ((n :: (rest ++ p.main)).map S3Fifo.nodeId).Nodup := by
      have hp : ((p.small ++ p.main).map S3Fifo.nodeId).Nodup := distinct_nodes hp
      exact ((hperm.append_right p.main).map S3Fifo.nodeId).nodup_iff.1 hp
    intro m hm h
    exact (List.nodup_cons.1 hd).1 (h ▸ List.mem_map_of_mem hm)
  have hrest : unlink S3Fifo.nodeId n.entry.id rest = rest :=
    unlink_of_notMem fun m hm ↦ hid m (List.mem_append_left _ hm)
  have hkeep : unlink S3Fifo.nodeId n.entry.id p.main = p.main :=
    unlink_of_notMem fun m hm ↦ hid m (List.mem_append_right _ hm)
  refine ⟨n.entry, _, hv, ⟨⟨?_, ?_⟩, ?_, ?_, ?_⟩, ?_, ?_, ?_⟩
  · show (unlink S3Fifo.nodeId n.entry.id p.main).length ≤ p.mainBudget
    rwa [hkeep]
  · show ∀ m ∈ unlink S3Fifo.nodeId n.entry.id rest, m.freq = 0
    rw [hrest]
    exact fun m hm ↦ hcalm.2 m (hperm.mem_iff.2 (List.mem_cons_of_mem _ hm))
  · show (unlink S3Fifo.nodeId n.entry.id p.main).map _ = p.main.map _
    rw [hkeep]
  · intro r hr
    have hr : r ∈ (unlink S3Fifo.nodeId n.entry.id rest).map S3Node.entry ++
        (unlink S3Fifo.nodeId n.entry.id p.main).map S3Node.entry := hr
    rw [hrest, hkeep] at hr
    refine List.mem_cons_of_mem _ ?_
    show r ∈ p.small.map S3Node.entry ++ p.main.map S3Node.entry
    refine ((hperm.map S3Node.entry).append_right _).mem_iff.2 (List.mem_cons_of_mem _ hr)
  · exact fun g hg ↦ mem_ghostRecord hg
  · show n.entry ∈ p.small.map S3Node.entry ++ p.main.map S3Node.entry
    exact List.mem_append_left _ (List.mem_map_of_mem (hperm.mem_iff.2 List.mem_cons_self))
  · intro m hm
    obtain ⟨a, ha, rfl⟩ := List.mem_map.1 hm
    exact hid a (List.mem_append_right _ ha)
  · show (unlink S3Fifo.nodeId n.entry.id rest).length +
      (unlink S3Fifo.nodeId n.entry.id p.main).length + 1 = p.small.length + p.main.length
    rw [hrest, hkeep, hperm.length_eq, List.length_cons]
    omega

namespace Policy

/-- **Over its budget, a calm policy gives up an entry that is not in the kept queue.** -/
theorem leaving_victim {kind : PolicyKind} {p : Policy K} (hb : 2 ≤ b)
    (hp : Attained hash kind b p) (hcalm : p.Calm) (hlen : b < p.len) :
    ∃ r q, p.victim hash = (some r, q) ∧ Leaving p r (q.onRemove r.id) := by
  have hkind := kind_of_blank hp.blank
  cases p with
  | twoQ p =>
    subst hkind
    obtain ⟨r, q, hv, hq⟩ := TwoQ.leaving_victim hb hp.wellFormed (Policy.twoQ.inj hp.blank) hcalm
      hlen
    exact ⟨r, .twoQ q, by rw [victim, hv], hq⟩
  | s3fifo p =>
    subst hkind
    obtain ⟨r, q, hv, hq⟩ := S3Fifo.leaving_victim hb hp.wellFormed (Policy.s3fifo.inj hp.blank)
      hcalm hlen
    exact ⟨r, .s3fifo q, by rw [victim, hv], hq⟩
  | _ => exact hcalm.elim

/-! ### Whole scans -/

variable {kind : PolicyKind} {p : Policy K}

/-- What the evictions after an insert come to, for keys still to come. -/
structure Settled (p : Policy K) (b : ℕ) (es : List (Ref K)) (a : List (Ref K) × Policy K) :
    Prop where
  calm : a.2.Calm
  kept : a.2.kept = p.kept
  notKept : ∀ r ∈ a.1, ∀ n ∈ p.kept, n.1.id ≠ r.id
  len : a.2.len ≤ b
  unseen : ∀ e ∈ es, Unseen p e → Unseen a.2 e

theorem settled_evictDown (hb : 2 ≤ b) (hp : Attained hash kind b p) (hcalm : p.Calm)
    (es : List (Ref K)) {fuel : ℕ} (hfuel : p.len ≤ fuel) :
    Attained hash kind b (evictDown hash b fuel p).2 ∧ Settled p b es (evictDown hash b fuel p) := by
  induction fuel generalizing p with
  | zero => exact ⟨hp, hcalm, rfl, (fun r hr ↦ by cases hr), hfuel.trans (Nat.zero_le b), fun _ _ h ↦ h⟩
  | succ fuel ih =>
    by_cases hover : b < p.len
    · obtain ⟨r, q, hv, hq⟩ := leaving_victim hb hp hcalm hover
      have hstep : Attained hash kind b (q.onRemove r.id) := by
        have := hp.op .evict trivial
        simp only [apply, release, hv] at this
        exact this
      obtain ⟨hatt, hset⟩ := ih hstep hq.calm (by have := hq.len; omega)
      rw [evictDown, if_pos hover, hv]
      refine ⟨hatt, hset.calm, hset.kept.trans hq.kept, ?_, hset.len, fun e he hu ↦ ?_⟩
      · intro x hx n hn
        rcases List.mem_cons.1 hx with rfl | hx
        · exact hq.notKept n hn
        · exact hset.notKept x hx n (hq.kept ▸ hn)
      · exact hset.unseen e he (hu.passing hq.toPassing (hu.id r hq.mem) (hu.key r hq.mem))
    · rw [evictDown, if_neg hover]
      exact ⟨hp, hcalm, rfl, (fun r hr ↦ by cases hr), not_lt.1 hover, fun _ _ h ↦ h⟩

/-- **A scan of any length leaves the kept queue as it was**, evicts none of its entries and ends
within the budget. -/
theorem kept_scan (hb : 2 ≤ b) (hp : Attained hash kind b p) (hcalm : p.Calm) {es : List (Ref K)}
    (hes : IsScan p es) :
    Attained hash kind b (scan hash b es p).2 ∧ (scan hash b es p).2.kept = p.kept ∧
      (∀ r ∈ (scan hash b es p).1, ∀ n ∈ p.kept, n.1.id ≠ r.id) ∧
      (es ≠ [] → (scan hash b es p).2.len ≤ b) := by
  induction es generalizing p with
  | nil => exact ⟨hp, rfl, nofun, fun h ↦ absurd rfl h⟩
  | cons e es ih =>
    have he := hes.unseen e List.mem_cons_self
    have hins := passing_onInsert hash hcalm he
    obtain ⟨hfresh, hdistinct⟩ := List.pairwise_cons.1 hes.distinct
    have hatt : Attained hash kind b (p.onInsert hash e) := hp.op (.insert e) he.id
    obtain ⟨hnext, hset⟩ := settled_evictDown hb hatt hins.calm es le_rfl
    set a := evictDown hash b (p.onInsert hash e).len (p.onInsert hash e) with ha
    have hscan : IsScan a.2 es := by
      refine ⟨fun x hx ↦ hset.unseen x hx ?_, hdistinct⟩
      exact (hes.unseen x (List.mem_cons_of_mem _ hx)).passing hins (hfresh x hx).1 (hfresh x hx).2
    obtain ⟨hc, hk, hnot, hl⟩ := ih hnext hset.calm hscan
    have hkept : a.2.kept = p.kept := hset.kept.trans hins.kept
    show Attained hash kind b (scan hash b es a.2).2 ∧ (scan hash b es a.2).2.kept = p.kept ∧
      (∀ r ∈ a.1 ++ (scan hash b es a.2).1, ∀ n ∈ p.kept, n.1.id ≠ r.id) ∧
      (e :: es ≠ [] → (scan hash b es a.2).2.len ≤ b)
    refine ⟨hc, hk.trans hkept, ?_, fun _ ↦ ?_⟩
    · intro r hr n hn
      rcases List.mem_append.1 hr with hr | hr
      · exact hset.notKept r hr n (hins.kept ▸ hn)
      · exact hnot r hr n (hkept ▸ hn)
    · rcases es with _ | ⟨x, es⟩
      · exact hset.len
      · exact hl (List.cons_ne_nil x es)

/-- **Scan resistance** of `2Q`, while `Am` is within its budget, and of `S3-FIFO`, while `Main` is
and no entry of `Small` has been hit. -/
theorem scan_resistant (hb : 2 ≤ b) :
    (∀ (p : TwoQ K) (es : List (Ref K)), Attained hash .twoQ b (.twoQ p) →
      p.am.length ≤ p.amBudget → IsScan (.twoQ p) es →
      ∃ q, (scan hash b es (.twoQ p)).2 = .twoQ q ∧ q.am = p.am ∧
        ∀ r ∈ (scan hash b es (.twoQ p)).1, ∀ n ∈ p.am, n.id ≠ r.id) ∧
    ∀ (p : S3Fifo K) (es : List (Ref K)), Attained hash .s3fifo b (.s3fifo p) →
      p.main.length ≤ p.mainBudget → (∀ n ∈ p.small, n.freq = 0) → IsScan (.s3fifo p) es →
      ∃ q, (scan hash b es (.s3fifo p)).2 = .s3fifo q ∧ q.main = p.main ∧
        ∀ r ∈ (scan hash b es (.s3fifo p)).1, ∀ n ∈ p.main, n.entry.id ≠ r.id := by
  refine ⟨fun p es hp hcalm hes ↦ ?_, fun p es hp hmain hsmall hes ↦ ?_⟩
  · obtain ⟨hatt, hkept, hnot, -⟩ := kept_scan hb hp hcalm hes
    rcases hq : (scan hash b es (.twoQ p)).2 with _ | _ | _ | _ | _ | q | _
    case twoQ =>
      rw [hq] at hkept
      refine ⟨q, rfl, ?_, fun r hr n hn ↦ hnot r hr (n, 0) (List.mem_map_of_mem hn)⟩
      exact List.map_injective_iff.2 (fun a b h ↦ congrArg Prod.fst h) hkept
    all_goals
      rw [hq] at hatt
      cases kind_of_blank hatt.blank
  · obtain ⟨hatt, hkept, hnot, -⟩ := kept_scan hb hp ⟨hmain, hsmall⟩ hes
    rcases hq : (scan hash b es (.s3fifo p)).2 with _ | _ | q | _ | _ | _ | _
    case s3fifo =>
      rw [hq] at hkept
      refine ⟨q, rfl, ?_, fun r hr n hn ↦ hnot r hr (n.entry, n.freq) (List.mem_map.2 ⟨n, hn, rfl⟩)⟩
      refine List.map_injective_iff.2 (fun a b h ↦ ?_) hkept
      obtain ⟨h₁, h₂⟩ := Prod.mk.inj h
      cases a
      cases b
      simp_all
    all_goals
      rw [hq] at hatt
      cases kind_of_blank hatt.blank

/-- A `2Q` policy with a budget of two and one entry in `Am`, scanned by two new keys. -/
theorem scan_resistant_two :
    let p : TwoQ ℕ := ⟨[], 1, [⟨0, 0⟩], 1, [1], 1⟩
    ∃ q, (scan UInt64.ofNat 2 [⟨3, 3⟩, ⟨4, 4⟩] (.twoQ p)).2 = .twoQ q ∧ q.am = p.am ∧
      ∀ r ∈ (scan UInt64.ofNat 2 [⟨3, 3⟩, ⟨4, 4⟩] (.twoQ p)).1, ∀ n ∈ p.am, n.id ≠ r.id := by
  have start : Attained (K := ℕ) UInt64.ofNat .twoQ 2 (.new .twoQ 2) := .new 2
  -- the key leaves `A1in`, comes back to `Am`, and another key is evicted and remembered
  have hp : Attained UInt64.ofNat .twoQ 2 (.twoQ ⟨[], 1, [⟨0, 0⟩], 1, [1], 1⟩) :=
    ((((start.op (.insert ⟨9, 0⟩) (by decide)).op .evict trivial).op (.insert ⟨0, 0⟩)
      (by decide)).op (.insert ⟨1, 1⟩) (by decide)).op .evict trivial
  refine (scan_resistant le_rfl).1 _ _ hp le_rfl ⟨?_, by decide⟩
  intro e he
  simp only [List.mem_cons, List.not_mem_nil, or_false] at he
  rcases he with rfl | rfl <;> exact ⟨by decide, by decide, by decide⟩

end Policy

end Memcache
