import Memcache.Policy.S3Heap
import Memcache.Policy.Fresh
import Memcache.Lib.Runs

/-!
# What holds of the nodes of `S3-FIFO` in every run

The shard drives the policy by inserts, hits, updates, removals, evictions, budget changes and
clears. `S3Heap.Attained` are the states this leads to when no entry is inserted under a key that is
tracked. In all of them **the pointers make up the queues** (`S3Heap.Kept`): the two queues are well
formed and as long as their counters say, flags and counters are right, and `Ghost` and its map hold
the same keys, none of them resident.

That the map stays in step with the list takes keys that equal themselves. A `NaN` leaves `Ghost` and
stays in the map (`exists_attained_nan`).
-/

namespace Memcache

namespace S3Heap

variable {K : Type*}

/-- The policy has the entry: the entry points at a node that carries it. -/
def Tracks (s : S3Heap K) (r : Ref K) : Prop :=
  s.policyData r.id = true ∧ s.entry r.id = some r

/-- An insert is of an entry object of its own, under a key that is not tracked. -/
def Legal [BEq K] (s : S3Heap K) : PolicyOp K → Prop
  | .insert e => ∀ r, s.Tracks r → r.id ≠ e.id ∧ (r.key == e.key) = false
  | _ => True

/-- The key of an insert equals itself. -/
def SelfEqual [BEq K] : PolicyOp K → Prop
  | .insert e => e.key == e.key
  | _ => True

variable [BEq K]

/-- The states the policy gets into by operations that satisfy a condition. -/
inductive Attained (pinNodes : Bool) (ok : PolicyOp K → Prop) : S3Heap K → Prop where
  | new (b : ℕ) : Attained pinNodes ok (new pinNodes b)
  | op {s : S3Heap K} (h : Attained pinNodes ok s) (op : PolicyOp K) (hop : s.Legal op)
      (hok : ok op) : Attained pinNodes ok (s.apply op).2

/-- What the pointers, flags, counters and maps of the policy satisfy, for the nodes of its
queues. -/
structure KeptBy (s : S3Heap K) (smalls mains : List ℕ) (ghosts : List (K × ℕ)) : Prop where
  small : DList.IsList s.link s.small smalls
  main : DList.IsList s.link s.main mains
  disjoint : smalls.Disjoint mains
  tracked : ∀ id, id ∈ smalls ++ mains ↔ ∃ r, r.id = id ∧ s.Tracks r
  inSmall : ∀ id ∈ smalls, s.inMain id = false
  inMain : ∀ id ∈ mains, s.inMain id = true
  freq : ∀ id ∈ smalls ++ mains, s.freq id ≤ s3FreqMax
  ghost : DList.IsList s.ghost.link s.ghost.ends (ghosts.map Prod.snd)
  ghostKeys : ∀ x ∈ ghosts, s.ghost.key x.2 = some x.1
  ghostSet : s.ghost.set.pairs.Perm ghosts
  ghostApart : Apart (ghosts.map Prod.fst)
  ghostSize : s.ghost.ends.size = s.ghost.set.pairs.length
  ghostBudget : s.ghost.set.pairs.length ≤ s.ghostBudget
  resident : ∀ r, s.Tracks r → ∀ x ∈ ghosts, (r.key == x.1) = false

/-- The pointers make up two queues and a ghost list. -/
def Kept (s : S3Heap K) : Prop :=
  ∃ smalls mains ghosts, s.KeptBy smalls mains ghosts

/-! ### One operation -/

section Step

variable {s : S3Heap K} {p : S3Fifo K}

/-- An entry is tracked by the nodes iff it is tracked in the queues. -/
theorem Tied.tracks_iff (h : s.Tied p none) {r : Ref K} : s.Tracks r ↔ r ∈ p.tracked := by
  have hnode {n : S3Node K} (hc : s.Carries n) : s.Tracks n.entry := ⟨hc.points, hc.entry⟩
  have hback {n : S3Node K} (hc : s.Carries n) (hr : s.Tracks r) (hid : S3Fifo.nodeId n = r.id) :
      n.entry = r := Option.some_inj.1 (hc.entry.symm.trans (hid ▸ hr.2))
  rw [S3Fifo.tracked, List.mem_append, List.mem_map, List.mem_map]
  constructor
  · intro hr
    by_cases hs : r.id ∈ p.small.map S3Fifo.nodeId
    · obtain ⟨n, hn, hid⟩ := List.mem_map.1 hs
      exact .inl ⟨n, hn, hback (h.inSmall n hn).1 hr hid⟩
    · by_cases hm : r.id ∈ p.main.map S3Fifo.nodeId
      · obtain ⟨n, hn, hid⟩ := List.mem_map.1 hm
        exact .inr ⟨n, hn, hback (h.inMain n hn).1 hr hid⟩
      · exact absurd ⟨hr.1, by rw [hr.2]; rfl⟩ (h.gone_of_free hs hm)
  · rintro (⟨n, hn, rfl⟩ | ⟨n, hn, rfl⟩)
    · exact hnode (h.inSmall n hn).1
    · exact hnode (h.inMain n hn).1

/-- The nodes, the queues they make up, and what holds of the queues. -/
structure Matches (s : S3Heap K) (p : S3Fifo K) : Prop where
  tied : s.Tied p none
  sound : p.Sound
  saturated : p.Saturated

variable [PartialEquivBEq K]

/-- An entry that is handed out is removed, on the nodes and in the queues. -/
theorem Matches.release {a : Option (Ref K) × S3Heap K} {b : Option (Ref K) × S3Fifo K}
    (h : s.Matches p) (hands : Hands a b) (hl : p.Leaves b) (hp : Picks p.tracked b.2.tracked b.1)
    (hsat : b.2.Saturated) : ∃ q : S3Fifo K,
      Policy.release (b.1, .s3fifo b.2) = ((release a).1, .s3fifo q) ∧ (release a).2.Matches q := by
  rcases hands with ht | hn
  · exact ⟨_, rfl, ht, h.sound.declined hl hp, hsat⟩
  · exact ⟨_, rfl, hn.onRemove, h.sound.release hl hp, hsat.onRemove _⟩

/-- **Every operation keeps nodes and queues together, and both evict the same entry.** -/
theorem Matches.answers (h : s.Matches p) (hash : K → UInt64) {op : PolicyOp K} (hop : s.Legal op)
    (hself : SelfEqual op) : ∃ q : S3Fifo K,
      Policy.apply hash (.s3fifo p) op = ((s.apply op).1, .s3fifo q) ∧ (s.apply op).2.Matches q := by
  rcases op with e | id | id | id | _ | keepRecent | b | _
  · have hfresh : ∀ r ∈ p.tracked, r.id ≠ e.id ∧ (r.key == e.key) = false := fun r hr ↦
      hop r (h.tied.tracks_iff.2 hr)
    exact ⟨p.onInsert e, rfl, h.tied.onInsert (fun r hr ↦ (hfresh r hr).1) hself,
      h.sound.onInsert (fun r hr ↦ (hfresh r hr).1) fun r hr ↦ (hfresh r hr).2,
      h.saturated.onInsert e⟩
  · exact ⟨p.onAccess id, rfl, h.tied.onAccess id, h.sound.onAccess id, h.saturated.onAccess id⟩
  · exact ⟨p.onAccess id, rfl, h.tied.onAccess id, h.sound.onAccess id, h.saturated.onAccess id⟩
  · exact ⟨p.onRemove id, rfl, h.tied.onRemove h.sound.recent id, h.sound.onRemove id,
      h.saturated.onRemove id⟩
  · exact h.release h.tied.victim (p.leaves_rotate _) (S3Fifo.picks_victim h.sound.distinct)
      (h.saturated.rotate _)
  · exact h.release (h.tied.shed h.sound.recent keepRecent) (p.leaves_shed keepRecent)
      (S3Fifo.picks_shed h.sound.distinct keepRecent) (h.saturated.shed keepRecent)
  · exact ⟨p.setBudget b, rfl, h.tied.setBudget b, h.sound.setBudget b, h.saturated⟩
  · exact ⟨p.reset, rfl, h.tied.reset, .reset p, nofun⟩

theorem Matches.apply (h : s.Matches p) {op : PolicyOp K} (hop : s.Legal op)
    (hself : SelfEqual op) : ∃ q : S3Fifo K, (s.apply op).2.Matches q :=
  (h.answers (fun _ ↦ 0) hop hself).imp fun _ hq ↦ hq.2

omit [PartialEquivBEq K] in
/-- What the queues say about the nodes. -/
theorem Matches.kept (h : s.Matches p) : s.Kept := by
  obtain ⟨gl, hgl, hkeys⟩ := h.tied.ghost
  have hlen : s.ghost.set.pairs.length = p.ghost.length := by
    rw [hgl.index.length_eq, ← hkeys, List.length_map]
  have hnode : ∀ id ∈ p.small.map S3Fifo.nodeId ++ p.main.map S3Fifo.nodeId,
      ∃ n ∈ p.small ++ p.main, S3Fifo.nodeId n = id ∧ s.Carries n := by
    intro id hid
    rcases List.mem_append.1 hid with hid | hid
    · obtain ⟨n, hn, rfl⟩ := List.mem_map.1 hid
      exact ⟨n, List.mem_append_left _ hn, rfl, (h.tied.inSmall n hn).1⟩
    · obtain ⟨n, hn, rfl⟩ := List.mem_map.1 hid
      exact ⟨n, List.mem_append_right _ hn, rfl, (h.tied.inMain n hn).1⟩
  refine ⟨p.small.map S3Fifo.nodeId, p.main.map S3Fifo.nodeId, gl, h.tied.queues.left,
    h.tied.queues.right, h.tied.queues.disjoint, fun id ↦ ⟨fun hid ↦ ?_, ?_⟩, ?_, ?_,
    fun id hid ↦ ?_, hgl.nodes, hgl.keys, hgl.index, hgl.apart, ?_, ?_, fun r hr x hx ↦ ?_⟩
  · obtain ⟨n, -, hid, hc⟩ := hnode id hid
    exact ⟨n.entry, hid, hc.points, hc.entry⟩
  · rintro ⟨r, rfl, hr⟩
    have hm := List.mem_map_of_mem (f := Ref.id) (h.tied.tracks_iff.1 hr)
    rwa [S3Fifo.tracked, List.map_append, List.map_map, List.map_map] at hm
  · rintro id hid
    obtain ⟨n, hn, rfl⟩ := List.mem_map.1 hid
    exact (h.tied.inSmall n hn).2
  · rintro id hid
    obtain ⟨n, hn, rfl⟩ := List.mem_map.1 hid
    exact (h.tied.inMain n hn).2
  · obtain ⟨n, hn, rfl, hc⟩ := hnode id hid
    rw [hc.freq]
    exact h.saturated n hn
  · rw [hgl.size_eq, hgl.index.length_eq]
  · rw [hlen, h.tied.ghostBudget]
    exact h.sound.within
  · have hx' : x.1 ∈ p.ghost := hkeys ▸ List.mem_map_of_mem hx
    exact (List.pairwise_append.1 h.sound.apart).2.2 r.key
      (List.mem_map_of_mem (h.tied.tracks_iff.1 hr)) x.1 hx'

end Step

/-! ### Runs -/

/-- The state after a list of operations. -/
def run (s : S3Heap K) (ops : List (PolicyOp K)) : S3Heap K :=
  ops.foldl (fun s op ↦ (s.apply op).2) s

/-- `Len`: the sum of the two counters. -/
def len (s : S3Heap K) : ℤ := s.small.size + s.main.size

/-- The entry evicted by each operation, and the length after it. -/
def outcomes : List (PolicyOp K) → S3Heap K → List (Option (Ref K) × ℤ)
  | [], _ => []
  | op :: ops, s => ((s.apply op).1, (s.apply op).2.len) :: outcomes ops (s.apply op).2

/-- Operations that are legal where they happen, under keys that equal themselves. -/
def LegalRun : S3Heap K → List (PolicyOp K) → Prop :=
  Runs.Along (fun s op ↦ (s.apply op).2) fun s op ↦ s.Legal op ∧ SelfEqual op

/-- **The nodes answer as the queues do**: in every such run the pointers evict the entries that the
list model evicts, and `Len` is the number of entries that it tracks. -/
theorem outcomes_eq_queues [PartialEquivBEq K] (hash : K → UInt64) (pinNodes : Bool) (b : ℕ)
    {ops : List (PolicyOp K)} (hops : (new pinNodes b).LegalRun ops) :
    outcomes ops (new pinNodes b) =
      (Policy.outcomes hash ops (.new .s3fifo b)).map fun o ↦ (o.1, (o.2 : ℤ)) := by
  have hrun (ops : List (PolicyOp K)) {s : S3Heap K} {p : S3Fifo K} (h : s.Matches p)
      (hops : s.LegalRun ops) : outcomes ops s =
        (Policy.outcomes hash ops (.s3fifo p)).map fun o ↦ (o.1, (o.2 : ℤ)) := by
    induction ops generalizing s p with
    | nil => rfl
    | cons op ops ih =>
      obtain ⟨q, heq, hq⟩ := h.answers hash hops.1.1 hops.1.2
      have hlen : (s.apply op).2.len = ((Policy.s3fifo q).len : ℤ) := by
        rw [len, hq.tied.queues.left.size, hq.tied.queues.right.size]
        simp [Policy.len]
      rw [outcomes, Policy.outcomes, heq, List.map_cons, hlen, ih hq hops.2]
  exact hrun ops ⟨tied_new pinNodes b, S3Fifo.sound_new b, by simp [S3Fifo.Saturated, S3Fifo.new]⟩
    hops

/-- An insert, a hit, and a `shed` that takes the entry away. -/
theorem outcomes_eq_queues_two :
    (new true 2 : S3Heap ℕ).LegalRun [.insert ⟨0, 7⟩, .access 0, .shed false] ∧
      outcomes [.insert ⟨0, 7⟩, .access 0, .shed false] (new true 2) =
        [(none, 1), (none, 1), (some ⟨0, 7⟩, 0)] := by
  have hrun : (new true 2 : S3Heap ℕ).LegalRun [.insert ⟨0, 7⟩, .access 0, .shed false] :=
    ⟨⟨fun _ hr ↦ (nomatch hr.1), rfl⟩, ⟨trivial, trivial⟩, ⟨trivial, trivial⟩, trivial⟩
  exact ⟨hrun, (outcomes_eq_queues UInt64.ofNat true 2 hrun).trans (by decide +kernel)⟩

/-- Three entries under the key that does not equal itself; two of them are evicted. -/
def nanOps : List (PolicyOp FloatKey) :=
  [.insert ⟨0, .nan⟩, .insert ⟨1, .nan⟩, .evict, .insert ⟨2, .nan⟩, .evict]

theorem legal_nan {s : S3Heap FloatKey} (id : ℕ) (h : s.entry id = none) :
    s.Legal (.insert ⟨id, .nan⟩) := by
  intro r hr
  refine ⟨fun he ↦ ?_, by rcases r with ⟨_, _ | _⟩ <;> rfl⟩
  have hnone : s.entry r.id = none := he ▸ h
  rw [hr.2] at hnone
  cases hnone

end S3Heap

end Memcache
