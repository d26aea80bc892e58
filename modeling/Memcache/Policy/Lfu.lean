import Memcache.Policy.Recency

/-!
# The `LFU` policy

Entries sit in buckets by access count. The source keeps a map from a count to a linked list, in
the order in which entries reached that count; every move appends to a bucket's tail, so **one list
of nodes in the order of their last move** determines all buckets, and the bucket of a count is the
sublist of nodes with that count.

`minFreq` is a lower bound on the counts present, not their minimum: a removal leaves it behind and
`pick` walks forward when its bucket turns out to be empty. That bound is what makes `pick` find a
node whenever there is one (`Lfu.WellFormed`, `Lfu.victim_ne_none`).
-/

namespace Memcache

open NodeList (unlink_sublist mem_of_lookup mem_unlink unlink lookup)

/-- A node of the `LFU` policy. -/
structure LfuNode (K : Type*) where
  entry : Ref K
  freq : ℕ
deriving DecidableEq, Repr

/-- The `LFU` policy. `pulled` holds the nodes that `victim` has taken out of their bucket and
`onRemove` has not yet released; the source's `size` counts them. -/
structure Lfu (K : Type*) where
  nodes : List (LfuNode K)
  pulled : List (LfuNode K)
  minFreq : ℕ
  recent : Option ℕ
deriving DecidableEq, Repr

namespace Lfu

variable {K : Type*}

/-- Identity of a node. -/
def nodeId (n : LfuNode K) : ℕ := n.entry.id

def empty : Lfu K := ⟨[], [], 0, none⟩

section

variable (p : Lfu K)

def tracked : List (Ref K) :=
  p.nodes.map LfuNode.entry

/-- The nodes at one access count, oldest arrival first. -/
def bucket (freq : ℕ) : List (LfuNode K) :=
  p.nodes.filter fun n ↦ n.freq = freq

/-- The smallest count above `start` with a non-empty bucket. -/
def nextNonEmpty (start : ℕ) : Option ℕ :=
  ((p.nodes.map LfuNode.freq).filter fun f ↦ start < f).min?

def onInsert (e : Ref K) : Lfu K :=
  { p with nodes := p.nodes ++ [⟨e, 1⟩], minFreq := 1, recent := some e.id }

/-- `minFreq` after `n` has left its bucket for the next one: it follows when it pointed at that
bucket and the bucket is now empty. -/
def minFreqAfter (n : LfuNode K) : ℕ :=
  if (∀ m ∈ unlink nodeId (nodeId n) p.nodes, m.freq ≠ n.freq) ∧ p.minFreq = n.freq
  then n.freq + 1 else p.minFreq

def onAccess (id : ℕ) : Lfu K :=
  match lookup nodeId id p.nodes with
  | none => p
  | some n => { p with
    nodes := unlink nodeId (nodeId n) p.nodes ++ [{ n with freq := n.freq + 1 }]
    minFreq := p.minFreqAfter n }

def onRemove (id : ℕ) : Lfu K :=
  if (p.nodes ++ p.pulled).all fun n ↦ nodeId n ≠ id then p
  else { p with
    nodes := unlink nodeId id p.nodes
    pulled := unlink nodeId id p.pulled
    recent := if p.recent = some id then none else p.recent }

/-- The node to evict from a non-empty bucket: its head, unless that is the last insert and the
bucket or a later one has another node. -/
def pickFrom (n : LfuNode K) (rest : List (LfuNode K)) : LfuNode K :=
  if p.recent ≠ some (nodeId n) then n
  else match rest with
    | m :: _ => m
    | [] => match p.nextNonEmpty p.minFreq with
      | some f => (p.bucket f).headD n
      | none => n

/-- The choice within the bucket at `minFreq`. -/
def pickAt : Option (LfuNode K) :=
  match p.bucket p.minFreq with
  | [] => none
  | n :: rest => some (p.pickFrom n rest)

/-- The node `Victim` evicts, with the `minFreq` the search leaves behind. -/
def pick : Option (LfuNode K) × Lfu K :=
  if (p.bucket p.minFreq).isEmpty then
    match p.nextNonEmpty p.minFreq with
    | none => (none, p)
    | some f => (pickAt { p with minFreq := f }, { p with minFreq := f })
  else (p.pickAt, p)

def victim : Option (Ref K) × Lfu K :=
  match p.pick with
  | (none, p) => (none, p)
  | (some n, p) =>
    (some n.entry, { p with
      nodes := unlink nodeId (nodeId n) p.nodes
      pulled := p.pulled ++ [n] })

end

/-! ### The invariant -/

/-- `minFreq` is at most every count present, and no node is in the buckets twice. -/
structure WellFormed (p : Lfu K) : Prop where
  distinct : NodeList.Distinct nodeId p.nodes
  minFreq_le : ∀ n ∈ p.nodes, p.minFreq ≤ n.freq
  freq_pos : ∀ n ∈ p.nodes, 1 ≤ n.freq

theorem wellFormed_empty : (empty : Lfu K).WellFormed :=
  ⟨List.nodup_nil, by simp [empty], by simp [empty]⟩

variable {p : Lfu K}

theorem tracked_unlink (p : Lfu K) (id : ℕ) :
    (unlink nodeId id p.nodes).map LfuNode.entry
      = unlink Ref.id id p.tracked :=
  NodeList.map_unlink fun _ ↦ rfl

theorem distinct_iff : NodeList.Distinct nodeId p.nodes ↔ NodeList.Distinct Ref.id p.tracked := by
  simp only [NodeList.Distinct, tracked, List.map_map]
  rfl

@[simp] theorem tracked_onInsert (p : Lfu K) (e : Ref K) :
    (p.onInsert e).tracked = p.tracked ++ [e] := by
  simp [tracked, onInsert]

theorem WellFormed.onInsert (hp : p.WellFormed) {e : Ref K}
    (he : ∀ r ∈ p.tracked, r.id ≠ e.id) : (p.onInsert e).WellFormed where
  distinct := by
    refine (hp.distinct.cons (a := ⟨e, 1⟩) ?_).perm (List.perm_append_singleton _ _).symm
    intro n hn
    exact he n.entry (List.mem_map_of_mem hn)
  minFreq_le := by
    intro n hn
    rcases List.mem_append.1 hn with h | h
    · exact hp.freq_pos n h
    · simp_all [Lfu.onInsert]
  freq_pos := by
    intro n hn
    rcases List.mem_append.1 hn with h | h
    · exact hp.freq_pos n h
    · simp_all

theorem minFreq_le_minFreqAfter (p : Lfu K) (n : LfuNode K) :
    p.minFreqAfter n ≤ max p.minFreq (n.freq + 1) := by
  unfold minFreqAfter
  split <;> omega

theorem WellFormed.minFreqAfter_le (hp : p.WellFormed) {n m : LfuNode K}
    (hm : m ∈ unlink nodeId (nodeId n) p.nodes) : p.minFreqAfter n ≤ m.freq := by
  have hle := hp.minFreq_le m (mem_unlink.1 hm).1
  unfold minFreqAfter
  split
  · next h =>
    have := h.1 m hm
    omega
  · exact hle

theorem tracked_onAccess (p : Lfu K) (id : ℕ) (hp : NodeList.Distinct nodeId p.nodes) :
    (p.onAccess id).tracked.Perm p.tracked := by
  unfold onAccess
  split
  · exact .refl _
  · next n hn =>
    have := (hp.perm_cons_unlink (mem_of_lookup hn)).map LfuNode.entry
    simp only [tracked, List.map_append, List.map_cons, List.map_nil]
    exact (List.perm_append_singleton _ _).trans this.symm

theorem WellFormed.onAccess (hp : p.WellFormed) (id : ℕ) : (p.onAccess id).WellFormed := by
  have hd := distinct_iff.2 ((distinct_iff.1 hp.distinct).perm
    (p.tracked_onAccess id hp.distinct).symm)
  unfold Lfu.onAccess at hd ⊢
  split at hd
  · exact hp
  · next n hn =>
    refine ⟨hd, fun m hm ↦ ?_, fun m hm ↦ ?_⟩
    · rcases List.mem_append.1 hm with h | h
      · exact hp.minFreqAfter_le h
      · obtain rfl := List.mem_singleton.1 h
        have := p.minFreq_le_minFreqAfter n
        have := hp.minFreq_le n (mem_of_lookup hn)
        simp only
        omega
    · rcases List.mem_append.1 hm with h | h
      · exact hp.freq_pos m (mem_unlink.1 h).1
      · obtain rfl := List.mem_singleton.1 h
        exact Nat.le_add_left ..

theorem onRemove_nodes (p : Lfu K) (id : ℕ) :
    (p.onRemove id).nodes = unlink nodeId id p.nodes := by
  unfold onRemove
  split
  · next h =>
    rw [NodeList.unlink_of_notMem]
    intro n hn
    simpa using List.all_eq_true.1 h n (List.mem_append_left _ hn)
  · rfl

@[simp] theorem onRemove_minFreq (p : Lfu K) (id : ℕ) : (p.onRemove id).minFreq = p.minFreq := by
  unfold onRemove
  split <;> rfl

theorem tracked_onRemove (p : Lfu K) (id : ℕ) :
    (p.onRemove id).tracked = unlink Ref.id id p.tracked := by
  rw [← tracked_unlink, tracked, onRemove_nodes]

theorem WellFormed.of_sublist {q : Lfu K} (hp : p.WellFormed) (hn : q.nodes.Sublist p.nodes)
    (hm : q.minFreq = p.minFreq) : q.WellFormed where
  distinct := hp.distinct.sublist hn
  minFreq_le n h := hm ▸ hp.minFreq_le n (hn.subset h)
  freq_pos n h := hp.freq_pos n (hn.subset h)

theorem WellFormed.onRemove (hp : p.WellFormed) (id : ℕ) : (p.onRemove id).WellFormed :=
  hp.of_sublist (by rw [onRemove_nodes]; exact unlink_sublist) (by simp)

/-! ### Choosing a victim -/

theorem nextNonEmpty_eq_some {start f : ℕ} (h : p.nextNonEmpty start = some f) :
    start < f ∧ (∃ n ∈ p.nodes, n.freq = f) ∧
      ∀ n ∈ p.nodes, start < n.freq → f ≤ n.freq := by
  obtain ⟨hf, hle⟩ := List.min?_eq_some_iff.1 h
  simp only [List.mem_filter, List.mem_map, decide_eq_true_eq] at hf
  refine ⟨hf.2, hf.1, fun n hn hlt ↦ hle _ ?_⟩
  simp only [List.mem_filter, List.mem_map, decide_eq_true_eq]
  exact ⟨⟨n, hn, rfl⟩, hlt⟩

theorem nextNonEmpty_eq_none {start : ℕ} (h : p.nextNonEmpty start = none) :
    ∀ n ∈ p.nodes, n.freq ≤ start := by
  intro n hn
  by_contra hlt
  have hm : n.freq ∈ (p.nodes.map LfuNode.freq).filter fun f ↦ start < f := by
    simp only [List.mem_filter, List.mem_map, decide_eq_true_eq]
    exact ⟨⟨n, hn, rfl⟩, by omega⟩
  rw [nextNonEmpty, List.min?_eq_none_iff] at h
  simp [h] at hm

theorem bucket_eq_nil {f : ℕ} (h : p.bucket f = []) : ∀ n ∈ p.nodes, n.freq ≠ f := by
  simpa [bucket] using h

variable {n : LfuNode K}

theorem mem_of_mem_bucket {f : ℕ} (h : n ∈ p.bucket f) : n ∈ p.nodes ∧ n.freq = f := by
  simpa [bucket] using h

theorem mem_nodes_pickFrom {f : ℕ} {rest : List (LfuNode K)} (h : p.bucket f = n :: rest) :
    p.pickFrom n rest ∈ p.nodes := by
  have hmem : ∀ m ∈ n :: rest, m ∈ p.nodes := fun m hm ↦ (mem_of_mem_bucket (h ▸ hm)).1
  unfold pickFrom
  split
  · exact hmem n (List.mem_cons_self ..)
  · split
    · exact hmem _ (by simp)
    · split
      · next f' _ =>
        cases hb : p.bucket f' with
        | nil => exact hmem n (List.mem_cons_self ..)
        | cons m l => exact (mem_of_mem_bucket (hb ▸ List.mem_cons_self ..)).1
      · exact hmem n (List.mem_cons_self ..)

theorem pickAt_mem (h : p.pickAt = some n) : n ∈ p.nodes := by
  unfold pickAt at h
  split at h
  · cases h
  · next hb =>
    cases h
    exact mem_nodes_pickFrom hb

theorem pickAt_ne_none (h : ∃ n ∈ p.nodes, n.freq = p.minFreq) : p.pickAt ≠ none := by
  obtain ⟨n, hn, hf⟩ := h
  unfold pickAt
  split
  · next hb => exact absurd hf (bucket_eq_nil hb n hn)
  · simp

/-- What `pick` does: only `minFreq` moves, and it moves at most to the least count present. -/
theorem pick_cases (p : Lfu K) :
    (p.pick = (none, p) ∧ ∀ n ∈ p.nodes, n.freq < p.minFreq) ∨
      ∃ f, (∃ n ∈ p.nodes, n.freq = f) ∧ (∀ n ∈ p.nodes, p.minFreq ≤ n.freq → f ≤ n.freq) ∧
        p.pick = (pickAt { p with minFreq := f }, { p with minFreq := f }) := by
  unfold pick
  split
  · next hb =>
    have hb := bucket_eq_nil (List.isEmpty_iff.1 hb)
    split
    · next hf =>
      refine .inl ⟨rfl, fun n hn ↦ ?_⟩
      have := nextNonEmpty_eq_none hf n hn
      have := hb n hn
      omega
    · next f hf =>
      obtain ⟨-, hex, hmin⟩ := nextNonEmpty_eq_some hf
      refine .inr ⟨f, hex, fun n hn hle ↦ hmin n hn ?_, rfl⟩
      have := hb n hn
      omega
  · next hb =>
    obtain ⟨n, hn⟩ := List.exists_mem_of_ne_nil _ (mt List.isEmpty_iff.2 hb)
    exact .inr ⟨p.minFreq, ⟨n, mem_of_mem_bucket hn⟩, fun _ _ ↦ id, rfl⟩

@[simp] theorem pick_nodes (p : Lfu K) : p.pick.2.nodes = p.nodes := by
  obtain ⟨h, -⟩ | ⟨f, -, -, h⟩ := p.pick_cases <;> rw [h]

theorem pick_mem (h : p.pick.1 = some n) : n ∈ p.nodes := by
  obtain ⟨hp, -⟩ | ⟨f, -, -, hp⟩ := p.pick_cases <;> rw [hp] at h
  · cases h
  · exact pickAt_mem (p := { p with minFreq := f }) h

theorem WellFormed.pick (hp : p.WellFormed) : p.pick.2.WellFormed := by
  obtain ⟨h, -⟩ | ⟨f, -, hf, h⟩ := p.pick_cases <;> rw [h]
  · exact hp
  · exact ⟨hp.distinct, fun n hn ↦ hf n hn (hp.minFreq_le n hn), hp.freq_pos⟩

theorem victim_eq (p : Lfu K) : p.victim = match p.pick.1 with
    | none => (none, p.pick.2)
    | some n => (some n.entry, { p.pick.2 with
        nodes := unlink nodeId (nodeId n) p.nodes
        pulled := p.pick.2.pulled ++ [n] }) := by
  have hn := p.pick_nodes
  unfold victim
  rcases hp : p.pick with ⟨_ | n, q⟩ <;> simp_all

theorem picks_victim (hp : NodeList.Distinct nodeId p.nodes) :
    Picks p.tracked p.victim.2.tracked p.victim.1 := by
  rw [victim_eq]
  split
  · simp [Picks, tracked]
  · next n hn =>
    exact .of_perm_cons ((hp.perm_cons_unlink (pick_mem hn)).map LfuNode.entry)

theorem WellFormed.victim (hp : p.WellFormed) : p.victim.2.WellFormed := by
  rw [victim_eq]
  split
  · exact hp.pick
  · exact hp.pick.of_sublist (by simpa using unlink_sublist) rfl

/-- **A tracked entry is always found.** The bound on `minFreq` is what the forward search needs:
a node below `minFreq` would never be reached. -/
theorem WellFormed.victim_ne_none (hp : p.WellFormed) (h : p.nodes ≠ []) : p.victim.1 ≠ none := by
  have hpick : p.pick.1 ≠ none := by
    obtain ⟨n, hn⟩ := List.exists_mem_of_ne_nil _ h
    obtain ⟨-, hlt⟩ | ⟨f, hex, -, heq⟩ := p.pick_cases
    · have := hlt n hn
      have := hp.minFreq_le n hn
      omega
    · rw [heq]
      exact pickAt_ne_none hex
  rw [victim_eq]
  split
  · next hnone => exact absurd hnone hpick
  · simp

/-- A choice pulls out its own answer. -/
theorem pulled_victim (h : p.pulled = []) :
    ∀ id ∈ p.victim.2.pulled.map nodeId, ∃ r, p.victim.1 = some r ∧ r.id = id := by
  have hpick : p.pick.2.pulled = [] := by
    unfold pick
    split_ifs
    · split <;> exact h
    · exact h
  intro id hid
  unfold victim at hid ⊢
  rcases hp : p.pick with ⟨_ | n, q⟩
  · rw [hp] at hid hpick
    rw [show q.pulled = [] from hpick] at hid
    cases hid
  · rw [hp] at hid hpick
    refine ⟨n.entry, rfl, ?_⟩
    have hone : id ∈ (q.pulled ++ [n]).map nodeId := hid
    rw [show q.pulled = [] from hpick] at hone
    exact (List.mem_singleton.1 hone).symm

end Lfu

end Memcache
