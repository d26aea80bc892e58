import Memcache.Policy.Recency

/-!
# The `S3-FIFO` policy

Two `FIFO` queues and a ghost list. `Victim` rotates: an entry of `Small` that was hit moves to
`Main`, an entry of `Main` that was hit loses one of its hits and goes to the back, and **the entry
just inserted is never handed out** but rotated past. The source bounds the rotation by a count of
passes and falls back to the first entry that is not the last insert; the model keeps both.

`shed` is the second way to give up an entry, used when the cache as a whole is over a bound that
the queues' own budgets know nothing of.
-/

namespace Memcache

/-- A node of the `S3-FIFO` policy; the queue that holds it is the source's `inMain`. -/
structure S3Node (K : Type*) where
  entry : Ref K
  freq : ℕ
deriving DecidableEq, Repr

/-- The `S3-FIFO` policy. All three queues have their oldest element first. -/
structure S3Fifo (K : Type*) where
  small : List (S3Node K)
  smallBudget : ℕ
  main : List (S3Node K)
  mainBudget : ℕ
  ghost : List K
  ghostBudget : ℕ
  recentInsert : Option ℕ
deriving DecidableEq, Repr

/-- Saturation of the hit counter. -/
def s3FreqMax : ℕ := 3

/-- The budgets of `Small` and `Main` for a shard budget. -/
def s3SplitBudget (budget : ℕ) : ℕ × ℕ :=
  if budget = 0 then (0, 0)
  else if budget = 1 then (1, 0)
  else
    let small := if budget ≤ (budget + 9) / 10 then 1 else (budget + 9) / 10
    (small, budget - small)

namespace S3Fifo

variable {K : Type*}

/-- Identity of a node. -/
def nodeId (n : S3Node K) : ℕ := n.entry.id

def new (budget : ℕ) : S3Fifo K where
  small := []
  smallBudget := (s3SplitBudget budget).1
  main := []
  mainBudget := (s3SplitBudget budget).2
  ghost := []
  ghostBudget := (s3SplitBudget budget).2
  recentInsert := none

def tracked (p : S3Fifo K) : List (Ref K) :=
  p.small.map S3Node.entry ++ p.main.map S3Node.entry

def setBudget (p : S3Fifo K) (budget : ℕ) : S3Fifo K :=
  { p with
    smallBudget := (s3SplitBudget budget).1
    mainBudget := (s3SplitBudget budget).2
    ghostBudget := (s3SplitBudget budget).2
    ghost := ghostTrim (s3SplitBudget budget).2 p.ghost }

def onInsert [BEq K] (p : S3Fifo K) (e : Ref K) : S3Fifo K :=
  if p.ghost.any (· == e.key) then
    { p with
      ghost := ghostForget e.key p.ghost
      main := p.main ++ [⟨e, 1⟩]
      recentInsert := some e.id }
  else { p with small := p.small ++ [⟨e, 0⟩], recentInsert := some e.id }

/-- Count a hit on a node, saturating. -/
def bump (n : S3Node K) : S3Node K :=
  if n.freq < s3FreqMax then { n with freq := n.freq + 1 } else n

/-- Count a hit on the node of identity `id`, wherever it is in the queue. -/
def bumpIn (id : ℕ) (queue : List (S3Node K)) : List (S3Node K) :=
  queue.map fun n ↦ if nodeId n = id then bump n else n

def onAccess (p : S3Fifo K) (id : ℕ) : S3Fifo K :=
  { p with small := bumpIn id p.small, main := bumpIn id p.main }

def onRemove (p : S3Fifo K) (id : ℕ) : S3Fifo K :=
  { p with
    small := NodeList.unlink nodeId id p.small
    main := NodeList.unlink nodeId id p.main
    recentInsert := if p.recentInsert = some id then none else p.recentInsert }

def recordGhost [BEq K] (p : S3Fifo K) (key : K) : S3Fifo K :=
  { p with ghost := ghostRecord p.ghostBudget key p.ghost }

/-- Whether a node is the last insert. -/
def isRecent (p : S3Fifo K) (n : S3Node K) : Bool :=
  p.recentInsert = some (nodeId n)

def firstSmallNotRecent (p : S3Fifo K) : Option (S3Node K) :=
  p.small.find? fun n ↦ !p.isRecent n

def firstMainNotRecent (p : S3Fifo K) : Option (S3Node K) :=
  p.main.find? fun n ↦ !p.isRecent n

/-- Evict a node of `Small` and remember its key. -/
def evictSmall [BEq K] (p : S3Fifo K) (n : S3Node K) : Option (Ref K) × S3Fifo K :=
  (some n.entry, recordGhost { p with small := NodeList.unlink nodeId (nodeId n) p.small }
    n.entry.key)

/-- Evict a node of `Main`. -/
def evictMain (p : S3Fifo K) (n : S3Node K) : Option (Ref K) × S3Fifo K :=
  (some n.entry, { p with main := NodeList.unlink nodeId (nodeId n) p.main })

/-- The oldest node that is not the last insert, `Small` before `Main`. -/
def evictNotRecent [BEq K] (p : S3Fifo K) : Option (Ref K) × S3Fifo K :=
  match p.firstSmallNotRecent with
  | some n => p.evictSmall n
  | none =>
    match p.firstMainNotRecent with
    | some n => p.evictMain n
    | none => (none, p)

/-- The choice made when the rotation bound runs out. -/
def fallback [BEq K] (p : S3Fifo K) : Option (Ref K) × S3Fifo K :=
  match (if p.mainBudget < p.main.length then p.firstMainNotRecent else none) with
  | some n => p.evictMain n
  | none => p.evictNotRecent

/-- The rotation of `Victim`, for at most `passes` passes. -/
def rotate [BEq K] : ℕ → S3Fifo K → Option (Ref K) × S3Fifo K
  | 0, p => p.fallback
  | passes + 1, p =>
    match (if p.smallBudget < p.small.length then p.small else []) with
    | n :: rest =>
      if p.isRecent n then rotate passes { p with small := rest ++ [n] }
      else if 1 ≤ n.freq then
        rotate passes { p with small := rest, main := p.main ++ [{ n with freq := 0 }] }
      else (some n.entry, recordGhost { p with small := rest } n.entry.key)
    | [] =>
      match (if p.mainBudget < p.main.length then p.main else []) with
      | n :: rest =>
        if p.isRecent n then rotate passes { p with main := rest ++ [n] }
        else if 1 ≤ n.freq then
          rotate passes { p with main := rest ++ [{ n with freq := n.freq - 1 }] }
        else (some n.entry, { p with main := rest })
      | [] => (none, p)

def victim [BEq K] (p : S3Fifo K) : Option (Ref K) × S3Fifo K :=
  p.rotate ((p.small.length + p.main.length + 1) * (s3FreqMax + 1) + 1)

/-- The last insert itself, for a caller that does not keep it. -/
def evictRecent [BEq K] (p : S3Fifo K) : Option (Ref K) × S3Fifo K :=
  match p.main.find? p.isRecent with
  | some n => p.evictMain n
  | none =>
    match p.small.find? p.isRecent with
    | some n => p.evictSmall n
    | none => (none, p)

def shed [BEq K] (p : S3Fifo K) (keepRecent : Bool) : Option (Ref K) × S3Fifo K :=
  match p.evictNotRecent with
  | (some r, p) => (some r, p)
  | (none, p) => if keepRecent then (none, p) else p.evictRecent

def reset (p : S3Fifo K) : S3Fifo K :=
  { p with small := [], main := [], ghost := [], recentInsert := none }

def promotionNeeded (p : S3Fifo K) (id : ℕ) : Bool :=
  match NodeList.lookup nodeId id (p.small ++ p.main) with
  | none => true
  | some n => n.freq < s3FreqMax

theorem distinct_nodes {p : S3Fifo K} (hp : NodeList.Distinct Ref.id p.tracked) :
    NodeList.Distinct nodeId (p.small ++ p.main) := by
  rw [NodeList.Distinct, tracked, List.map_append, List.map_map, List.map_map] at hp
  rw [NodeList.Distinct, List.map_append]
  exact hp

/-- A hit on a node whose count is at its greatest changes nothing. -/
theorem onAccess_eq_self {p : S3Fifo K} (hp : NodeList.Distinct Ref.id p.tracked) {id : ℕ}
    (h : p.promotionNeeded id = false) : p.onAccess id = p := by
  have hbump : ∀ n ∈ p.small ++ p.main, (if nodeId n = id then bump n else n) = n := by
    unfold promotionNeeded at h
    split at h
    · cases h
    · next m hm =>
      intro n hn
      split_ifs with hid
      · obtain rfl := (distinct_nodes hp).eq_of_ident hn (NodeList.mem_of_lookup hm)
          (hid.trans (NodeList.ident_of_lookup hm).symm)
        exact if_neg (of_decide_eq_false h)
      · rfl
  have hmap {l : List (S3Node K)} (hl : ∀ n ∈ l, n ∈ p.small ++ p.main) : bumpIn id l = l :=
    (List.map_congr_left fun n hn ↦ hbump n (hl n hn)).trans (List.map_id l)
  unfold onAccess
  rw [hmap fun n ↦ List.mem_append_left _, hmap fun n ↦ List.mem_append_right _]

/-! ### What clearing leaves -/

section Reset

variable [BEq K]

theorem reset_onInsert (p : S3Fifo K) (e : Ref K) : (p.onInsert e).reset = p.reset := by
  unfold onInsert
  split <;> rfl

theorem reset_evictNotRecent (p : S3Fifo K) : p.evictNotRecent.2.reset = p.reset := by
  unfold evictNotRecent
  split
  · rfl
  · split <;> rfl

theorem reset_rotate (passes : ℕ) (p : S3Fifo K) : (p.rotate passes).2.reset = p.reset := by
  induction passes generalizing p with
  | zero =>
    show p.fallback.2.reset = p.reset
    unfold fallback
    split
    · rfl
    · exact p.reset_evictNotRecent
  | succ passes ih =>
    unfold rotate
    split
    · split_ifs
      · exact ih _
      · exact ih _
      · rfl
    · split
      · split_ifs
        · exact ih _
        · exact ih _
        · rfl
      · rfl

theorem reset_victim (p : S3Fifo K) : p.victim.2.reset = p.reset :=
  p.reset_rotate _

theorem reset_shed (p : S3Fifo K) (keepRecent : Bool) : (p.shed keepRecent).2.reset = p.reset := by
  have h := p.reset_evictNotRecent
  have hr (q : S3Fifo K) : q.evictRecent.2.reset = q.reset := by
    unfold evictRecent
    split
    · rfl
    · split <;> rfl
  unfold shed
  split
  · next hq => rwa [hq] at h
  · next hq =>
    rw [hq] at h
    split_ifs
    · exact h
    · exact (hr _).trans h

end Reset

/-! ### What it tracks -/

variable {p : S3Fifo K}

theorem tracked_onInsert [BEq K] (p : S3Fifo K) (e : Ref K) :
    (p.onInsert e).tracked.Perm (e :: p.tracked) := by
  unfold onInsert
  split
  · simpa [tracked] using List.perm_append_singleton e p.tracked
  · simp [tracked]

@[simp] theorem entry_bump (n : S3Node K) : (bump n).entry = n.entry := by
  unfold bump
  split <;> rfl

@[simp] theorem map_entry_bumpIn (id : ℕ) (queue : List (S3Node K)) :
    (bumpIn id queue).map S3Node.entry = queue.map S3Node.entry := by
  simp only [bumpIn, List.map_map]
  refine List.map_congr_left fun n _ ↦ ?_
  simp only [Function.comp_apply]
  split <;> simp

@[simp] theorem tracked_onAccess (p : S3Fifo K) (id : ℕ) :
    (p.onAccess id).tracked = p.tracked := by
  simp [tracked, onAccess]

theorem tracked_onRemove (p : S3Fifo K) (id : ℕ) :
    (p.onRemove id).tracked = NodeList.unlink Ref.id id p.tracked := by
  have h (q : List (S3Node K)) : (NodeList.unlink nodeId id q).map S3Node.entry
      = NodeList.unlink Ref.id id (q.map S3Node.entry) := NodeList.map_unlink fun _ ↦ rfl
  simp [tracked, onRemove, h]

/-- Identities are distinct across both queues. -/
theorem distinct_queues (hp : NodeList.Distinct Ref.id p.tracked) :
    NodeList.Distinct nodeId p.small ∧ NodeList.Distinct nodeId p.main :=
  ⟨(distinct_nodes hp).of_append_left, (distinct_nodes hp).of_append_right⟩

section Victim

variable [BEq K] (hp : NodeList.Distinct Ref.id p.tracked)

section Picks

include hp

theorem picks_evictSmall {n : S3Node K} (hn : n ∈ p.small) :
    Picks p.tracked (p.evictSmall n).2.tracked (p.evictSmall n).1 := by
  have := ((distinct_queues hp).1.perm_cons_unlink hn).map S3Node.entry
  exact .of_perm_cons (this.append_right _)

omit [BEq K] in
theorem picks_evictMain {n : S3Node K} (hn : n ∈ p.main) :
    Picks p.tracked (p.evictMain n).2.tracked (p.evictMain n).1 := by
  have := ((distinct_queues hp).2.perm_cons_unlink hn).map S3Node.entry
  exact .of_perm_cons ((this.append_left _).trans List.perm_middle)

theorem picks_evictNotRecent : Picks p.tracked p.evictNotRecent.2.tracked p.evictNotRecent.1 := by
  unfold evictNotRecent
  split
  · next n hn => exact picks_evictSmall hp (List.mem_of_find?_eq_some hn)
  · split
    · next n hn => exact picks_evictMain hp (List.mem_of_find?_eq_some hn)
    · exact .refl _

theorem picks_fallback : Picks p.tracked p.fallback.2.tracked p.fallback.1 := by
  unfold fallback
  split
  · next n hn =>
    split_ifs at hn
    exact picks_evictMain hp (List.mem_of_find?_eq_some hn)
  · exact picks_evictNotRecent hp

/-- A rotation pass either evicts the head of a queue or moves it, so the tracked entries are
permuted until one is taken out. -/
theorem picks_rotate (passes : ℕ) :
    Picks p.tracked (p.rotate passes).2.tracked (p.rotate passes).1 := by
  induction passes generalizing p with
  | zero => exact picks_fallback hp
  | succ passes ih =>
    -- a pass that keeps the entries, up to their order, is covered by the induction
    have step (q : S3Fifo K) (hq : q.tracked.Perm p.tracked) :
        Picks p.tracked (q.rotate passes).2.tracked (q.rotate passes).1 :=
      .of_perm hq (ih (hp.perm hq.symm))
    unfold rotate
    split
    · next n rest h =>
      have hs : p.small = n :: rest := by
        split_ifs at h
        exact h
      split_ifs
      · exact step _ (by simp [tracked, hs])
      · refine step _ ?_
        simpa [tracked, hs] using List.perm_append_singleton n.entry
          (rest.map S3Node.entry ++ p.main.map S3Node.entry)
      · exact .of_perm_cons (by simp [tracked, recordGhost, hs])
    · split
      · next n rest h =>
        have hm : p.main = n :: rest := by
          split_ifs at h
          exact h
        have hmove : (p.small.map S3Node.entry ++ (rest.map S3Node.entry ++ [n.entry])).Perm
            (p.small.map S3Node.entry ++ n.entry :: rest.map S3Node.entry) :=
          (List.perm_append_singleton ..).append_left _
        split_ifs
        · exact step _ (by simpa [tracked, hm] using hmove)
        · exact step _ (by simpa [tracked, hm] using hmove)
        · exact .of_perm_cons (by simp [tracked, hm])
      · exact .refl _

theorem picks_victim : Picks p.tracked p.victim.2.tracked p.victim.1 :=
  picks_rotate hp _

theorem picks_evictRecent : Picks p.tracked p.evictRecent.2.tracked p.evictRecent.1 := by
  unfold evictRecent
  split
  · next n hn => exact picks_evictMain hp (List.mem_of_find?_eq_some hn)
  · split
    · next n hn => exact picks_evictSmall hp (List.mem_of_find?_eq_some hn)
    · exact .refl _

end Picks

theorem evictNotRecent_none (h : p.evictNotRecent.1 = none) :
    p.evictNotRecent.2 = p ∧ ∀ n ∈ p.small ++ p.main, p.isRecent n := by
  unfold evictNotRecent at h ⊢
  split at h
  · simp [evictSmall] at h
  · next hs =>
    split at h
    · simp [evictMain] at h
    · next hm =>
      simp only [firstSmallNotRecent, firstMainNotRecent, List.find?_eq_none,
        Bool.not_eq_true', Bool.not_eq_false] at hs hm
      exact ⟨rfl, fun n hn ↦ (List.mem_append.1 hn).elim (hs n) (hm n)⟩

theorem shed_eq (p : S3Fifo K) (keepRecent : Bool) : p.shed keepRecent =
    if p.evictNotRecent.1 = none then
      if keepRecent then (none, p) else p.evictRecent
    else p.evictNotRecent := by
  unfold shed
  have h := @evictNotRecent_none K p _
  rcases hr : p.evictNotRecent with ⟨_ | r, q⟩
  · simp only [hr, true_implies] at h
    simp [h.1]
  · simp

include hp in
theorem picks_shed (keepRecent : Bool) :
    Picks p.tracked (p.shed keepRecent).2.tracked (p.shed keepRecent).1 := by
  rw [shed_eq]
  split_ifs
  · exact .refl _
  · exact picks_evictRecent hp
  · exact picks_evictNotRecent hp

theorem shed_ne_none (h : p.tracked ≠ []) : (p.shed false).1 ≠ none := by
  rw [shed_eq]
  split_ifs with hn hf
  · cases hf
  · -- every node is the last insert, and there is one
    have hall := (evictNotRecent_none hn).2
    unfold evictRecent
    split
    · simp [evictMain]
    · next hm =>
      split
      · simp [evictSmall]
      · next hs =>
        simp only [List.find?_eq_none] at hm hs
        refine absurd ?_ h
        have hnil : p.small ++ p.main = [] := by
          refine List.eq_nil_iff_forall_not_mem.2 fun n hn ↦ ?_
          exact (List.mem_append.1 hn).elim (fun h ↦ hs n h (hall n hn))
            fun h ↦ hm n h (hall n hn)
        simpa [tracked] using hnil
  · exact hn

end Victim

end S3Fifo

end Memcache
