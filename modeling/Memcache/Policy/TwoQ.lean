import Memcache.Policy.Recency

/-!
# The `2Q` policy

New entries go to the `FIFO` queue `A1in`; a key evicted from there is remembered in the ghost queue
`A1out`, and an insert of a remembered key goes straight to the `LRU` queue `Am`. `Victim` respects
the two queues' budgets first and, when neither is exceeded, takes **the oldest entry of `A1in`, else
the least recently used of `Am`**: it always has an answer while an entry is tracked.
-/

namespace Memcache

/-- The `2Q` policy: `a1in` oldest first, `am` most recently used first, `a1out` oldest first. -/
structure TwoQ (K : Type*) where
  a1in : List (Ref K)
  inBudget : ℕ
  am : List (Ref K)
  amBudget : ℕ
  a1out : List K
  outBudget : ℕ
deriving DecidableEq, Repr

/-- The budgets of `A1in`, `Am` and `A1out` for a shard budget. -/
def twoQSplitBudget (budget : ℕ) : ℕ × ℕ × ℕ :=
  if budget = 0 then (0, 0, 0)
  else (max ((budget + 3) / 4) 1, max (budget - max ((budget + 3) / 4) 1) 1,
    max ((budget + 1) / 2) 1)

namespace TwoQ

variable {K : Type*}

def new (budget : ℕ) : TwoQ K where
  a1in := []
  inBudget := (twoQSplitBudget budget).1
  am := []
  amBudget := (twoQSplitBudget budget).2.1
  a1out := []
  outBudget := (twoQSplitBudget budget).2.2

def tracked (p : TwoQ K) : List (Ref K) :=
  p.a1in ++ p.am

def setBudget (p : TwoQ K) (budget : ℕ) : TwoQ K :=
  { p with
    inBudget := (twoQSplitBudget budget).1
    amBudget := (twoQSplitBudget budget).2.1
    outBudget := (twoQSplitBudget budget).2.2
    a1out := ghostTrim (twoQSplitBudget budget).2.2 p.a1out }

def onInsert [BEq K] (p : TwoQ K) (e : Ref K) : TwoQ K :=
  if p.a1out.any (· == e.key) then
    { p with a1out := ghostForget e.key p.a1out, am := e :: p.am }
  else { p with a1in := p.a1in ++ [e] }

/-- A hit moves an `Am` entry to the front; a hit in `A1in` changes nothing. -/
def onAccess (p : TwoQ K) (id : ℕ) : TwoQ K :=
  match NodeList.lookup Ref.id id p.am with
  | none => p
  | some n => { p with am := n :: NodeList.unlink Ref.id id p.am }

def onRemove (p : TwoQ K) (id : ℕ) : TwoQ K :=
  { p with a1in := NodeList.unlink Ref.id id p.a1in, am := NodeList.unlink Ref.id id p.am }

/-- Evict the oldest entry of `A1in` and remember its key. -/
def evictIn [BEq K] (p : TwoQ K) : Option (Ref K) × TwoQ K :=
  match p.a1in with
  | [] => (none, p)
  | n :: rest => (some n, { p with
      a1in := rest, a1out := ghostRecord p.outBudget n.key p.a1out })

/-- Evict the least recently used entry of `Am`. -/
def evictAm (p : TwoQ K) : Option (Ref K) × TwoQ K :=
  match p.am.getLast? with
  | none => (none, p)
  | some n => (some n, { p with am := p.am.dropLast })

def victim [BEq K] (p : TwoQ K) : Option (Ref K) × TwoQ K :=
  if p.inBudget < p.a1in.length then p.evictIn
  else if p.amBudget < p.am.length then p.evictAm
  else if p.a1in ≠ [] then p.evictIn
  else p.evictAm

def reset (p : TwoQ K) : TwoQ K :=
  { p with a1in := [], am := [], a1out := [] }

def promotionNeeded (p : TwoQ K) (id : ℕ) : Bool :=
  (NodeList.lookup Ref.id id p.am).isSome && (p.am.head?.map Ref.id != some id)

/-- A hit in `A1in`, or at the head of `Am`, changes nothing. -/
theorem onAccess_eq_self {p : TwoQ K} (hp : NodeList.Distinct Ref.id p.tracked) {id : ℕ}
    (h : p.promotionNeeded id = false) : p.onAccess id = p := by
  unfold onAccess
  split
  · rfl
  · next n hn =>
    rw [promotionNeeded, hn, Option.isSome_some, Bool.true_and, bne_eq_false_iff_eq,
      Option.map_eq_some_iff] at h
    obtain ⟨a, ha, rfl⟩ := h
    obtain ⟨rest, hrest⟩ := List.head?_eq_some_iff.1 ha
    have hd : NodeList.Distinct Ref.id (a :: rest) := hrest ▸ hp.of_append_right
    rw [hrest, NodeList.lookup_cons, if_pos rfl] at hn
    cases hn
    rw [hrest, NodeList.unlink_cons_self, NodeList.unlink_of_notMem, ← hrest]
    intro b hb hid
    exact (List.nodup_cons.1 hd).1 (hid ▸ List.mem_map_of_mem hb)

/-! ### What clearing leaves -/

theorem reset_onInsert [BEq K] (p : TwoQ K) (e : Ref K) : (p.onInsert e).reset = p.reset := by
  unfold onInsert
  split <;> rfl

theorem reset_onAccess (p : TwoQ K) (id : ℕ) : (p.onAccess id).reset = p.reset := by
  unfold onAccess
  split <;> rfl

theorem reset_victim [BEq K] (p : TwoQ K) : p.victim.2.reset = p.reset := by
  have hin : p.evictIn.2.reset = p.reset := by
    unfold evictIn
    split <;> rfl
  have ham : p.evictAm.2.reset = p.reset := by
    unfold evictAm
    split <;> rfl
  unfold victim
  split_ifs
  exacts [hin, ham, hin, ham]

/-! ### Budgets -/

/-- The queues' budgets are the shares of a shard budget. -/
def Fitted (budget : ℕ) (p : TwoQ K) : Prop :=
  p.inBudget = (twoQSplitBudget budget).1 ∧ p.amBudget = (twoQSplitBudget budget).2.1

theorem Fitted.victim [BEq K] {budget : ℕ} {p : TwoQ K} (hp : p.Fitted budget) :
    p.victim.2.Fitted budget := by
  have hin : p.evictIn.2.Fitted budget := by
    unfold evictIn
    split <;> exact hp
  have ham : p.evictAm.2.Fitted budget := by
    unfold evictAm
    split <;> exact hp
  unfold TwoQ.victim
  split_ifs
  exacts [hin, ham, hin, ham]

/-! ### What it tracks -/

variable {p : TwoQ K}

theorem tracked_onInsert [BEq K] (p : TwoQ K) (e : Ref K) :
    (p.onInsert e).tracked.Perm (e :: p.tracked) := by
  unfold onInsert
  split
  · exact List.perm_middle
  · simp [tracked]

theorem tracked_onAccess (p : TwoQ K) (id : ℕ) (hp : NodeList.Distinct Ref.id p.tracked) :
    (p.onAccess id).tracked.Perm p.tracked := by
  unfold onAccess
  split
  · exact .refl _
  · next n hn =>
    obtain rfl := NodeList.ident_of_lookup hn
    have := hp.of_append_right.perm_cons_unlink (NodeList.mem_of_lookup hn)
    exact this.symm.append_left p.a1in

theorem tracked_onRemove (p : TwoQ K) (id : ℕ) :
    (p.onRemove id).tracked = NodeList.unlink Ref.id id p.tracked := by
  simp [tracked, onRemove]

theorem picks_evictIn [BEq K] (p : TwoQ K) : Picks p.tracked p.evictIn.2.tracked p.evictIn.1 := by
  unfold evictIn
  split
  · exact .refl _
  · next n rest h => exact .of_perm_cons (by simp [tracked, h])

theorem picks_evictAm (p : TwoQ K) : Picks p.tracked p.evictAm.2.tracked p.evictAm.1 := by
  unfold evictAm
  split
  · exact .refl _
  · next n h =>
    have hs : p.am = p.am.dropLast ++ [n] := (List.dropLast_append_getLast? n h).symm
    refine .of_perm_cons ?_
    simp only [tracked]
    conv_lhs => rw [hs]
    rw [← List.append_assoc]
    exact List.perm_append_singleton ..

theorem picks_victim [BEq K] (p : TwoQ K) : Picks p.tracked p.victim.2.tracked p.victim.1 := by
  unfold victim
  split_ifs
  · exact p.picks_evictIn
  · exact p.picks_evictAm
  · exact p.picks_evictIn
  · exact p.picks_evictAm

theorem evictIn_ne_none [BEq K] (h : p.a1in ≠ []) : p.evictIn.1 ≠ none := by
  obtain ⟨n, l, hl⟩ := List.exists_cons_of_ne_nil h
  simp [evictIn, hl]

theorem evictAm_ne_none (h : p.am ≠ []) : p.evictAm.1 ≠ none := by
  simp [evictAm, List.getLast?_eq_some_getLast h]

theorem victim_ne_none [BEq K] (h : p.tracked ≠ []) : p.victim.1 ≠ none := by
  unfold victim
  split_ifs with h₁ h₂ h₃
  · exact evictIn_ne_none (by rintro h; simp [h] at h₁)
  · exact evictAm_ne_none (by rintro h; simp [h] at h₂)
  · exact evictIn_ne_none h₃
  · refine evictAm_ne_none fun ham ↦ h ?_
    simp [tracked, ham, not_not.1 h₃]

end TwoQ

end Memcache
