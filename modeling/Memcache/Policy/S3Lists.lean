import Memcache.Policy.ArcLists
import Memcache.Policy.S3Rotation

/-!
# The three queues of `S3-FIFO`

A key is resident in `Small` or `Main`, or remembered in `Ghost`, and **never both**
(`S3Fifo.Sound.apart`): an insert of a remembered key takes it out of `Ghost`, and an eviction puts in
`Ghost` only a key that has just left the queues. `Ghost` stays within its budget, and the last insert
is forgotten when it leaves.
-/

namespace Memcache

namespace S3Fifo

variable {K : Type*} {p q : S3Fifo K}

/-- What every operation keeps. -/
structure Sound [BEq K] (p : S3Fifo K) : Prop where
  distinct : NodeList.Distinct Ref.id p.tracked
  apart : Apart (p.tracked.map Ref.key ++ p.ghost)
  within : p.ghost.length ≤ p.ghostBudget
  recent : ∀ id, p.recentInsert = some id → ∃ r ∈ p.tracked, r.id = id

theorem sound_new [BEq K] (budget : ℕ) : (S3Fifo.new budget : S3Fifo K).Sound :=
  ⟨List.nodup_nil, .nil, Nat.zero_le _, nofun⟩

/-- What the operations that hand out an entry do to the rest of the state. -/
structure Leaves (p : S3Fifo K) (a : Option (Ref K) × S3Fifo K) : Prop where
  recent : a.2.recentInsert = p.recentInsert
  budget : a.2.ghostBudget = p.ghostBudget
  kept : a.1 = none → a.2.ghost = p.ghost
  ghost : ∀ r, a.1 = some r → a.2.ghost.Sublist (p.ghost ++ [r.key])
  within : p.ghost.length ≤ p.ghostBudget → a.2.ghost.length ≤ p.ghostBudget

theorem leaves_self (p : S3Fifo K) : p.Leaves (none, p) :=
  ⟨rfl, rfl, fun _ ↦ rfl, nofun, id⟩

/-- What is left of a state that differs in the two queues only. -/
theorem Leaves.of_queues {a : Option (Ref K) × S3Fifo K} (h : q.Leaves a)
    (hr : q.recentInsert = p.recentInsert) (hb : q.ghostBudget = p.ghostBudget)
    (hg : q.ghost = p.ghost) : p.Leaves a :=
  ⟨h.recent.trans hr, h.budget.trans hb, fun hn ↦ (h.kept hn).trans hg,
    fun r hv ↦ hg ▸ h.ghost r hv, fun hw ↦ hb ▸ h.within (by rwa [hg, hb])⟩

theorem leaves_main (p : S3Fifo K) (r : Ref K) (main : List (S3Node K)) :
    p.Leaves (some r, { p with main := main }) :=
  ⟨rfl, rfl, nofun, fun _ _ ↦ List.sublist_append_left .., id⟩

variable [BEq K]

theorem leaves_small (p : S3Fifo K) (r : Ref K) (small : List (S3Node K)) :
    p.Leaves (some r, recordGhost { p with small := small } r.key) := by
  have hsub : (ghostRecord p.ghostBudget r.key p.ghost).Sublist (p.ghost ++ [r.key]) := by
    unfold ghostRecord
    split_ifs
    · exact List.sublist_append_left ..
    · exact List.drop_sublist ..
  refine ⟨rfl, rfl, nofun, fun r' hr ↦ Option.some_inj.1 hr ▸ hsub, fun hw ↦ ?_⟩
  show (ghostRecord p.ghostBudget r.key p.ghost).length ≤ p.ghostBudget
  unfold ghostRecord ghostTrim
  split_ifs
  · exact hw
  · rw [List.length_drop]
    omega

theorem leaves_evictNotRecent (p : S3Fifo K) : p.Leaves p.evictNotRecent := by
  unfold evictNotRecent
  split
  · exact p.leaves_small _ _
  · split
    · exact p.leaves_main _ _
    · exact p.leaves_self

theorem leaves_rotate (passes : ℕ) (p : S3Fifo K) : p.Leaves (p.rotate passes) := by
  induction passes generalizing p with
  | zero =>
    show p.Leaves p.fallback
    unfold fallback
    split
    · exact p.leaves_main _ _
    · exact p.leaves_evictNotRecent
  | succ passes ih =>
    rw [rotate_succ]
    have hp := p.passes_pass
    generalize p.pass = a at hp
    -- a pass that goes on only moves a node between the queues
    rcases hp with ⟨n, rest, -, -, -⟩ | ⟨n, rest, -, -, -, -⟩ | ⟨n, rest, -, -, -, -⟩ |
      ⟨n, rest, -, -, -⟩ | ⟨n, rest, -, -, -, -⟩ | ⟨n, rest, -, -, -, -⟩ | _
    · exact (ih _).of_queues rfl rfl rfl
    · exact (ih _).of_queues rfl rfl rfl
    · exact p.leaves_small n.entry rest
    · exact (ih _).of_queues rfl rfl rfl
    · exact (ih _).of_queues rfl rfl rfl
    · exact p.leaves_main n.entry rest
    · exact p.leaves_self

theorem leaves_shed (p : S3Fifo K) (keepRecent : Bool) : p.Leaves (p.shed keepRecent) := by
  rw [shed_eq]
  split_ifs
  · exact p.leaves_self
  · unfold evictRecent
    split
    · exact p.leaves_main _ _
    · split
      · exact p.leaves_small _ _
      · exact p.leaves_self
  · exact p.leaves_evictNotRecent

/-! ### Every operation keeps it -/

omit [BEq K] in
theorem recent_of_onRemove {id x : ℕ} (hr : ∀ x, p.recentInsert = some x → ∃ r ∈ p.tracked, r.id = x)
    (hx : (p.onRemove id).recentInsert = some x) : ∃ r ∈ p.tracked, r.id = x ∧ x ≠ id := by
  have hx : (if p.recentInsert = some id then none else p.recentInsert) = some x := hx
  split_ifs at hx with hid
  obtain ⟨r, hm, rfl⟩ := hr x hx
  exact ⟨r, hm, rfl, fun he ↦ hid (he ▸ hx)⟩

namespace Sound

theorem setBudget (h : p.Sound) (budget : ℕ) : (p.setBudget budget).Sound where
  distinct := h.distinct
  apart := h.apart.sublist ((List.drop_sublist ..).append_left _)
  within := by
    show (ghostTrim (s3SplitBudget budget).2 p.ghost).length ≤ (s3SplitBudget budget).2
    rw [ghostTrim, List.length_drop]
    omega
  recent := h.recent

theorem reset (p : S3Fifo K) : p.reset.Sound :=
  ⟨List.nodup_nil, .nil, Nat.zero_le _, nofun⟩

theorem onAccess (h : p.Sound) (id : ℕ) : (p.onAccess id).Sound where
  distinct := by rw [tracked_onAccess]; exact h.distinct
  apart := by rw [tracked_onAccess]; exact h.apart
  within := h.within
  recent := by rw [tracked_onAccess]; exact h.recent

theorem onRemove (h : p.Sound) (id : ℕ) : (p.onRemove id).Sound where
  distinct := by
    rw [tracked_onRemove]
    exact h.distinct.unlink
  apart := by
    rw [tracked_onRemove]
    exact h.apart.sublist ((NodeList.unlink_sublist.map _).append_right _)
  within := h.within
  recent := by
    intro x hx
    obtain ⟨r, hr, hid, hne⟩ := recent_of_onRemove h.recent hx
    rw [tracked_onRemove]
    exact ⟨r, NodeList.mem_unlink.2 ⟨hr, hid ▸ hne⟩, hid⟩

variable [PartialEquivBEq K]

/-- **An insert takes its key out of `Ghost`.** -/
theorem onInsert (h : p.Sound) {e : Ref K} (hid : ∀ r ∈ p.tracked, r.id ≠ e.id)
    (hkey : ∀ r ∈ p.tracked, (r.key == e.key) = false) : (p.onInsert e).Sound := by
  have hperm := p.tracked_onInsert e
  have hkeys : ∀ ghost : List K, ((p.onInsert e).tracked.map Ref.key ++ ghost).Perm
      (e.key :: (p.tracked.map Ref.key ++ ghost)) := fun ghost ↦ (hperm.map _).append_right _
  have hrecent : (p.onInsert e).recentInsert = some e.id := by
    unfold S3Fifo.onInsert
    split_ifs <;> rfl
  have hghost : (p.onInsert e).ghost = if p.ghost.any (· == e.key) then ghostForget e.key p.ghost
      else p.ghost := by
    unfold S3Fifo.onInsert
    split_ifs <;> rfl
  have hbudget : (p.onInsert e).ghostBudget = p.ghostBudget := by
    unfold S3Fifo.onInsert
    split_ifs <;> rfl
  refine ⟨(h.distinct.cons hid).perm hperm.symm, ?_, ?_, fun x hx ↦ ?_⟩
  · refine Apart.perm ?_ (hkeys _).symm
    rw [hghost]
    split_ifs with hany
    · obtain ⟨x, hx, hb⟩ := exists_perm_ghostForget hany
      exact ((h.apart.perm ((hb.append_left _).trans List.perm_middle)).replace hx)
    · refine h.apart.cons fun x hx ↦ ?_
      rcases List.mem_append.1 hx with hx | hx
      · obtain ⟨r, hr, rfl⟩ := List.mem_map.1 hx
        exact hkey r hr
      · simpa using fun hk ↦ hany (List.any_eq_true.2 ⟨x, hx, hk⟩)
  · rw [hghost, hbudget]
    split_ifs
    · exact (List.eraseP_sublist.length_le).trans h.within
    · exact h.within
  · rw [hrecent] at hx
    exact ⟨e, hperm.mem_iff.2 List.mem_cons_self, Option.some_inj.1 hx⟩

/-- **An eviction moves a key from the queues to `Ghost`**, or drops it. -/
theorem release {r : Ref K} (h : p.Sound) (hl : p.Leaves (some r, q))
    (hp : Picks p.tracked q.tracked (some r)) : (q.onRemove r.id).Sound := by
  have hperm : (q.onRemove r.id).tracked.Perm (NodeList.unlink Ref.id r.id p.tracked) := by
    rw [tracked_onRemove]
    exact hp.2.2
  have hkeys : (p.tracked.map Ref.key ++ p.ghost).Perm
      ((q.onRemove r.id).tracked.map Ref.key ++ (p.ghost ++ [r.key])) := by
    have hr := ((h.distinct.perm_cons_unlink hp.1).trans (hperm.symm.cons r)).map Ref.key
    refine (hr.append_right p.ghost).trans ?_
    rw [← List.append_assoc]
    exact (List.perm_append_singleton r.key _).symm
  refine ⟨h.distinct.unlink.perm hperm.symm, ?_, ?_, fun x hx ↦ ?_⟩
  · exact (h.apart.perm hkeys).sublist ((hl.ghost r rfl).append_left _)
  · show q.ghost.length ≤ q.ghostBudget
    rw [hl.budget]
    exact hl.within h.within
  · have hx : (if q.recentInsert = some r.id then none else q.recentInsert) = some x := hx
    rw [show q.recentInsert = p.recentInsert from hl.recent] at hx
    obtain ⟨r', hr', hid, hne⟩ := recent_of_onRemove (p := p) h.recent hx
    exact ⟨r', hperm.mem_iff.2 (NodeList.mem_unlink.2 ⟨hr', hid ▸ hne⟩), hid⟩

/-- Nothing handed out: the entries may have changed places. -/
theorem declined (h : p.Sound) (hl : p.Leaves (none, q)) (hp : Picks p.tracked q.tracked none) :
    q.Sound where
  distinct := h.distinct.perm (List.Perm.symm hp)
  apart := by
    rw [show q.ghost = p.ghost from hl.kept rfl]
    exact h.apart.perm (((List.Perm.symm hp).map _).append_right _)
  within := by
    rw [show q.ghostBudget = p.ghostBudget from hl.budget]
    exact hl.within h.within
  recent := by
    rw [show q.recentInsert = p.recentInsert from hl.recent]
    intro x hx
    obtain ⟨r, hr, hid⟩ := h.recent x hx
    exact ⟨r, (List.Perm.mem_iff hp).2 hr, hid⟩

end Sound

end S3Fifo

end Memcache
