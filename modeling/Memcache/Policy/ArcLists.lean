import Memcache.Policy.Histories

/-!
# The four lists of `ARC`

A key travels through four lists: resident in `T1` or `T2`, remembered in `B1` or `B2`. What makes
the either-or test of an insert correct is that the lists are **disjoint**: no key is in two of them
or twice in one (`Arc.Sound.apart`). Every operation keeps that, as long as no key is inserted that
the policy tracks already; an eviction only moves a key from a resident list to its ghost list.

Beside it the target `p` stays within the capacity and the last insert is forgotten when it leaves.
-/

namespace Memcache

variable {K : Type*}

/-- No tracked entry has the key of an entry to be inserted. -/
def PolicyOp.Single [BEq K] (p : Policy K) : PolicyOp K → Prop
  | .insert e => ∀ r ∈ p.tracked, (r.key == e.key) = false
  | _ => True

/-- The keys are pairwise different. -/
def Apart [BEq K] (l : List K) : Prop :=
  l.Pairwise fun a b ↦ (a == b) = false

namespace Apart

variable [BEq K] {l l₁ l₂ : List K} {key : K}

theorem sublist (h : Apart l₂) (hs : l₁.Sublist l₂) : Apart l₁ :=
  List.Pairwise.sublist hs h

variable [PartialEquivBEq K]

theorem perm (h : Apart l₁) (hp : l₁.Perm l₂) : Apart l₂ :=
  (hp.pairwise_iff fun hab ↦ BEq.symm_false hab).1 h

theorem cons (h : Apart l) (hkey : ∀ x ∈ l, (x == key) = false) : Apart (key :: l) :=
  List.pairwise_cons.2 ⟨fun x hx ↦ BEq.symm_false (hkey x hx), h⟩

/-- A key may take the place of an equal one. -/
theorem replace {x : K} (h : Apart (x :: l)) (hx : x == key) : Apart (key :: l) := by
  obtain ⟨hxl, hl⟩ := List.pairwise_cons.1 h
  refine List.pairwise_cons.2 ⟨fun y hy ↦ ?_, hl⟩
  rcases Bool.eq_false_or_eq_true (key == y) with hk | hk
  · have hne := hxl y hy
    rw [PartialEquivBEq.trans hx hk] at hne
    cases hne
  · exact hk

end Apart

/-- Forgetting a key takes one equal to it out of the ghosts. -/
theorem exists_perm_ghostForget [BEq K] {l : List K} {key : K} (h : l.any (· == key) = true) :
    ∃ x, x == key ∧ l.Perm (x :: ghostForget key l) := by
  obtain ⟨y, hy, hyk⟩ := List.any_eq_true.1 h
  obtain ⟨x, l₁, l₂, -, hx, hl, he⟩ := List.exists_of_eraseP (p := (· == key)) hy hyk
  refine ⟨x, hx, ?_⟩
  rw [ghostForget, he, hl]
  exact List.perm_middle

namespace Arc

variable {a : Arc K}

/-- The keys of the four lists. -/
def keys (a : Arc K) : List K :=
  a.t1.map Ref.key ++ (a.t2.map Ref.key ++ (a.b1 ++ a.b2))

/-- What every operation keeps. -/
structure Sound [BEq K] (a : Arc K) : Prop where
  distinct : NodeList.Distinct Ref.id a.tracked
  apart : Apart a.keys
  target : a.p ≤ a.c
  recent : ∀ id, a.recent = some id → ∃ r ∈ a.tracked, r.id = id

theorem sound_new [BEq K] (budget : ℕ) : (Arc.new budget : Arc K).Sound :=
  ⟨List.nodup_nil, .nil, Nat.zero_le _, nofun⟩

variable [BEq K]

/-- Trimming ghosts keeps the lists disjoint. -/
theorem apart_of_sublist {b1 b2 : List K} (h : Apart a.keys) (h₁ : b1.Sublist a.b1)
    (h₂ : b2.Sublist a.b2) :
    Apart (a.t1.map Ref.key ++ (a.t2.map Ref.key ++ (b1 ++ b2))) :=
  h.sublist ((((h₁.append h₂).append_left _)).append_left _)

theorem Sound.setBudget (h : a.Sound) (budget : ℕ) : (a.setBudget budget).Sound :=
  ⟨h.distinct, apart_of_sublist (a := a) h.apart (List.take_sublist ..) (List.take_sublist ..),
    Nat.min_le_right .., h.recent⟩

theorem Sound.onRemove (h : a.Sound) (id : ℕ) : (a.onRemove id).Sound where
  distinct := by
    rw [tracked_onRemove]
    exact h.distinct.unlink
  apart := by
    refine h.apart.sublist ?_
    exact (NodeList.unlink_sublist.map _).append ((NodeList.unlink_sublist.map _).append (.refl _))
  target := h.target
  recent := by
    intro x hx
    rw [tracked_onRemove]
    have hx : (if a.recent = some id then none else a.recent) = some x := hx
    split_ifs at hx with hr
    obtain ⟨r, hr', rfl⟩ := h.recent x hx
    exact ⟨r, NodeList.mem_unlink.2 ⟨hr', fun hid ↦ hr (hid ▸ hx)⟩, rfl⟩

variable [PartialEquivBEq K]

theorem Sound.onAccess (h : a.Sound) (id : ℕ) : (a.onAccess id).Sound := by
  have hperm := a.tracked_onAccess id h.distinct
  have hkeys : (a.onAccess id).keys.Perm a.keys := by
    have hb : ((a.onAccess id).tracked.map Ref.key ++ (a.b1 ++ a.b2)).Perm
        (a.tracked.map Ref.key ++ (a.b1 ++ a.b2)) := (hperm.map _).append_right _
    have hsame : (a.onAccess id).b1 = a.b1 ∧ (a.onAccess id).b2 = a.b2 := by
      unfold Arc.onAccess
      split
      · exact ⟨rfl, rfl⟩
      · split <;> exact ⟨rfl, rfl⟩
    simpa [keys, tracked, hsame] using hb
  have hsame : (a.onAccess id).p = a.p ∧ (a.onAccess id).c = a.c ∧
      (a.onAccess id).recent = a.recent := by
    unfold Arc.onAccess
    split
    · exact ⟨rfl, rfl, rfl⟩
    · split <;> exact ⟨rfl, rfl, rfl⟩
  refine ⟨h.distinct.perm hperm.symm, h.apart.perm hkeys.symm, ?_, fun x hx ↦ ?_⟩
  · rw [hsame.1, hsame.2.1]
    exact h.target
  · obtain ⟨r, hr, hid⟩ := h.recent x (hsame.2.2 ▸ hx)
    exact ⟨r, hperm.mem_iff.2 hr, hid⟩

/-- **An insert puts the key in one list only**: a ghost of it is forgotten. -/
theorem Sound.onInsert (h : a.Sound) {e : Ref K} (hid : ∀ r ∈ a.tracked, r.id ≠ e.id)
    (hkey : ∀ r ∈ a.tracked, (r.key == e.key) = false) : (a.onInsert e).Sound := by
  have hperm := a.tracked_onInsert e
  have hrecent (x : ℕ) (hx : some e.id = some x) : ∃ r ∈ (a.onInsert e).tracked, r.id = x :=
    ⟨e, hperm.mem_iff.2 List.mem_cons_self, Option.some_inj.1 hx⟩
  have hdistinct := (h.distinct.cons hid).perm hperm.symm
  unfold Arc.onInsert at hrecent hdistinct ⊢
  split_ifs at hrecent hdistinct ⊢ with h₁ h₂
  · refine ⟨hdistinct, ?_, Nat.min_le_right .., hrecent⟩
    obtain ⟨x, hx, hb⟩ := exists_perm_ghostForget h₁
    have hx' : Apart (x :: (a.t1.map Ref.key ++
        (a.t2.map Ref.key ++ (ghostForget e.key a.b1 ++ a.b2)))) := by
      refine h.apart.perm ?_
      refine (((hb.append_right a.b2).append_left (a.t2.map Ref.key)).append_left
        (a.t1.map Ref.key)).trans ?_
      exact (List.perm_middle.append_left _).trans List.perm_middle
    exact (hx'.replace hx).perm List.perm_middle.symm
  · refine ⟨hdistinct, ?_, (Nat.sub_le ..).trans h.target, hrecent⟩
    obtain ⟨x, hx, hb⟩ := exists_perm_ghostForget h₂
    have hx' : Apart (x :: (a.t1.map Ref.key ++
        (a.t2.map Ref.key ++ (a.b1 ++ ghostForget e.key a.b2)))) := by
      refine h.apart.perm ?_
      refine (((hb.append_left a.b1).append_left (a.t2.map Ref.key)).append_left
        (a.t1.map Ref.key)).trans ?_
      refine ((List.perm_middle.append_left _).append_left _).trans ?_
      exact (List.perm_middle.append_left _).trans List.perm_middle
    exact (hx'.replace hx).perm List.perm_middle.symm
  · refine ⟨hdistinct, ?_, h.target, hrecent⟩
    refine h.apart.cons fun x hx ↦ ?_
    simp only [keys, List.mem_append, List.mem_map] at hx
    rcases hx with ⟨r, hr, rfl⟩ | ⟨r, hr, rfl⟩ | hx | hx
    · exact hkey r (List.mem_append_left _ hr)
    · exact hkey r (List.mem_append_right _ hr)
    · simpa using fun hk ↦ h₁ (List.any_eq_true.2 ⟨x, hx, hk⟩)
    · simpa using fun hk ↦ h₂ (List.any_eq_true.2 ⟨x, hx, hk⟩)

/-- **An eviction moves a key from a resident list to its ghost list**, or drops it. -/
theorem apart_victim (h : Apart a.keys) : Apart a.victim.2.keys := by
  have h₁ : Apart a.evictT1.2.keys := by
    unfold evictT1
    split
    · exact h
    · next n hn =>
      have hs : a.t1 = a.t1.dropLast ++ [n] := (List.dropLast_append_getLast? n hn).symm
      have hmove : a.keys.Perm (a.t1.dropLast.map Ref.key ++
          (a.t2.map Ref.key ++ ((n.key :: a.b1) ++ a.b2))) := by
        rw [keys, hs, List.map_append, List.append_assoc, List.dropLast_concat]
        refine List.Perm.append_left _ ?_
        exact (List.perm_middle : (a.t2.map Ref.key ++ n.key :: (a.b1 ++ a.b2)).Perm _).symm
      have hb := h.perm hmove
      show Apart (recordB1 { a with t1 := a.t1.dropLast } n.key).keys
      unfold recordB1
      split_ifs
      · exact hb.sublist ((((List.sublist_cons_self ..).append_right _).append_left _).append_left _)
      · exact hb.sublist ((((List.take_sublist ..).append_right _).append_left _).append_left _)
  have h₂ : Apart a.evictT2.2.keys := by
    unfold evictT2
    split
    · exact h
    · next n hn =>
      have hs : a.t2 = a.t2.dropLast ++ [n] := (List.dropLast_append_getLast? n hn).symm
      have hmove : a.keys.Perm (a.t1.map Ref.key ++
          (a.t2.dropLast.map Ref.key ++ (a.b1 ++ (n.key :: a.b2)))) := by
        refine List.Perm.append_left _ ?_
        conv_lhs => rw [hs, List.map_append, List.append_assoc]
        refine List.Perm.append_left _ ?_
        exact (List.perm_middle : (a.b1 ++ n.key :: a.b2).Perm _).symm
      have hb := h.perm hmove
      show Apart (recordB2 { a with t2 := a.t2.dropLast } n.key).keys
      unfold recordB2
      split_ifs
      · exact hb.sublist ((((List.sublist_cons_self ..).append_left _).append_left _).append_left _)
      · exact hb.sublist ((((List.take_sublist ..).append_left _).append_left _).append_left _)
  unfold victim
  split_ifs
  exacts [h₁, h₂, h₁]

omit [PartialEquivBEq K] in
theorem same_victim (a : Arc K) :
    a.victim.2.p = a.p ∧ a.victim.2.c = a.c ∧ a.victim.2.recent = a.recent := by
  have h₁ : a.evictT1.2.p = a.p ∧ a.evictT1.2.c = a.c ∧ a.evictT1.2.recent = a.recent := by
    unfold evictT1
    split
    · exact ⟨rfl, rfl, rfl⟩
    · unfold recordB1
      dsimp only
      split_ifs <;> exact ⟨rfl, rfl, rfl⟩
  have h₂ : a.evictT2.2.p = a.p ∧ a.evictT2.2.c = a.c ∧ a.evictT2.2.recent = a.recent := by
    unfold evictT2
    split
    · exact ⟨rfl, rfl, rfl⟩
    · unfold recordB2
      dsimp only
      split_ifs <;> exact ⟨rfl, rfl, rfl⟩
  unfold victim
  split_ifs
  exacts [h₁, h₂, h₁]

/-- Evict: the entry handed out is removed. -/
def replace (a : Arc K) : Arc K :=
  a.victim.1.elim a.victim.2 fun r ↦ a.victim.2.onRemove r.id

theorem Sound.replace (h : a.Sound) : a.replace.Sound := by
  have hpicks := a.picks_victim
  have hdistinct := hpicks.distinct h.distinct
  have hapart := apart_victim h.apart
  obtain ⟨hp, hc, hrecent⟩ := a.same_victim
  unfold Arc.replace
  rcases hv : a.victim.1 with _ | r
  · rw [hv] at hpicks
    refine ⟨hdistinct, hapart, ?_, fun x hx ↦ ?_⟩
    · show a.victim.2.p ≤ a.victim.2.c
      rw [hp, hc]
      exact h.target
    · obtain ⟨r, hr, hid⟩ := h.recent x (hrecent ▸ hx)
      exact ⟨r, (List.Perm.mem_iff hpicks).2 hr, hid⟩
  · rw [hv] at hpicks
    have hperm := hpicks.2.2
    show (a.victim.2.onRemove r.id).Sound
    have hx : (a.victim.2.onRemove r.id).tracked.Perm (NodeList.unlink Ref.id r.id a.tracked) := by
      rw [tracked_onRemove]
      exact hperm
    refine ⟨h.distinct.unlink.perm hx.symm, ?_, ?_, fun x hxr ↦ ?_⟩
    · refine hapart.sublist ?_
      exact (NodeList.unlink_sublist.map _).append
        ((NodeList.unlink_sublist.map _).append (.refl _))
    · show a.victim.2.p ≤ a.victim.2.c
      rw [hp, hc]
      exact h.target
    · have hxr : (if a.victim.2.recent = some r.id then none else a.victim.2.recent) = some x := hxr
      rw [hrecent] at hxr
      split_ifs at hxr with hr
      obtain ⟨r', hr', rfl⟩ := h.recent x hxr
      exact ⟨r', hx.mem_iff.2 (NodeList.mem_unlink.2 ⟨hr', fun hid ↦ hr (hid ▸ hxr)⟩), rfl⟩

end Arc

end Memcache
