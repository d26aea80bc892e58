import Memcache.Policy.ArcLists
import Mathlib.Data.List.Induction

/-!
# The bounds `ARC` documents

`|T1| + |T2| ≤ c`, `|T1| + |B1| ≤ c` and `|T2| + |B2| ≤ 2c` are the bounds of the algorithm's paper
form, which trims a ghost list whenever its pair of lists may grow. The code trims a ghost list only
when it records a key in it, while the resident list beside it also grows by inserts and hits. So
the first bound always holds, and the other two hold **exactly as long as each step that makes a
resident list longer finds room**, or makes room because the victim comes from the same pair of lists
(`Arc.Room`, `Arc.bounded_iff_room`).
-/

namespace Memcache

open NodeList (unlink_of_notMem ident_of_lookup unlink_sublist mem_of_lookup unlink)

variable {K : Type*}

/-- What a shard does with an `ARC` policy; inserts and changes of the budget are followed by
evictions. -/
inductive ArcUse (K : Type*) where
  | insert (e : Ref K)
  | access (id : ℕ)
  | delete (id : ℕ)
  | resize (budget : ℕ)
deriving DecidableEq, Repr

namespace Arc

variable {a : Arc K}

/-- `Len`. -/
def len (a : Arc K) : ℕ := a.t1.length + a.t2.length

/-- The documented bounds. -/
structure Bounded (a : Arc K) : Prop where
  resident : a.t1.length + a.t2.length ≤ a.c
  recency : a.t1.length + a.b1.length ≤ a.c
  frequency : a.t2.length + a.b2.length ≤ 2 * a.c

instance (a : Arc K) : Decidable a.Bounded :=
  decidable_of_iff (a.t1.length + a.t2.length ≤ a.c ∧ a.t1.length + a.b1.length ≤ a.c ∧
    a.t2.length + a.b2.length ≤ 2 * a.c) ⟨fun h ↦ ⟨h.1, h.2.1, h.2.2⟩, fun h ↦ ⟨h.1, h.2, h.3⟩⟩

variable [BEq K]

/-- Evict while more than `c` entries are tracked, `fuel` of them at most. -/
def shrink : ℕ → Arc K → Arc K
  | 0, a => a
  | fuel + 1, a => if a.c < a.len then shrink fuel a.replace else a

/-- One use of the policy. -/
def use (a : Arc K) : ArcUse K → Arc K
  | .insert e => (a.onInsert e).shrink (a.onInsert e).len
  | .access id => a.onAccess id
  | .delete id => a.onRemove id
  | .resize budget => (a.setBudget budget).shrink (a.setBudget budget).len

/-- The entry inserted is new, and so is its key. -/
def Legal (a : Arc K) : ArcUse K → Prop
  | .insert e => ∀ r ∈ a.tracked, r.id ≠ e.id ∧ (r.key == e.key) = false
  | _ => True

/-- A step that makes a resident list longer finds room for it beside the ghost list, or the
eviction it causes takes an entry of the same pair of lists and trims the ghosts. -/
def Room (a : Arc K) : ArcUse K → Prop
  | .insert e =>
    if a.b1.any (· == e.key) then
      -- the entry goes to `T2`
      a.t2.length + 1 + a.b2.length ≤ 2 * a.c ∨
        a.len = a.c ∧ (a.t1 = [] ∨
          a.t2 ≠ [] ∧ a.t1.length ≤ min (a.p + adaptation a.b1 a.b2) a.c)
    else if a.b2.any (· == e.key) then True
    else
      -- the entry goes to `T1`
      a.t1.length + 1 + a.b1.length ≤ a.c ∨
        a.len = a.c ∧ (a.t2 = [] ∨ a.t1 ≠ [] ∧ a.p < a.t1.length + 1)
  | .access id => (∃ r ∈ a.t1, r.id = id) → a.t2.length + 1 + a.b2.length ≤ 2 * a.c
  | _ => True

/-! ### One eviction -/

theorem unlink_victim_tracked (h : NodeList.Distinct Ref.id a.tracked) {r : Ref K}
    (hv : a.victim.1 = some r) : ∀ x ∈ a.victim.2.tracked, x.id ≠ r.id := by
  -- every branch of the choice unlinks the entry it hands out
  have hperm : a.tracked.Perm (r :: a.victim.2.tracked) := by
    have h₁ {r : Ref K} (hv : a.evictT1.1 = some r) : a.tracked.Perm (r :: a.evictT1.2.tracked) := by
      unfold evictT1 at hv ⊢
      split at hv
      · cases hv
      · next n hn =>
        obtain rfl : n = r := Option.some_inj.1 hv
        have hs : a.t1 = a.t1.dropLast ++ [n] := (List.dropLast_append_getLast? n hn).symm
        show a.tracked.Perm (n :: (recordB1 { a with t1 := a.t1.dropLast } n.key).tracked)
        rw [tracked_recordB1]
        show (a.t1 ++ a.t2).Perm (n :: (a.t1.dropLast ++ a.t2))
        conv_lhs => rw [hs, List.append_assoc]
        exact List.perm_middle
    have h₂ {r : Ref K} (hv : a.evictT2.1 = some r) : a.tracked.Perm (r :: a.evictT2.2.tracked) := by
      unfold evictT2 at hv ⊢
      split at hv
      · cases hv
      · next n hn =>
        obtain rfl : n = r := Option.some_inj.1 hv
        have hs : a.t2 = a.t2.dropLast ++ [n] := (List.dropLast_append_getLast? n hn).symm
        show a.tracked.Perm (n :: (recordB2 { a with t2 := a.t2.dropLast } n.key).tracked)
        rw [tracked_recordB2]
        show (a.t1 ++ a.t2).Perm (n :: (a.t1 ++ a.t2.dropLast))
        conv_lhs => rw [hs, ← List.append_assoc]
        exact List.perm_append_singleton ..
    unfold victim at hv ⊢
    split_ifs at hv ⊢
    exacts [h₁ hv, h₂ hv, h₁ hv]
  have hd : NodeList.Distinct Ref.id (r :: a.victim.2.tracked) := h.perm hperm
  intro x hx hid
  exact (List.nodup_cons.1 hd).1 (hid ▸ List.mem_map_of_mem hx)

/-- The lists after an eviction are those the choice left. -/
theorem lists_replace (h : NodeList.Distinct Ref.id a.tracked) :
    a.replace.t1 = a.victim.2.t1 ∧ a.replace.t2 = a.victim.2.t2 ∧ a.replace.b1 = a.victim.2.b1 ∧
      a.replace.b2 = a.victim.2.b2 ∧ a.replace.c = a.c := by
  have hc := a.same_victim.2.1
  unfold replace
  rcases hv : a.victim.1 with _ | r
  · exact ⟨rfl, rfl, rfl, rfl, hc⟩
  · have hne := unlink_victim_tracked h hv
    exact ⟨unlink_of_notMem fun x hx ↦ hne x (List.mem_append_left _ hx),
      unlink_of_notMem fun x hx ↦ hne x (List.mem_append_right _ hx), rfl, rfl, hc⟩

/-- Whether the victim comes from `T1`. -/
def Gives1 (a : Arc K) : Prop := (a.useT1 = true ∧ a.t1 ≠ []) ∨ a.t2 = []

variable [PartialEquivBEq K]

/-- No resident key is remembered, so an evicted key is recorded. -/
theorem any_b1_eq_false (h : Apart a.keys) {n : Ref K} (hn : n ∈ a.t1) :
    a.b1.any (· == n.key) = false := by
  refine List.any_eq_false.2 fun x hx hk ↦ ?_
  have hne : (n.key == x) = false :=
    (List.pairwise_append.1 h).2.2 n.key (List.mem_map_of_mem hn) x (by simp [hx])
  rw [BEq.symm hk] at hne
  cases hne

theorem any_b2_eq_false (h : Apart a.keys) {n : Ref K} (hn : n ∈ a.t2) :
    a.b2.any (· == n.key) = false := by
  refine List.any_eq_false.2 fun x hx hk ↦ ?_
  have hne : (n.key == x) = false :=
    (List.pairwise_append.1 (List.pairwise_append.1 h).2.1).2.2 n.key (List.mem_map_of_mem hn) x
      (by simp [hx])
  rw [BEq.symm hk] at hne
  cases hne

/-- **An eviction from `T1`** leaves `B1` no longer than the rest of `T1` allows. -/
theorem replace_of_gives1 (h : a.Sound) (hg : a.Gives1) (ht : a.t1 ≠ []) :
    a.replace.t1.length + 1 = a.t1.length ∧ a.replace.t2 = a.t2 ∧ a.replace.b2 = a.b2 ∧
      a.replace.b1.length = min (a.b1.length + 1) (a.c - a.replace.t1.length) := by
  obtain ⟨h₁, h₂, h₃, h₄, -⟩ := lists_replace h.distinct
  rw [h₁, h₂, h₃, h₄]
  have hv : a.victim = a.evictT1 := by
    unfold victim
    rcases hg with hg | hg
    · rw [if_pos hg]
    · split_ifs with hu h₂
      · rfl
      · exact absurd hg h₂
      · rfl
  have hlen : 0 < a.t1.length := List.length_pos_iff.2 ht
  rw [hv, evictT1, List.getLast?_eq_some_getLast ht]
  dsimp only
  have hrec : a.b1.any (· == (a.t1.getLast ht).key) = false :=
    any_b1_eq_false h.apart (List.getLast_mem ht)
  rw [recordB1, if_neg (by simpa using hrec)]
  refine ⟨?_, rfl, rfl, ?_⟩
  · show a.t1.dropLast.length + 1 = a.t1.length
    rw [List.length_dropLast]
    omega
  · show (List.take _ (_ :: a.b1)).length = min (a.b1.length + 1) (a.c - a.t1.dropLast.length)
    rw [List.length_take, List.length_cons, Nat.min_comm]

/-- **An eviction from `T2`** leaves `B2` no longer than the rest of `T2` allows. -/
theorem replace_of_not_gives1 (h : a.Sound) (hg : ¬ a.Gives1) :
    a.replace.t2.length + 1 = a.t2.length ∧ a.replace.t1 = a.t1 ∧ a.replace.b1 = a.b1 ∧
      a.replace.b2.length = min (a.b2.length + 1) (2 * a.c - a.replace.t2.length) := by
  obtain ⟨h₁, h₂, h₃, h₄, -⟩ := lists_replace h.distinct
  rw [h₁, h₂, h₃, h₄]
  obtain ⟨hu, ht⟩ := not_or.1 hg
  have hv : a.victim = a.evictT2 := by
    unfold victim
    rw [if_neg hu, if_pos ht]
  have hlen : 0 < a.t2.length := List.length_pos_iff.2 ht
  rw [hv, evictT2, List.getLast?_eq_some_getLast ht]
  dsimp only
  have hrec : a.b2.any (· == (a.t2.getLast ht).key) = false :=
    any_b2_eq_false h.apart (List.getLast_mem ht)
  rw [recordB2, if_neg (by simpa using hrec)]
  refine ⟨?_, rfl, rfl, ?_⟩
  · show a.t2.dropLast.length + 1 = a.t2.length
    rw [List.length_dropLast]
    omega
  · show (List.take _ (_ :: a.b2)).length = min (a.b2.length + 1) (2 * a.c - a.t2.dropLast.length)
    rw [List.length_take, List.length_cons, Nat.min_comm]

omit [BEq K] [PartialEquivBEq K] in
theorem Gives1.t1_ne_nil (hg : a.Gives1) (hlen : 0 < a.len) : a.t1 ≠ [] := by
  rcases hg with hg | hg
  · exact hg.2
  · intro hnil
    simp [len, hnil, hg] at hlen

/-- An eviction takes one entry. -/
theorem len_replace (h : a.Sound) (hlen : 0 < a.len) : a.replace.len + 1 = a.len := by
  by_cases hg : a.Gives1
  · obtain ⟨h₁, h₂, -, -⟩ := replace_of_gives1 h hg (hg.t1_ne_nil hlen)
    rw [len, len, h₂]
    omega
  · obtain ⟨h₁, h₂, -, -⟩ := replace_of_not_gives1 h hg
    rw [len, len, h₂]
    omega

/-! ### Evicting down to the capacity -/

theorem c_shrink (h : a.Sound) (fuel : ℕ) : (a.shrink fuel).c = a.c := by
  induction fuel generalizing a with
  | zero => rfl
  | succ fuel ih =>
    unfold shrink
    split_ifs
    · rw [ih h.replace, (lists_replace h.distinct).2.2.2.2]
    · rfl

theorem Sound.shrink (h : a.Sound) (fuel : ℕ) : (a.shrink fuel).Sound := by
  induction fuel generalizing a with
  | zero => exact h
  | succ fuel ih =>
    unfold Arc.shrink
    split_ifs
    · exact ih h.replace
    · exact h

/-- **Evicting ends with at most `c` entries.** -/
theorem len_shrink_le (h : a.Sound) {fuel : ℕ} (hf : a.len ≤ fuel + a.c) :
    (a.shrink fuel).len ≤ a.c := by
  induction fuel generalizing a with
  | zero =>
    show a.len ≤ a.c
    omega
  | succ fuel ih =>
    unfold Arc.shrink
    split_ifs with hover
    · have hc : a.replace.c = a.c := (lists_replace h.distinct).2.2.2.2
      have hlen := len_replace h (by omega)
      rw [← hc]
      exact ih h.replace (by omega)
    · exact not_lt.1 hover

/-- Ghosts within what their resident list allows, even if that list alone is too long. -/
def Trimmed (a : Arc K) : Prop :=
  a.t1.length + a.b1.length ≤ max a.c a.t1.length ∧
    a.t2.length + a.b2.length ≤ max (2 * a.c) a.t2.length

omit [BEq K] [PartialEquivBEq K] in
theorem trimmed_setBudget (a : Arc K) (budget : ℕ) : (a.setBudget budget).Trimmed := by
  constructor
  · show a.t1.length + (a.b1.take (max budget 1 - a.t1.length)).length ≤ _
    rw [List.length_take]
    simp only [setBudget]
    omega
  · show a.t2.length + (a.b2.take (2 * max budget 1 - a.t2.length)).length ≤ _
    rw [List.length_take]
    simp only [setBudget]
    omega

theorem Trimmed.replace (ht : a.Trimmed) (h : a.Sound) (hlen : 0 < a.len) :
    a.replace.Trimmed := by
  have hc : a.replace.c = a.c := (lists_replace h.distinct).2.2.2.2
  unfold Trimmed at ht ⊢
  rw [hc]
  by_cases hg : a.Gives1
  · obtain ⟨-, h₂, h₃, h₄⟩ := replace_of_gives1 h hg (hg.t1_ne_nil hlen)
    rw [h₂, h₃, h₄]
    exact ⟨by omega, ht.2⟩
  · obtain ⟨-, h₂, h₃, h₄⟩ := replace_of_not_gives1 h hg
    rw [h₂, h₃, h₄]
    exact ⟨ht.1, by omega⟩

theorem Trimmed.shrink (ht : a.Trimmed) (h : a.Sound) (fuel : ℕ) : (a.shrink fuel).Trimmed := by
  induction fuel generalizing a with
  | zero => exact ht
  | succ fuel ih =>
    unfold Arc.shrink
    split_ifs with hover
    · exact ih (ht.replace h (by omega)) h.replace
    · exact ht

/-! ### Which list gives up an entry after an insert -/

variable {e : Ref K}

omit [BEq K] [PartialEquivBEq K] in
theorem lruIsRecent_cons {l : List (Ref K)} (hr : a.recent = some e.id)
    (hl : ∀ r ∈ l, r.id ≠ e.id) : a.lruIsRecent (e :: l) = decide (l = []) := by
  rcases l with _ | ⟨x, l⟩
  · simp [lruIsRecent, hr]
  · have hne : (e :: x :: l).getLast? = (x :: l).getLast? := List.getLast?_cons_of_ne_nil (by simp)
    obtain ⟨y, hy⟩ : ∃ y, (x :: l).getLast? = some y := ⟨_, List.getLast?_eq_some_getLast (by simp)⟩
    have hid := hl y (List.mem_of_getLast? hy)
    simp only [lruIsRecent, hne, hy, hr, Option.map_some]
    simp [hid]

omit [BEq K] [PartialEquivBEq K] in
theorem lruIsRecent_of_fresh {l : List (Ref K)} (hr : a.recent = some e.id)
    (hl : ∀ r ∈ l, r.id ≠ e.id) : a.lruIsRecent l = false := by
  rcases h : l.getLast? with _ | y
  · simp [lruIsRecent, h, hr]
  · have hid := hl y (List.mem_of_getLast? h)
    simp [lruIsRecent, h, hr, hid]

omit [BEq K] [PartialEquivBEq K] in
/-- After an insert into `T1`. -/
theorem gives1_insertT1 (hid : ∀ r ∈ a.tracked, r.id ≠ e.id) :
    Gives1 { a with recent := some e.id, t1 := e :: a.t1 } ↔
      a.t2 = [] ∨ a.t1 ≠ [] ∧ a.p < a.t1.length + 1 := by
  set b : Arc K := { a with recent := some e.id, t1 := e :: a.t1 } with hb
  have h₁ : b.lruIsRecent b.t1 = decide (a.t1 = []) :=
    lruIsRecent_cons rfl fun r hr ↦ hid r (List.mem_append_left _ hr)
  have h₂ : b.lruIsRecent b.t2 = false :=
    lruIsRecent_of_fresh rfl fun r hr ↦ hid r (List.mem_append_right _ hr)
  have hp : b.prefersT1 = decide (a.t2 = [] ∨ a.p < a.t1.length + 1) := by
    simp [prefersT1, hb, List.length_eq_zero_iff]
  unfold Gives1
  rw [useT1, h₁, h₂, hp]
  by_cases ht1 : a.t1 = [] <;> by_cases ht2 : a.t2 = [] <;> simp [hb, ht1, ht2]

omit [BEq K] [PartialEquivBEq K] in
/-- After an insert into `T2`. -/
theorem gives1_insertT2 (hid : ∀ r ∈ a.tracked, r.id ≠ e.id) (p : ℕ) (b1 b2 : List K) :
    Gives1 { a with recent := some e.id, p := p, b1 := b1, b2 := b2, t2 := e :: a.t2 } ↔
      a.t1 ≠ [] ∧ (a.t2 = [] ∨ p < a.t1.length) := by
  set b : Arc K := { a with recent := some e.id, p := p, b1 := b1, b2 := b2, t2 := e :: a.t2 } with hb
  have h₁ : b.lruIsRecent b.t1 = false :=
    lruIsRecent_of_fresh rfl fun r hr ↦ hid r (List.mem_append_left _ hr)
  have h₂ : b.lruIsRecent b.t2 = decide (a.t2 = []) :=
    lruIsRecent_cons rfl fun r hr ↦ hid r (List.mem_append_right _ hr)
  have hp : b.prefersT1 = decide (0 < a.t1.length ∧ p < a.t1.length) := by
    simp [prefersT1, hb]
  have hpos : 0 < a.t1.length ↔ a.t1 ≠ [] := List.length_pos_iff
  unfold Gives1
  rw [useT1, h₁, h₂, hp]
  by_cases ht1 : a.t1 = [] <;> by_cases ht2 : a.t2 = [] <;> by_cases hlt : p < a.t1.length <;>
    simp [hb, hpos, ht1, ht2, hlt]

/-! ### One use -/

omit [PartialEquivBEq K] in
theorem shrink_of_le (h : a.len ≤ a.c) (fuel : ℕ) : a.shrink fuel = a := by
  cases fuel with
  | zero => rfl
  | succ fuel => rw [Arc.shrink, if_neg (not_lt.2 h)]

omit [PartialEquivBEq K] in
theorem len_onInsert (a : Arc K) (e : Ref K) : (a.onInsert e).len = a.len + 1 := by
  have h := (a.tracked_onInsert e).length_eq
  simpa [tracked, len] using h

omit [PartialEquivBEq K] in
theorem c_onInsert (a : Arc K) (e : Ref K) : (a.onInsert e).c = a.c := by
  unfold onInsert
  split_ifs <;> rfl

/-- An insert into a policy within its capacity causes one eviction, when it is full. -/
theorem use_insert (hb : a.len ≤ a.c) (h : (a.onInsert e).Sound) :
    a.use (.insert e) = if a.len = a.c then (a.onInsert e).replace else a.onInsert e := by
  have hlen := a.len_onInsert e
  have hc := a.c_onInsert e
  show (a.onInsert e).shrink (a.onInsert e).len = _
  split_ifs with hfull
  · rw [hlen, Arc.shrink, if_pos (by omega)]
    have hr := len_replace h (by omega)
    have hrc : (a.onInsert e).replace.c = a.c := (lists_replace h.distinct).2.2.2.2.trans hc
    exact shrink_of_le (by omega) _
  · exact shrink_of_le (by omega) _

/-- The one eviction of a full policy trims the ghosts of the list it takes from; the other pair of
lists has to be within its bound before. -/
theorem bounded_replace_iff (h : a.Sound) (hlen : a.len = a.c + 1) :
    a.replace.Bounded ↔ (a.Gives1 ∨ a.t1.length + a.b1.length ≤ a.c) ∧
      (¬ a.Gives1 ∨ a.t2.length + a.b2.length ≤ 2 * a.c) := by
  have hc : a.replace.c = a.c := (lists_replace h.distinct).2.2.2.2
  have hlen' : a.t1.length + a.t2.length = a.c + 1 := hlen
  by_cases hg : a.Gives1
  · obtain ⟨h₁, h₂, h₃, h₄⟩ := replace_of_gives1 h hg (hg.t1_ne_nil (by omega))
    rw [and_iff_right (.inl hg), or_iff_right (not_not.2 hg), ← h₂, ← h₃, ← hc]
    rw [← h₂] at hlen'
    exact ⟨Bounded.frequency, fun hf ↦ ⟨by omega, by omega, hf⟩⟩
  · obtain ⟨h₁, h₂, h₃, h₄⟩ := replace_of_not_gives1 h hg
    rw [and_iff_left (.inl hg), or_iff_right hg, ← h₂, ← h₃, ← hc]
    rw [← h₂] at hlen'
    exact ⟨Bounded.recency, fun hf ↦ ⟨by omega, hf, by omega⟩⟩

/-- The bounds after an insert, from the lengths before it: the entry went to `T2`. -/
theorem bounded_insertT2_iff (hb : a.Bounded) {b1 b2 : List K} {p : ℕ}
    (hid : ∀ r ∈ a.tracked, r.id ≠ e.id) (h₁ : b1.length ≤ a.b1.length)
    (hs : Sound { a with recent := some e.id, p := p, b1 := b1, b2 := b2, t2 := e :: a.t2 }) :
    (if a.len = a.c then
      replace { a with recent := some e.id, p := p, b1 := b1, b2 := b2, t2 := e :: a.t2 }
    else { a with recent := some e.id, p := p, b1 := b1, b2 := b2, t2 := e :: a.t2 }).Bounded ↔
      a.t2.length + 1 + b2.length ≤ 2 * a.c ∨
        a.len = a.c ∧ (a.t1 = [] ∨ a.t2 ≠ [] ∧ a.t1.length ≤ p) := by
  have hlen : a.len = a.t1.length + a.t2.length := rfl
  have hres := hb.resident
  have hrec : a.t1.length + b1.length ≤ a.c := (Nat.add_le_add_left h₁ _).trans hb.recency
  split_ifs with hfull
  · have hgives : ¬ (a.t1 ≠ [] ∧ (a.t2 = [] ∨ p < a.t1.length)) ↔
        a.t1 = [] ∨ a.t2 ≠ [] ∧ a.t1.length ≤ p := by
      rw [not_and_or, not_or, not_lt, not_not]
    rw [bounded_replace_iff hs (congrArg (· + 1) hfull), and_iff_right (.inr hrec),
      gives1_insertT2 hid, hgives, and_iff_right hfull, or_comm]
    rfl
  · rw [or_iff_left fun h ↦ hfull h.1]
    refine ⟨Bounded.frequency, fun hf ↦ ⟨?_, hrec, hf⟩⟩
    show a.t1.length + (a.t2.length + 1) ≤ a.c
    omega

/-- The entry went to `T1`. -/
theorem bounded_insertT1_iff (hb : a.Bounded) (hid : ∀ r ∈ a.tracked, r.id ≠ e.id)
    (hs : Sound { a with recent := some e.id, t1 := e :: a.t1 }) :
    (if a.len = a.c then replace { a with recent := some e.id, t1 := e :: a.t1 }
    else { a with recent := some e.id, t1 := e :: a.t1 }).Bounded ↔
      a.t1.length + 1 + a.b1.length ≤ a.c ∨
        a.len = a.c ∧ (a.t2 = [] ∨ a.t1 ≠ [] ∧ a.p < a.t1.length + 1) := by
  have hlen : a.len = a.t1.length + a.t2.length := rfl
  have hres := hb.resident
  split_ifs with hfull
  · have hover : (a.t1.length + 1) + a.t2.length = a.c + 1 := by omega
    rw [bounded_replace_iff hs hover, and_iff_left (.inr hb.frequency), gives1_insertT1 hid,
      and_iff_right hfull, or_comm]
    rfl
  · rw [or_iff_left fun h ↦ hfull h.1]
    refine ⟨Bounded.recency, fun hf ↦ ⟨?_, hf, hb.frequency⟩⟩
    show a.t1.length + 1 + a.t2.length ≤ a.c
    omega

variable {u : ArcUse K}

/-- **A use keeps the bounds exactly when it finds room.** -/
theorem bounded_use_iff (h : a.Sound) (hb : a.Bounded) (hu : a.Legal u) :
    (a.use u).Bounded ↔ a.Room u := by
  cases u with
  | insert e =>
    have hid : ∀ r ∈ a.tracked, r.id ≠ e.id := fun r hr ↦ (hu r hr).1
    have hs := h.onInsert hid fun r hr ↦ (hu r hr).2
    rw [use_insert hb.resident hs]
    by_cases h₁ : a.b1.any (· == e.key) = true
    · rw [onInsert, if_pos h₁] at hs ⊢
      rw [Room, if_pos h₁]
      obtain ⟨x, -, hx⟩ := exists_perm_ghostForget h₁
      refine bounded_insertT2_iff hb hid ?_ hs
      rw [hx.length_eq, List.length_cons]
      exact Nat.le_succ _
    · by_cases h₂ : a.b2.any (· == e.key) = true
      · rw [onInsert, if_neg h₁, if_pos h₂] at hs ⊢
        rw [Room, if_neg h₁, if_pos h₂]
        obtain ⟨x, -, hx⟩ := exists_perm_ghostForget h₂
        have hlen := hx.length_eq
        rw [List.length_cons] at hlen
        refine iff_true_intro ((bounded_insertT2_iff hb hid le_rfl hs).2 (.inl ?_))
        have := hb.frequency
        omega
      · rw [onInsert, if_neg h₁, if_neg h₂] at hs ⊢
        rw [Room, if_neg h₁, if_neg h₂]
        exact bounded_insertT1_iff hb hid hs
  | access id =>
    obtain ⟨hres, hrec, hfreq⟩ := hb
    show (a.onAccess id).Bounded ↔ ((∃ r ∈ a.t1, r.id = id) → _)
    unfold Arc.onAccess
    split
    · next n hn =>
      have hmem := mem_of_lookup hn
      obtain rfl := ident_of_lookup hn
      have hlen := h.distinct.of_append_left.length_unlink hmem
      constructor
      · rintro ⟨-, -, hf⟩ -
        exact hf
      · intro hroom
        refine ⟨?_, ?_, hroom ⟨n, hmem, rfl⟩⟩
        · show (unlink Ref.id n.id a.t1).length + (a.t2.length + 1) ≤ a.c
          omega
        · show (unlink Ref.id n.id a.t1).length + a.b1.length ≤ a.c
          omega
    · next hn =>
      refine iff_of_true ?_ fun ⟨r, hr, hid⟩ ↦ absurd hid (NodeList.lookup_eq_none.1 hn r hr)
      split
      · next n hn' =>
        have hmem := mem_of_lookup hn'
        obtain rfl := ident_of_lookup hn'
        have hlen := h.distinct.of_append_right.length_unlink hmem
        refine ⟨?_, hrec, ?_⟩
        · show a.t1.length + ((unlink Ref.id n.id a.t2).length + 1) ≤ a.c
          omega
        · show (unlink Ref.id n.id a.t2).length + 1 + a.b2.length ≤ 2 * a.c
          omega
      · exact ⟨hres, hrec, hfreq⟩
  | delete id =>
    obtain ⟨hres, hrec, hfreq⟩ := hb
    have h₁ : (unlink Ref.id id a.t1).length ≤ a.t1.length :=
      unlink_sublist.length_le
    have h₂ : (unlink Ref.id id a.t2).length ≤ a.t2.length :=
      unlink_sublist.length_le
    refine iff_true_intro ⟨?_, ?_, ?_⟩
    · show (unlink Ref.id id a.t1).length + (unlink Ref.id id a.t2).length ≤ a.c
      omega
    · show (unlink Ref.id id a.t1).length + a.b1.length ≤ a.c
      omega
    · show (unlink Ref.id id a.t2).length + a.b2.length ≤ 2 * a.c
      omega
  | resize budget =>
    have hs := h.setBudget budget
    have hle := len_shrink_le hs (Nat.le_add_right (a.setBudget budget).len (a.setBudget budget).c)
    have htrim := (trimmed_setBudget a budget).shrink hs (a.setBudget budget).len
    rw [← c_shrink hs (a.setBudget budget).len] at hle
    show ((a.setBudget budget).shrink (a.setBudget budget).len).Bounded ↔ True
    generalize (a.setBudget budget).shrink (a.setBudget budget).len = b at hle htrim
    obtain ⟨h₁, h₂⟩ := htrim
    unfold len at hle
    exact iff_true_intro ⟨hle, by omega, by omega⟩

theorem Sound.use (h : a.Sound) (hu : a.Legal u) : (a.use u).Sound := by
  cases u with
  | insert e => exact (h.onInsert (fun r hr ↦ (hu r hr).1) fun r hr ↦ (hu r hr).2).shrink _
  | access id => exact h.onAccess id
  | delete id => exact h.onRemove id
  | resize budget => exact (h.setBudget budget).shrink _

/-- The first bound needs nothing. -/
theorem len_use_le (h : a.Sound) (hlen : a.len ≤ a.c) (hu : a.Legal u) :
    (a.use u).len ≤ (a.use u).c := by
  cases u with
  | insert e =>
    have hs := h.onInsert (fun r hr ↦ (hu r hr).1) fun r hr ↦ (hu r hr).2
    have hle := len_shrink_le hs (Nat.le_add_right (a.onInsert e).len (a.onInsert e).c)
    rwa [← c_shrink hs (a.onInsert e).len] at hle
  | access id =>
    have hperm := (a.tracked_onAccess id h.distinct).length_eq
    have hc : (a.onAccess id).c = a.c := by
      unfold Arc.onAccess
      split
      · rfl
      · split <;> rfl
    show (a.onAccess id).len ≤ (a.onAccess id).c
    rw [hc]
    simp only [tracked, List.length_append] at hperm
    unfold len at hlen ⊢
    omega
  | delete id =>
    have h₁ : (unlink Ref.id id a.t1).length ≤ a.t1.length :=
      unlink_sublist.length_le
    have h₂ : (unlink Ref.id id a.t2).length ≤ a.t2.length :=
      unlink_sublist.length_le
    show (unlink Ref.id id a.t1).length + (unlink Ref.id id a.t2).length ≤ a.c
    unfold len at hlen
    omega
  | resize budget =>
    have hs := h.setBudget budget
    have hle := len_shrink_le hs (Nat.le_add_right (a.setBudget budget).len (a.setBudget budget).c)
    rwa [← c_shrink hs (a.setBudget budget).len] at hle

/-! ### Whole runs -/

/-- The policy after a sequence of uses. -/
def uses (a : Arc K) (us : List (ArcUse K)) : Arc K := us.foldl use a

/-- Every use is legal where it happens. -/
def LegalAll (a : Arc K) (us : List (ArcUse K)) : Prop :=
  ∀ us₁ u us₂, us = us₁ ++ u :: us₂ → (a.uses us₁).Legal u

omit [PartialEquivBEq K] in
theorem legalAll_nil (a : Arc K) : a.LegalAll [] := by
  intro us₁ u us₂ h
  simp at h

omit [PartialEquivBEq K] in
theorem legalAll_cons {us : List (ArcUse K)} (hu : a.Legal u) (h : (a.use u).LegalAll us) :
    a.LegalAll (u :: us) := by
  rintro (_ | ⟨v, us₁⟩) w us₂ heq
  · obtain ⟨rfl, -⟩ := List.cons_eq_cons.1 heq
    exact hu
  · obtain ⟨rfl, hus⟩ := List.cons_eq_cons.1 heq
    exact h us₁ w us₂ hus

/-- **The documented bounds hold in every state of a run if and only if every step finds room**, and
`|T1| + |T2| ≤ c` holds in every state of every run. -/
theorem bounded_iff_room (budget : ℕ) {us : List (ArcUse K)}
    (hus : (Arc.new budget : Arc K).LegalAll us) :
    ((∀ us₁ us₂, us = us₁ ++ us₂ → ((Arc.new budget).uses us₁).Bounded) ↔
      ∀ us₁ u us₂, us = us₁ ++ u :: us₂ → ((Arc.new budget).uses us₁).Room u) ∧
    ∀ us₁ us₂, us = us₁ ++ us₂ → ((Arc.new budget).uses us₁).len ≤ ((Arc.new budget).uses us₁).c := by
  have hlegal {us₁ : List (ArcUse K)} {u : ArcUse K} {us₂ : List (ArcUse K)}
      (h : us = us₁ ++ u :: us₂) := hus us₁ u us₂ h
  -- along the run, by the length of the prefix
  have hsound (us₁ us₂ : List (ArcUse K)) (h : us = us₁ ++ us₂) :
      ((Arc.new budget).uses us₁).Sound := by
    induction us₁ using List.reverseRecOn generalizing us₂ with
    | nil => exact sound_new budget
    | append_singleton us₁ u ih =>
      have h' : us = us₁ ++ u :: us₂ := by simpa using h
      rw [uses, List.foldl_append]
      exact (ih _ h').use (hlegal h')
  refine ⟨⟨fun hall us₁ u us₂ h ↦ ?_, fun hroom us₁ us₂ h ↦ ?_⟩, fun us₁ us₂ h ↦ ?_⟩
  · refine (bounded_use_iff (hsound _ _ h) (hall _ _ h) (hlegal h)).1 ?_
    have := hall (us₁ ++ [u]) us₂ (by simpa using h)
    rwa [uses, List.foldl_append] at this
  · induction us₁ using List.reverseRecOn generalizing us₂ with
    | nil => exact ⟨Nat.zero_le _, Nat.zero_le _, Nat.zero_le _⟩
    | append_singleton us₁ u ih =>
      have h' : us = us₁ ++ u :: us₂ := by simpa using h
      rw [uses, List.foldl_append]
      exact (bounded_use_iff (hsound _ _ h') (ih _ h') (hlegal h')).2 (hroom _ _ _ h')
  · induction us₁ using List.reverseRecOn generalizing us₂ with
    | nil => exact Nat.zero_le _
    | append_singleton us₁ u ih =>
      have h' : us = us₁ ++ u :: us₂ := by simpa using h
      rw [uses, List.foldl_append]
      exact len_use_le (hsound _ _ h') (ih _ h') (hlegal h')

theorem Sound.uses (h : a.Sound) {us : List (ArcUse K)} (hus : a.LegalAll us) :
    (a.uses us).Sound := by
  induction us generalizing a with
  | nil => exact h
  | cons u us ih =>
    exact ih (h.use (hus [] u us rfl)) fun us₁ v us₂ he ↦ hus (u :: us₁) v us₂ (he ▸ rfl)

/-- **In every run no key is in two places of the four lists**, the target is within the capacity
and the entry last used is tracked. -/
theorem apart_uses (budget : ℕ) {us : List (ArcUse K)}
    (hus : (Arc.new budget : Arc K).LegalAll us) :
    let a := (Arc.new budget).uses us
    Apart a.keys ∧ a.p ≤ a.c ∧ ∀ id, a.recent = some id → ∃ r ∈ a.tracked, r.id = id :=
  have h := (sound_new budget).uses hus
  ⟨h.apart, h.target, h.recent⟩

end Arc

/-- Two keys in a policy of capacity two, one of them hit, and a third. -/
theorem Arc.bounded_iff_room_three :
    let us : List (ArcUse ℕ) := [.insert ⟨0, 0⟩, .insert ⟨1, 1⟩, .access 0, .insert ⟨2, 2⟩]
    ((∀ us₁ us₂, us = us₁ ++ us₂ → ((Arc.new 2).uses us₁).Bounded) ↔
      ∀ us₁ u us₂, us = us₁ ++ u :: us₂ → ((Arc.new 2).uses us₁).Room u) ∧
    ∀ us₁ us₂, us = us₁ ++ us₂ → ((Arc.new 2).uses us₁).len ≤ ((Arc.new 2).uses us₁).c :=
  Arc.bounded_iff_room 2 (legalAll_cons (by unfold Legal; decide) <|
    legalAll_cons (by unfold Legal; decide) <| legalAll_cons trivial <|
    legalAll_cons (by unfold Legal; decide) <| legalAll_nil _)

/-- Hits that fill `T2` beside a full `B2`, with capacity one. -/
def arcHits : List (ArcUse ℕ) :=
  [.insert ⟨0, 0⟩, .access 0, .insert ⟨1, 1⟩, .access 1, .insert ⟨2, 2⟩, .access 2]

/-- An insert into `T1` after a removal, beside a `B1` that was full, with capacity two. -/
def arcInserts : List (ArcUse ℕ) :=
  [.insert ⟨0, 0⟩, .insert ⟨1, 1⟩, .access 0, .insert ⟨2, 2⟩, .delete 0, .insert ⟨3, 3⟩]

theorem Arc.legalAll_arcHits : (Arc.new 1).LegalAll arcHits :=
  legalAll_cons (by unfold Legal; decide) <| legalAll_cons trivial <|
    legalAll_cons (by unfold Legal; decide) <| legalAll_cons trivial <|
    legalAll_cons (by unfold Legal; decide) <| legalAll_cons trivial <| legalAll_nil _

theorem Arc.legalAll_arcInserts : (Arc.new 2).LegalAll arcInserts :=
  legalAll_cons (by unfold Legal; decide) <| legalAll_cons (by unfold Legal; decide) <|
    legalAll_cons trivial <| legalAll_cons (by unfold Legal; decide) <| legalAll_cons trivial <|
    legalAll_cons (by unfold Legal; decide) <| legalAll_nil _

theorem Arc.apart_uses_arcInserts :
    let a := (Arc.new 2).uses arcInserts
    Apart a.keys ∧ a.p ≤ a.c ∧ ∀ id, a.recent = some id → ∃ r ∈ a.tracked, r.id = id :=
  Arc.apart_uses 2 legalAll_arcInserts

/-- `|T2| + |B2| = 3` with `c = 1`, and `|T1| + |B1| = 3` with `c = 2`. -/
theorem Arc.not_bounded_arcHits :
    ((Arc.new 1).LegalAll arcHits ∧ ((Arc.new 1).uses arcHits).c = 1 ∧
      ((Arc.new 1).uses arcHits).t2.length + ((Arc.new 1).uses arcHits).b2.length = 3) ∧
    ((Arc.new 2).LegalAll arcInserts ∧ ((Arc.new 2).uses arcInserts).c = 2 ∧
      ((Arc.new 2).uses arcInserts).t1.length + ((Arc.new 2).uses arcInserts).b1.length = 3) :=
  ⟨⟨legalAll_arcHits, by decide, by decide⟩, ⟨legalAll_arcInserts, by decide, by decide⟩⟩

end Memcache
