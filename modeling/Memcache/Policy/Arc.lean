import Memcache.Policy.Recency

/-!
# The `ARC` policy

Two `LRU` lists of entries, `T1` (seen once) and `T2` (seen again), two ghost lists `B1` and `B2` of
the keys evicted from them, and a target size `p` for `T1` that ghost hits adapt. The cache inserts
before it evicts, where `ARC` replaces before it inserts, so `Victim` **passes over the entry just
inserted** while the other list can give one up; `recent` is that entry.
-/

namespace Memcache

/-- The `ARC` policy. All four lists have their most recent element first. -/
structure Arc (K : Type*) where
  c : ℕ
  p : ℕ
  t1 : List (Ref K)
  t2 : List (Ref K)
  b1 : List K
  b2 : List K
  recent : Option ℕ
deriving DecidableEq, Repr

namespace Arc

variable {K : Type*}

def new (budget : ℕ) : Arc K :=
  ⟨max budget 1, 0, [], [], [], [], none⟩

section

variable [BEq K] (a : Arc K)

def tracked : List (Ref K) :=
  a.t1 ++ a.t2

def setBudget (budget : ℕ) : Arc K :=
  { a with
    c := max budget 1
    p := min a.p (max budget 1)
    b1 := a.b1.take (max budget 1 - a.t1.length)
    b2 := a.b2.take (2 * max budget 1 - a.t2.length) }

/-- How far a ghost hit moves the target: the ratio of the other ghost list to this one, at
least `1`. -/
def adaptation (hit other : List K) : ℕ :=
  if 0 < hit.length ∧ hit.length < other.length then max (other.length / hit.length) 1 else 1

def onInsert (e : Ref K) : Arc K :=
  if a.b1.any (· == e.key) then
    { a with
      recent := some e.id
      p := min (a.p + adaptation a.b1 a.b2) a.c
      b1 := ghostForget e.key a.b1
      t2 := e :: a.t2 }
  else if a.b2.any (· == e.key) then
    { a with
      recent := some e.id
      p := a.p - adaptation a.b2 a.b1
      b2 := ghostForget e.key a.b2
      t2 := e :: a.t2 }
  else { a with recent := some e.id, t1 := e :: a.t1 }

/-- A hit moves the entry to the front of `T2`, from either list. -/
def onAccess (id : ℕ) : Arc K :=
  match NodeList.lookup Ref.id id a.t1 with
  | some n => { a with t1 := NodeList.unlink Ref.id id a.t1, t2 := n :: a.t2 }
  | none =>
    match NodeList.lookup Ref.id id a.t2 with
    | some n => { a with t2 := n :: NodeList.unlink Ref.id id a.t2 }
    | none => a

def onRemove (id : ℕ) : Arc K :=
  { a with
    t1 := NodeList.unlink Ref.id id a.t1
    t2 := NodeList.unlink Ref.id id a.t2
    recent := if a.recent = some id then none else a.recent }

/-- Push a key on the recent end of `B1` and trim to `|T1| + |B1| ≤ c`. -/
def recordB1 (key : K) : Arc K :=
  if a.b1.any (· == key) then a else { a with b1 := (key :: a.b1).take (a.c - a.t1.length) }

/-- Push a key on the recent end of `B2` and trim to `|T2| + |B2| ≤ 2c`. -/
def recordB2 (key : K) : Arc K :=
  if a.b2.any (· == key) then a else { a with b2 := (key :: a.b2).take (2 * a.c - a.t2.length) }

/-- Evict the least recently used entry of `T1` into `B1`. -/
def evictT1 : Option (Ref K) × Arc K :=
  match a.t1.getLast? with
  | none => (none, a)
  | some n => (some n, recordB1 { a with t1 := a.t1.dropLast } n.key)

/-- Evict the least recently used entry of `T2` into `B2`. -/
def evictT2 : Option (Ref K) × Arc K :=
  match a.t2.getLast? with
  | none => (none, a)
  | some n => (some n, recordB2 { a with t2 := a.t2.dropLast } n.key)

/-- Whether a list's least recently used entry is the one just inserted. -/
def lruIsRecent (l : List (Ref K)) : Bool :=
  l.getLast?.map Ref.id = a.recent

/-- `REPLACE`'s choice of list, before the last insert is protected. -/
def prefersT1 : Bool :=
  0 < a.t1.length ∧ (a.t2.length = 0 ∨ a.p < a.t1.length)

/-- The list to evict from: the preferred one, unless it would give up the last insert and the
other list has an entry. -/
def useT1 : Bool :=
  if a.prefersT1 ∧ a.lruIsRecent a.t1 ∧ a.t2 ≠ [] then false
  else if ¬ a.prefersT1 ∧ a.lruIsRecent a.t2 ∧ a.t1 ≠ [] then true
  else a.prefersT1

def victim : Option (Ref K) × Arc K :=
  if a.useT1 ∧ a.t1 ≠ [] then a.evictT1
  else if a.t2 ≠ [] then a.evictT2
  else a.evictT1

def reset : Arc K :=
  { a with t1 := [], t2 := [], b1 := [], b2 := [], p := 0, recent := none }

end

/-! ### What clearing leaves -/

theorem reset_onInsert [BEq K] (a : Arc K) (e : Ref K) : (a.onInsert e).reset = a.reset := by
  unfold onInsert
  split_ifs <;> rfl

theorem reset_onAccess (a : Arc K) (id : ℕ) : (a.onAccess id).reset = a.reset := by
  unfold onAccess
  split
  · rfl
  · split <;> rfl

theorem reset_victim [BEq K] (a : Arc K) : a.victim.2.reset = a.reset := by
  have h₁ : a.evictT1.2.reset = a.reset := by
    unfold evictT1 recordB1
    split
    · rfl
    · show (if _ then _ else _ : Arc K).reset = _
      split_ifs <;> rfl
  have h₂ : a.evictT2.2.reset = a.reset := by
    unfold evictT2 recordB2
    split
    · rfl
    · show (if _ then _ else _ : Arc K).reset = _
      split_ifs <;> rfl
  unfold victim
  split_ifs
  exacts [h₁, h₂, h₁]

/-! ### What it tracks -/

variable {a : Arc K}

theorem tracked_onInsert [BEq K] (a : Arc K) (e : Ref K) :
    (a.onInsert e).tracked.Perm (e :: a.tracked) := by
  unfold onInsert
  split_ifs
  · exact List.perm_middle
  · exact List.perm_middle
  · exact .refl _

theorem tracked_onAccess (a : Arc K) (id : ℕ) (ha : NodeList.Distinct Ref.id a.tracked) :
    (a.onAccess id).tracked.Perm a.tracked := by
  unfold onAccess
  split
  · next n hn =>
    obtain rfl := NodeList.ident_of_lookup hn
    have := ha.of_append_left.perm_cons_unlink (NodeList.mem_of_lookup hn)
    exact List.perm_middle.trans (this.symm.append_right a.t2)
  · split
    · next n hn =>
      obtain rfl := NodeList.ident_of_lookup hn
      have := ha.of_append_right.perm_cons_unlink (NodeList.mem_of_lookup hn)
      exact this.symm.append_left a.t1
    · exact .refl _

theorem tracked_onRemove (a : Arc K) (id : ℕ) :
    (a.onRemove id).tracked = NodeList.unlink Ref.id id a.tracked := by
  simp [tracked, onRemove]

section Victim

variable [BEq K]

@[simp] theorem tracked_recordB1 (a : Arc K) (key : K) : (a.recordB1 key).tracked = a.tracked := by
  unfold recordB1
  split <;> rfl

@[simp] theorem tracked_recordB2 (a : Arc K) (key : K) : (a.recordB2 key).tracked = a.tracked := by
  unfold recordB2
  split <;> rfl

theorem picks_evictT1 (a : Arc K) : Picks a.tracked a.evictT1.2.tracked a.evictT1.1 := by
  unfold evictT1
  split
  · exact .refl _
  · next n h =>
    refine .of_perm_cons ?_
    have hs : a.t1 = a.t1.dropLast ++ [n] := (List.dropLast_append_getLast? n h).symm
    rw [tracked_recordB1, tracked, hs]
    simp [tracked]

theorem picks_evictT2 (a : Arc K) : Picks a.tracked a.evictT2.2.tracked a.evictT2.1 := by
  unfold evictT2
  split
  · exact .refl _
  · next n h =>
    refine .of_perm_cons ?_
    have hs : a.t2 = a.t2.dropLast ++ [n] := (List.dropLast_append_getLast? n h).symm
    rw [tracked_recordB2, tracked, hs, ← List.append_assoc]
    simpa [tracked] using List.perm_append_singleton n (a.t1 ++ a.t2.dropLast)

theorem picks_victim (a : Arc K) : Picks a.tracked a.victim.2.tracked a.victim.1 := by
  unfold victim
  split_ifs
  · exact a.picks_evictT1
  · exact a.picks_evictT2
  · exact a.picks_evictT1

theorem evictT1_ne_none (h : a.t1 ≠ []) : a.evictT1.1 ≠ none := by
  simp [evictT1, List.getLast?_eq_some_getLast h]

theorem evictT2_ne_none (h : a.t2 ≠ []) : a.evictT2.1 ≠ none := by
  simp [evictT2, List.getLast?_eq_some_getLast h]

theorem victim_ne_none (h : a.tracked ≠ []) : a.victim.1 ≠ none := by
  unfold victim
  split_ifs with h₁ h₂
  · exact evictT1_ne_none h₁.2
  · exact evictT2_ne_none h₂
  · exact evictT1_ne_none fun h₃ ↦ h (by simp [tracked, h₃, not_not.1 h₂])

end Victim

end Arc

end Memcache
