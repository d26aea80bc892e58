import Mathlib.Data.List.Basic
import Mathlib.Data.List.Pairwise

/-!
# Maps keyed by a Boolean equality

A finite map as a list of pairs, for keys that are compared by a Boolean equality `==` which need
not be reflexive. **A key that does not equal itself can be inserted but never found or erased**,
as in a hash map over floating-point keys; the laws below therefore ask for symmetry and
transitivity of `==` only.
-/

/-- A finite map from keys to values. -/
structure KeyMap (K α : Type*) where
  pairs : List (K × α)
deriving DecidableEq, Repr

namespace KeyMap

variable {K α : Type*}

def empty : KeyMap K α := ⟨[]⟩

/-- The values stored, one per pair. -/
def values (m : KeyMap K α) : List α := m.pairs.map Prod.snd

@[simp] theorem values_empty : (empty : KeyMap K α).values = [] := rfl

variable [BEq K]

/-- The value stored under a key. -/
def get (m : KeyMap K α) (k : K) : Option α :=
  (m.pairs.find? fun p ↦ p.1 == k).map Prod.snd

/-- The map without a key. -/
def erase (m : KeyMap K α) (k : K) : KeyMap K α :=
  ⟨m.pairs.filter fun p ↦ !(p.1 == k)⟩

/-- The map with a key set. -/
def insert (m : KeyMap K α) (k : K) (a : α) : KeyMap K α :=
  ⟨(k, a) :: (m.erase k).pairs⟩

variable {m : KeyMap K α} {k k' : K} {a : α}

@[simp] theorem get_empty (k : K) : (empty : KeyMap K α).get k = none := rfl

theorem get_cons (p : K × α) (l : List (K × α)) (k : K) :
    get ⟨p :: l⟩ k = if p.1 == k then some p.2 else get ⟨l⟩ k := by
  simp only [get, List.find?_cons]
  cases p.1 == k <;> rfl

theorem get_eq_some (h : m.get k = some a) : ∃ p ∈ m.pairs, (p.1 == k) ∧ p.2 = a := by
  obtain ⟨p, hp, rfl⟩ := Option.map_eq_some_iff.1 h
  have hk := List.find?_some hp
  exact ⟨p, List.mem_of_find?_eq_some hp, hk, rfl⟩

theorem mem_values_of_get (h : m.get k = some a) : a ∈ m.values := by
  obtain ⟨p, hp, -, rfl⟩ := get_eq_some h
  exact List.mem_map_of_mem hp

theorem mem_values_of_erase (h : a ∈ (m.erase k).values) : a ∈ m.values := by
  obtain ⟨p, hp, rfl⟩ := List.mem_map.1 h
  exact List.mem_map_of_mem (List.mem_of_mem_filter hp)

theorem mem_values_insert {b : α} (h : a ∈ (m.insert k b).values) : a = b ∨ a ∈ m.values := by
  obtain rfl | h := List.mem_cons.1 h
  · exact .inl rfl
  · exact .inr (mem_values_of_erase h)

theorem get_eq_none : m.get k = none ↔ ∀ p ∈ m.pairs, (p.1 == k) = false := by
  simp [get, List.find?_eq_none]

@[simp] theorem get_erase_self : (m.erase k).get k = none := by
  rw [get_eq_none]
  intro p hp
  simpa using (List.mem_filter.1 hp).2

@[simp] theorem erase_erase_self : (m.erase k).erase k = m.erase k := by
  simp [erase]

/-! ### Maps of the insertions -/

/-- At most one pair for a key. -/
def Unique (m : KeyMap K α) : Prop := m.pairs.Pairwise fun p q ↦ (p.1 == q.1) = false

variable {p q : K × α}

theorem Unique.erase (h : m.Unique) (k : K) : (m.erase k).Unique := h.filter _

theorem mem_of_mem_erase (h : p ∈ (m.erase k).pairs) : p ∈ m.pairs ∧ (p.1 == k) = false := by
  obtain ⟨hp, hk⟩ := List.mem_filter.1 h
  exact ⟨hp, by simpa using hk⟩

theorem mem_erase (hp : p ∈ m.pairs) (hk : (p.1 == k) = false) : p ∈ (m.erase k).pairs :=
  List.mem_filter.2 ⟨hp, by simp [hk]⟩

theorem mem_of_mem_insert (h : p ∈ (m.insert k a).pairs) :
    p = (k, a) ∨ p ∈ m.pairs ∧ (p.1 == k) = false := by
  rcases List.mem_cons.1 h with h | h
  · exact .inl h
  · exact .inr (mem_of_mem_erase h)

/-- A key that is not found is not erased. -/
theorem erase_of_get_eq_none (h : m.get k = none) : m.erase k = m := by
  obtain ⟨l⟩ := m
  have hl : (l.filter fun p ↦ !(p.1 == k)) = l :=
    List.filter_eq_self.2 fun p hp ↦ by simp [get_eq_none.1 h p hp]
  exact congrArg KeyMap.mk hl

section PartialEquiv

variable [PartialEquivBEq K]

/-- Equal keys are equal to the same keys. -/
theorem beq_congr_right (h : k == k') (a : K) : (a == k) = (a == k') := by
  rw [Bool.eq_iff_iff]
  exact ⟨fun hp ↦ PartialEquivBEq.trans hp h, fun hp ↦ PartialEquivBEq.trans hp (BEq.symm h)⟩

theorem get_congr (h : k == k') : m.get k = m.get k' := by
  simp only [get, beq_congr_right h]

theorem erase_congr (h : k == k') : m.erase k = m.erase k' := by
  simp only [erase, beq_congr_right h]

theorem get_erase : (m.erase k).get k' = if k == k' then none else m.get k' := by
  obtain ⟨l⟩ := m
  induction l with
  | nil => simp [erase, get]
  | cons p l ih =>
    simp only [erase, List.filter_cons] at ih ⊢
    by_cases hpk : p.1 == k
    · simp only [hpk, Bool.not_true, Bool.false_eq_true, if_false, ih, get_cons]
      by_cases hk : k == k'
      · rw [if_pos hk, if_pos hk]
      · have : ¬ (p.1 == k') := fun h ↦ hk (PartialEquivBEq.trans (BEq.symm hpk) h)
        rw [if_neg hk, if_neg hk, if_neg this]
    · simp only [hpk, Bool.not_false, if_true, get_cons, ih]
      by_cases hk : k == k'
      · have : ¬ (p.1 == k') := fun h ↦ hpk (PartialEquivBEq.trans h (BEq.symm hk))
        rw [if_pos hk, if_pos hk, if_neg this]
      · rw [if_neg hk, if_neg hk]

theorem get_insert : (m.insert k a).get k' = if k == k' then some a else m.get k' := by
  rw [insert, get_cons]
  by_cases hk : k == k'
  · rw [if_pos hk, if_pos hk]
  · rw [if_neg hk, if_neg hk]
    exact get_erase.trans (if_neg hk)

theorem Unique.insert (h : m.Unique) (k : K) (a : α) : (m.insert k a).Unique := by
  refine List.pairwise_cons.2 ⟨fun p hp ↦ ?_, h.erase k⟩
  rw [BEq.comm]
  exact (mem_of_mem_erase hp).2

/-- A pair is what a lookup of its key finds. -/
theorem Unique.get_eq (h : m.Unique) (hp : p ∈ m.pairs) (hk : p.1 == k) : m.get k = some p.2 := by
  obtain ⟨l⟩ := m
  induction l with
  | nil => cases hp
  | cons q l ih =>
    obtain ⟨hq, hl⟩ := List.pairwise_cons.1 h
    rw [get_cons]
    rcases List.mem_cons.1 hp with rfl | hp
    · rw [if_pos hk]
    · have hqk : ¬ (q.1 == k) := by
        intro hqk
        have := hq p hp
        rw [PartialEquivBEq.trans hqk (BEq.symm hk)] at this
        cases this
      rw [if_neg hqk]
      exact ih hl hp

/-- A lookup does not depend on the order of the pairs. -/
theorem Unique.get_perm {m' : KeyMap K α} (h : m.Unique) (hperm : m'.pairs.Perm m.pairs) (k : K) :
    m'.get k = m.get k := by
  have h' : m'.Unique := (hperm.pairwise_iff fun hpq ↦ by rwa [BEq.comm]).2 h
  rcases hget : m.get k with _ | a
  · exact get_eq_none.2 fun p hp ↦ get_eq_none.1 hget p (hperm.mem_iff.1 hp)
  · obtain ⟨p, hp, hk, rfl⟩ := get_eq_some hget
    exact h'.get_eq (hperm.mem_iff.2 hp) hk

theorem Unique.eq_of_beq (h : m.Unique) (hp : p ∈ m.pairs) (hq : q ∈ m.pairs) (hpq : p.1 == q.1) :
    p = q := by
  by_contra hne
  have : Std.Symm fun a b : K × α ↦ (a.1 == b.1) = false := ⟨fun a b hab ↦ by rw [BEq.comm, hab]⟩
  have := h.forall hp hq hne
  rw [hpq] at this
  cases this

omit [PartialEquivBEq K] in
/-- Keys that are not there yet are inserted in front. -/
theorem foldl_insert {l : List (K × α)} {m : KeyMap K α}
    (h : (m.pairs.reverse ++ l).Pairwise fun p q ↦ (p.1 == q.1) = false) :
    l.foldl (fun m p ↦ m.insert p.1 p.2) m = ⟨l.reverse ++ m.pairs⟩ := by
  induction l generalizing m with
  | nil => rfl
  | cons p l ih =>
    have hnone : m.get p.1 = none := by
      refine get_eq_none.2 fun q hq ↦ ?_
      exact (List.pairwise_append.1 h).2.2 q (List.mem_reverse.2 hq) p List.mem_cons_self
    have hinsert : m.insert p.1 p.2 = ⟨p :: m.pairs⟩ := by
      rw [insert, erase_of_get_eq_none hnone]
    rw [List.foldl_cons, hinsert, ih (by simpa using h)]
    simp

/-- The value found, and those that an erasure leaves. -/
theorem Unique.values_perm (h : m.Unique) (hget : m.get k = some a) :
    m.values.Perm (a :: (m.erase k).values) := by
  obtain ⟨l⟩ := m
  induction l with
  | nil => cases hget
  | cons q l ih =>
    obtain ⟨hq, hl⟩ := List.pairwise_cons.1 h
    rw [get_cons] at hget
    by_cases hqk : q.1 == k
    · rw [if_pos hqk] at hget
      cases hget
      have hnone : get ⟨l⟩ k = none := by
        refine get_eq_none.2 fun p hp ↦ ?_
        rw [← beq_congr_right hqk, BEq.comm]
        exact hq p hp
      have herase : KeyMap.erase ⟨q :: l⟩ k = ⟨l⟩ := by
        rw [← erase_of_get_eq_none hnone]
        simp [KeyMap.erase, hqk]
      rw [herase]
      exact .refl _
    · rw [if_neg hqk] at hget
      have herase : KeyMap.erase ⟨q :: l⟩ k = ⟨q :: (KeyMap.erase ⟨l⟩ k).pairs⟩ := by
        simp [KeyMap.erase, hqk]
      rw [herase]
      exact ((ih hl hget).cons q.2).trans (.swap ..)

end PartialEquiv

end KeyMap
