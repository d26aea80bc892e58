import Memcache.Lib.Intrusive
import Memcache.Lib.KeyMap
import Memcache.Policy.ArcLists

/-!
# Ghost lists as the policies keep them

A ghost list is a doubly linked list of nodes that carry a key, and a map from keys to nodes beside
it. `GhostQueue` has both, with the nodes in a heap of their own; the list of keys that the policies'
models speak of is what they **hold** (`GhostQueue.Holds`).

The map finds a node by its key and forgets it by its key, so the two stay in step only for keys that
equal themselves: `delete` passes over any other, and the node leaves the list but not the map.
-/

namespace Memcache

/-- A ghost list: the nodes' links and keys, the ends of the list, the map beside it, and the
address of the next node. -/
structure GhostQueue (K : Type*) where
  link : ℕ → Link
  key : ℕ → Option K
  ends : DList
  set : KeyMap K ℕ
  fresh : ℕ

namespace GhostQueue

variable {K : Type*}

def empty : GhostQueue K where
  link _ := Link.none
  key _ := none
  ends := DList.empty
  set := KeyMap.empty
  fresh := 0

/-- A list cleared node by node; the addresses used stay used. -/
def clear (q : GhostQueue K) : GhostQueue K :=
  { q with link := fun _ ↦ Link.none, ends := DList.empty, set := KeyMap.empty }

variable [BEq K]

/-- `unlinkGhost`: take a node out of the list and its key out of the map. -/
def unlink (q : GhostQueue K) (g : ℕ) : GhostQueue K :=
  let s := DList.bypass q.link q.ends g
  { q with
    link := s.1
    ends := s.2
    set := match q.key g with
      | some k => q.set.erase k
      | none => q.set }

/-- Take the node of a key out, if the map has one. -/
def forget (q : GhostQueue K) (k : K) : GhostQueue K :=
  match q.set.get k with
  | some g => q.unlink g
  | none => q

/-- A new node for a key, at the end that `push` names. -/
def add (push : (ℕ → Link) → DList → ℕ → (ℕ → Link) × DList) (q : GhostQueue K) (k : K) :
    GhostQueue K :=
  let s := push q.link q.ends q.fresh
  { link := s.1
    key := Function.update q.key q.fresh (some k)
    ends := s.2
    set := q.set.insert k q.fresh
    fresh := q.fresh + 1 }

/-- Drop nodes from an end while the list is longer than `limit`. Every round takes one off the
size, so `fuel` rounds are enough for a list of that size. -/
def trim (stop : DList → Option ℕ) (limit : ℕ) : ℕ → GhostQueue K → GhostQueue K
  | 0, q => q
  | fuel + 1, q =>
    if (limit : ℤ) < q.ends.size then
      match stop q.ends with
      | some g => trim stop limit fuel (q.unlink g)
      | none => q
    else q

def trimHead (limit : ℕ) (q : GhostQueue K) : GhostQueue K :=
  trim DList.head limit q.ends.size.toNat q

def trimTail (limit : ℕ) (q : GhostQueue K) : GhostQueue K :=
  trim DList.tail limit q.ends.size.toNat q

/-- Record a key at the tail, dropping the oldest from the head. -/
def recordTail (limit : ℕ) (q : GhostQueue K) (k : K) : GhostQueue K :=
  if (q.set.get k).isSome then q else trimHead limit (q.add DList.pushTail k)

/-- Record a key at the head, dropping the oldest from the tail. -/
def recordHead (limit : ℕ) (q : GhostQueue K) (k : K) : GhostQueue K :=
  if (q.set.get k).isSome then q else trimTail limit (q.add DList.pushHead k)

/-! ### What a ghost list holds -/

/-- The nodes of the list, each with its key, are the pairs of the map. -/
structure Holds (q : GhostQueue K) (gl : List (K × ℕ)) : Prop where
  nodes : DList.IsList q.link q.ends (gl.map Prod.snd)
  keys : ∀ x ∈ gl, q.key x.2 = some x.1
  index : q.set.pairs.Perm gl
  apart : Apart (gl.map Prod.fst)
  self : ∀ x ∈ gl, x.1 == x.1
  fresh : ∀ x ∈ gl, x.2 < q.fresh

theorem holds_empty : Holds (empty : GhostQueue K) [] :=
  ⟨DList.isList_empty _, by simp, .nil, .nil, by simp, by simp⟩

theorem holds_clear (q : GhostQueue K) : Holds q.clear [] :=
  ⟨DList.isList_empty _, by simp, .nil, .nil, by simp, by simp⟩

namespace Holds

variable {q : GhostQueue K} {gl g₁ g₂ : List (K × ℕ)} {k : K} {x : K × ℕ}

theorem size_eq (h : Holds q gl) : q.ends.size = gl.length := by
  simpa using h.nodes.size

/-- The map finds a node of the list, by a key equal to the node's. -/
theorem exists_of_get {g : ℕ} (h : Holds q gl) (hg : q.set.get k = some g) :
    ∃ g₁ x g₂, gl = g₁ ++ x :: g₂ ∧ x.2 = g ∧ x.1 == k := by
  obtain ⟨x, hx, hk, rfl⟩ := KeyMap.get_eq_some hg
  obtain ⟨g₁, g₂, rfl⟩ := List.append_of_mem (h.index.mem_iff.1 hx)
  exact ⟨g₁, x, g₂, rfl, rfl, hk⟩

theorem get_eq_none (h : Holds q gl) : q.set.get k = none ↔ ∀ x ∈ gl, (x.1 == k) = false := by
  rw [KeyMap.get_eq_none]
  exact ⟨fun hx x hm ↦ hx x (h.index.mem_iff.2 hm), fun hx x hm ↦ hx x (h.index.mem_iff.1 hm)⟩

/-- The map knows a key iff the list has it. -/
theorem isSome_get (h : Holds q gl) :
    (q.set.get k).isSome = (gl.map Prod.fst).any (· == k) := by
  rcases hg : q.set.get k with _ | g
  · have hnone := h.get_eq_none.1 hg
    refine (List.any_eq_false.2 fun y hy ↦ ?_).symm
    obtain ⟨x, hx, rfl⟩ := List.mem_map.1 hy
    simp [hnone x hx]
  · obtain ⟨g₁, x, g₂, rfl, -, hk⟩ := h.exists_of_get hg
    exact (List.any_eq_true.2 ⟨x.1, by simp, hk⟩).symm

theorem fresh_notMem (h : Holds q gl) : q.fresh ∉ gl.map Prod.snd := by
  intro hm
  obtain ⟨x, hx, he⟩ := List.mem_map.1 hm
  exact absurd (h.fresh x hx) (by omega)

variable [PartialEquivBEq K]

/-- Erasing a key of the map leaves the other pairs. -/
theorem filter_middle (hap : Apart ((g₁ ++ x :: g₂).map Prod.fst)) (hx : x.1 == x.1) :
    ((g₁ ++ x :: g₂).filter fun p ↦ !(p.1 == x.1)) = g₁ ++ g₂ := by
  rw [List.map_append, List.map_cons] at hap
  obtain ⟨-, hright, hcross⟩ := List.pairwise_append.1 hap
  have h₁ : ∀ p ∈ g₁, (p.1 == x.1) = false := fun p hp ↦
    hcross _ (List.mem_map_of_mem hp) _ List.mem_cons_self
  have h₂ : ∀ p ∈ g₂, (p.1 == x.1) = false := fun p hp ↦
    BEq.symm_false ((List.pairwise_cons.1 hright).1 _ (List.mem_map_of_mem hp))
  rw [List.filter_append, List.filter_cons_of_neg (by simp [hx]),
    List.filter_eq_self.2 fun p hp ↦ by simp [h₁ p hp],
    List.filter_eq_self.2 fun p hp ↦ by simp [h₂ p hp]]

theorem unlink (h : Holds q (g₁ ++ x :: g₂)) : Holds (q.unlink x.2) (g₁ ++ g₂) := by
  have hmem : x ∈ g₁ ++ x :: g₂ := by simp
  have hsub : (g₁ ++ g₂).Sublist (g₁ ++ x :: g₂) :=
    (List.Sublist.refl g₁).append (List.sublist_cons_self x g₂)
  have hnodes : DList.IsList q.link q.ends (g₁.map Prod.snd ++ x.2 :: g₂.map Prod.snd) := by
    simpa using h.nodes
  have hrest : DList.IsList (q.unlink x.2).link (q.unlink x.2).ends ((g₁ ++ g₂).map Prod.snd) := by
    rw [List.map_append]
    exact hnodes.bypass
  refine ⟨hrest, fun y hy ↦ h.keys y (hsub.subset hy), ?_,
    h.apart.sublist (hsub.map _), fun y hy ↦ h.self y (hsub.subset hy),
    fun y hy ↦ h.fresh y (hsub.subset hy)⟩
  have hset : (q.unlink x.2).set = q.set.erase x.1 := by
    show (match q.key x.2 with | some k => q.set.erase k | none => q.set) = _
    rw [h.keys x hmem]
  rw [hset, ← filter_middle h.apart (h.self x hmem)]
  exact h.index.filter _

/-- **Forgetting by the map is forgetting in the list.** -/
theorem forget (h : Holds q gl) (k : K) :
    ∃ gl', Holds (q.forget k) gl' ∧ gl'.map Prod.fst = ghostForget k (gl.map Prod.fst) := by
  rcases hg : q.set.get k with _ | g
  · refine ⟨gl, by rw [GhostQueue.forget, hg]; exact h, (List.eraseP_of_forall_not ?_).symm⟩
    intro y hy
    obtain ⟨x, hx, rfl⟩ := List.mem_map.1 hy
    simp [h.get_eq_none.1 hg x hx]
  · obtain ⟨g₁, x, g₂, rfl, rfl, hk⟩ := h.exists_of_get hg
    refine ⟨g₁ ++ g₂, by rw [GhostQueue.forget, hg]; exact h.unlink, ?_⟩
    -- the keys are apart, so no key before `x` equals `k`
    have hbefore : ∀ y ∈ g₁.map Prod.fst, ¬ (y == k) = true := by
      intro y hy hyk
      have hap := h.apart
      rw [List.map_append, List.map_cons] at hap
      have hne := (List.pairwise_append.1 hap).2.2 y hy x.1 List.mem_cons_self
      rw [PartialEquivBEq.trans hyk (BEq.symm hk)] at hne
      cases hne
    rw [ghostForget, List.map_append, List.map_append, List.map_cons,
      List.eraseP_append_right _ hbefore, List.eraseP_cons, hk]
    rfl

/-- What a new node for a new key needs, at whichever end. -/
theorem add {push : (ℕ → Link) → DList → ℕ → (ℕ → Link) × DList} {gl' : List (K × ℕ)}
    (h : Holds q gl) (hnone : q.set.get k = none) (hk : k == k)
    (hperm : gl'.Perm ((k, q.fresh) :: gl))
    (hpush : DList.IsList (push q.link q.ends q.fresh).1 (push q.link q.ends q.fresh).2
      (gl'.map Prod.snd)) : Holds (q.add push k) gl' := by
  have hcases : ∀ x ∈ gl', x = (k, q.fresh) ∨ x ∈ gl := fun x hx ↦
    List.mem_cons.1 (hperm.mem_iff.1 hx)
  refine ⟨hpush, fun x hx ↦ ?_, ?_, ?_, fun x hx ↦ ?_, fun x hx ↦ ?_⟩
  · rcases hcases x hx with rfl | hx
    · exact Function.update_self ..
    · show Function.update q.key q.fresh (some k) x.2 = some x.1
      rw [Function.update_of_ne (h.fresh x hx).ne, h.keys x hx]
  · show ((k, q.fresh) :: (q.set.erase k).pairs).Perm gl'
    rw [KeyMap.erase_of_get_eq_none hnone]
    exact (h.index.cons _).trans hperm.symm
  · refine Apart.perm (h.apart.cons fun y hy ↦ ?_) (hperm.map Prod.fst).symm
    obtain ⟨x, hx, rfl⟩ := List.mem_map.1 hy
    exact h.get_eq_none.1 hnone x hx
  · rcases hcases x hx with rfl | hx
    · exact hk
    · exact h.self x hx
  · rcases hcases x hx with rfl | hx
    · exact Nat.lt_succ_self _
    · exact (h.fresh x hx).trans (Nat.lt_succ_self _)

theorem addTail (h : Holds q gl) (hnone : q.set.get k = none) (hk : k == k) :
    Holds (q.add DList.pushTail k) (gl ++ [(k, q.fresh)]) :=
  h.add hnone hk List.perm_append_comm (by simpa using h.nodes.pushTail h.fresh_notMem)

/-- Trimming at the head keeps the newest. -/
theorem trimHead_aux (limit : ℕ) {fuel : ℕ} (h : Holds q gl) (hf : gl.length ≤ fuel) :
    Holds (trim DList.head limit fuel q) (gl.drop (gl.length - limit)) := by
  induction fuel generalizing q gl with
  | zero =>
    obtain rfl : gl = [] := List.length_eq_zero_iff.1 (by omega)
    rw [trim, List.drop_nil]
    exact h
  | succ fuel ih =>
    rw [trim, h.size_eq]
    by_cases hlim : (limit : ℤ) < gl.length
    · rw [if_pos hlim, h.nodes.head]
      rcases gl with _ | ⟨x, gl⟩
      · exact absurd hlim (by simp)
      · have hrest : Holds (q.unlink x.2) ([] ++ gl) := Holds.unlink h
        have hstep := ih hrest (by simpa using hf)
        have hlen : (x :: gl).length - limit = gl.length - limit + 1 := by
          simp only [List.length_cons] at hlim ⊢
          omega
        rw [hlen, List.drop_succ_cons]
        exact hstep
    · rw [if_neg hlim, show gl.length - limit = 0 by omega]
      exact h

theorem trimHead (h : Holds q gl) (limit : ℕ) :
    Holds (q.trimHead limit) (gl.drop (gl.length - limit)) :=
  h.trimHead_aux limit (by rw [h.size_eq]; simp)

/-- **Recording a key at the tail is recording it in the list.** -/
theorem recordTail (h : Holds q gl) (limit : ℕ) (hk : k == k) :
    ∃ gl', Holds (q.recordTail limit k) gl' ∧
      gl'.map Prod.fst = ghostRecord limit k (gl.map Prod.fst) := by
  rw [GhostQueue.recordTail, ghostRecord, h.isSome_get]
  rcases hany : (gl.map Prod.fst).any (· == k) with _ | _
  · have hnone : q.set.get k = none := by
      rw [← Option.isSome_eq_false_iff.trans Option.isNone_iff_eq_none, h.isSome_get, hany]
    refine ⟨_, (h.addTail hnone hk).trimHead limit, ?_⟩
    simp [ghostTrim, List.map_drop]
  · exact ⟨gl, h, rfl⟩

end Holds

end GhostQueue

/-! ### A key that does not equal itself -/

/-- Keys with one that does not equal itself, as among floating-point numbers. -/
inductive FloatKey where
  | num (n : ℕ)
  | nan
deriving DecidableEq, Repr

namespace FloatKey

instance : BEq FloatKey where
  beq
    | num a, num b => a == b
    | _, _ => false

theorem beq_iff {a b : FloatKey} : a == b ↔ ∃ n, a = num n ∧ b = num n := by
  rcases a with a | _ <;> rcases b with b | _
  · show (a == b) = true ↔ _
    rw [beq_iff_eq]
    constructor
    · rintro rfl
      exact ⟨a, rfl, rfl⟩
    · rintro ⟨n, ha, hb⟩
      cases ha
      cases hb
      rfl
  · exact ⟨nofun, by rintro ⟨n, -, hb⟩; cases hb⟩
  · exact ⟨nofun, by rintro ⟨n, ha, -⟩; cases ha⟩
  · exact ⟨nofun, by rintro ⟨n, ha, -⟩; cases ha⟩

instance : PartialEquivBEq FloatKey where
  symm h := by
    obtain ⟨n, ha, hb⟩ := beq_iff.1 h
    exact beq_iff.2 ⟨n, hb, ha⟩
  trans h h' := by
    obtain ⟨n, ha, rfl⟩ := beq_iff.1 h
    obtain ⟨m, hm, hc⟩ := beq_iff.1 h'
    obtain rfl : n = m := by cases hm; rfl
    exact beq_iff.2 ⟨n, ha, hc⟩

end FloatKey

end Memcache
