import Memcache.Lib.NodeList

/-!
# Policy nodes, and the two policies that keep one list

Every eviction policy orders the entries of one shard without owning them: what it holds is a
pointer to an entry, and what it hands back from `Victim` is such a pointer. A `Ref` is that
pointer, the identity of the entry object with the key the entry was inserted under (a key is never
rewritten, so the copy cannot go stale; the ghost lists and the frequency sketch read it).

`Picks` is the contract that all seven policies satisfy and that the shard's eviction loop relies
on: **a victim is an entry the policy tracks, and choosing it loses track of no other entry**. The
two policies with a single list, `LRU` and `FIFO`, are modelled here.

The doubly linked lists of the source are lists of nodes. A size field of the source is the length
of its list, and the membership map beside a ghost list is membership in that list.
-/

namespace Memcache

/-- A pointer to an entry: the entry's identity and its key. -/
structure Ref (K : Type*) where
  id : ℕ
  key : K
deriving DecidableEq, Repr

variable {K : Type*}

/-! ### What choosing a victim may do -/

/-- The contract of a victim choice, between the entries tracked before and after it. The victim
may already have left the policy's lists (most policies unlink it at once) or still be in them
(`LRU` and `FIFO` only look), so both sides are compared **without** it. -/
def Picks (before after : List (Ref K)) : Option (Ref K) → Prop
  | none => after.Perm before
  | some r => r ∈ before ∧ after.Subperm before ∧
      (NodeList.unlink Ref.id r.id after).Perm (NodeList.unlink Ref.id r.id before)

namespace Picks

variable {before before' after : List (Ref K)} {r : Ref K} {victim : Option (Ref K)}

theorem of_perm_cons (h : before.Perm (r :: after)) : Picks before after (some r) := by
  refine ⟨h.mem_iff.2 (List.mem_cons_self ..),
    (List.sublist_cons_self ..).subperm.trans h.symm.subperm, ?_⟩
  have hu : (NodeList.unlink Ref.id r.id before).Perm (NodeList.unlink Ref.id r.id (r :: after)) :=
    NodeList.unlink_perm h
  rw [NodeList.unlink_cons_self] at hu
  exact hu.symm

theorem of_mem (h : r ∈ before) : Picks before before (some r) :=
  ⟨h, .refl _, .refl _⟩

theorem of_perm (hp : before'.Perm before) (h : Picks before' after victim) :
    Picks before after victim := by
  cases victim with
  | none => exact List.Perm.trans h hp
  | some r =>
    exact ⟨hp.mem_iff.1 h.1, h.2.1.trans hp.subperm, h.2.2.trans (NodeList.unlink_perm hp)⟩

theorem mem (h : Picks before after (some r)) : r ∈ before := h.1

theorem subperm (h : Picks before after victim) : after.Subperm before := by
  cases victim with
  | none => exact List.Perm.subperm h
  | some r => exact h.2.1

theorem distinct (h : Picks before after victim) (hb : NodeList.Distinct Ref.id before) :
    NodeList.Distinct Ref.id after := by
  obtain ⟨l, hl, hs⟩ := h.subperm
  exact (hb.sublist hs).perm hl

end Picks

/-! ### Ghost lists

A ghost list remembers the keys of evicted entries, oldest first, up to a budget. -/

/-- Drop the oldest keys past the budget. -/
def ghostTrim (budget : ℕ) (ghost : List K) : List K :=
  ghost.drop (ghost.length - budget)

/-- Record an evicted key; a key that is recorded already keeps its place. -/
def ghostRecord [BEq K] (budget : ℕ) (key : K) (ghost : List K) : List K :=
  if ghost.any (· == key) then ghost else ghostTrim budget (ghost ++ [key])

/-- Forget a key. -/
def ghostForget [BEq K] (key : K) (ghost : List K) : List K :=
  ghost.eraseP (· == key)

/-! ### Least recently used -/

/-- The `LRU` policy: its list, most recently used first. -/
structure Lru (K : Type*) where
  nodes : List (Ref K)
deriving DecidableEq, Repr

namespace Lru

def onInsert (p : Lru K) (e : Ref K) : Lru K :=
  ⟨e :: p.nodes⟩

def onAccess (p : Lru K) (id : ℕ) : Lru K :=
  match NodeList.lookup Ref.id id p.nodes with
  | none => p
  | some n => ⟨n :: NodeList.unlink Ref.id id p.nodes⟩

def onRemove (p : Lru K) (id : ℕ) : Lru K :=
  ⟨NodeList.unlink Ref.id id p.nodes⟩

/-- The least recently used entry; it stays in the list until `onRemove`. -/
def victim (p : Lru K) : Option (Ref K) :=
  p.nodes.getLast?

theorem nodes_onAccess (p : Lru K) (id : ℕ) (hp : NodeList.Distinct Ref.id p.nodes) :
    (p.onAccess id).nodes.Perm p.nodes := by
  unfold onAccess
  split
  · exact .refl _
  · next n hn =>
    obtain rfl := NodeList.ident_of_lookup hn
    exact (hp.perm_cons_unlink (NodeList.mem_of_lookup hn)).symm

theorem picks_victim (p : Lru K) : Picks p.nodes p.nodes p.victim := by
  cases h : p.victim with
  | none => exact .refl _
  | some r => exact .of_mem (List.mem_of_getLast? h)

theorem victim_ne_none {p : Lru K} (h : p.nodes ≠ []) : p.victim ≠ none := by
  simpa [victim] using h

end Lru

/-! ### First in, first out -/

/-- The `FIFO` policy: its list, oldest first. -/
structure Fifo (K : Type*) where
  nodes : List (Ref K)
deriving DecidableEq, Repr

namespace Fifo

def onInsert (p : Fifo K) (e : Ref K) : Fifo K :=
  ⟨p.nodes ++ [e]⟩

def onRemove (p : Fifo K) (id : ℕ) : Fifo K :=
  ⟨NodeList.unlink Ref.id id p.nodes⟩

/-- The oldest entry; it stays in the list until `onRemove`. -/
def victim (p : Fifo K) : Option (Ref K) :=
  p.nodes.head?

theorem picks_victim (p : Fifo K) : Picks p.nodes p.nodes p.victim := by
  cases h : p.victim with
  | none => exact .refl _
  | some r => exact .of_mem (List.mem_of_head? h)

theorem victim_ne_none {p : Fifo K} (h : p.nodes ≠ []) : p.victim ≠ none := by
  simpa [victim] using h

end Fifo

end Memcache
