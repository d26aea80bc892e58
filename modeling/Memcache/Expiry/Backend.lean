import Memcache.Lib.NodeList
import Mathlib.Data.List.Sort
import Mathlib.Tactic.Ring

/-!
# Expiry backends

A shard tracks the entries that will expire in one of two backends: a **min-heap** ordered by the
expiry instant, or a **hashed timing wheel** that is precise to one tick. Both track an entry by its
identity together with the instant it was last tracked under; every change of an entry's expiry is
followed by `fix`, which is why a copy of the instant models the field the source reads.

The heap is the standard library's, so it is modelled as a priority queue: `sweep` hands out the due
entries in the order of their instants. The wheel is the repository's own and is modelled slot by
slot: an entry waits in a slot with a number of full revolutions, `advanceTo` walks the slots the
clock has passed and decrements the counters of the entries it passes over.

What a shard relies on is `Ttl.ids`, the identities tracked, and one law per operation.
-/

namespace Memcache

/-! ### The heap -/

/-- A tracked entry: its identity and its expiry instant. -/
structure TtlNode where
  id : ℕ
  expireAt : ℤ
deriving DecidableEq, Repr

/-- The heap backend: the tracked entries. -/
structure ExpiryHeap where
  nodes : List TtlNode
deriving DecidableEq, Repr

namespace ExpiryHeap

def add (b : ExpiryHeap) (e : TtlNode) : ExpiryHeap :=
  if e.expireAt = 0 then b else ⟨b.nodes ++ [e]⟩

def remove (b : ExpiryHeap) (id : ℕ) : ExpiryHeap :=
  ⟨NodeList.unlink TtlNode.id id b.nodes⟩

/-- Track, untrack or move an entry after its instant changed. -/
def fix (b : ExpiryHeap) (e : TtlNode) : ExpiryHeap :=
  match NodeList.lookup TtlNode.id e.id b.nodes with
  | none => if 0 < e.expireAt then ⟨b.nodes ++ [e]⟩ else b
  | some _ => if e.expireAt = 0 then b.remove e.id else ⟨(b.remove e.id).nodes ++ [e]⟩

/-- Pop the entries due at `now`, earliest first. -/
def sweep (b : ExpiryHeap) (now : ℤ) : List ℕ × ExpiryHeap :=
  (((b.nodes.filter (·.expireAt ≤ now)).insertionSort (·.expireAt ≤ ·.expireAt)).map TtlNode.id,
    ⟨b.nodes.filter fun n ↦ !decide (n.expireAt ≤ now)⟩)

end ExpiryHeap

/-! ### The timing wheel -/

/-- An entry waiting in a slot of the wheel. -/
structure WheelEntry where
  id : ℕ
  expireAtNs : ℤ
  revolutions : ℕ
deriving DecidableEq, Repr

/-- The instant an entry is tracked under, with its identity. -/
def WheelEntry.record (e : WheelEntry) : ℕ × ℤ := (e.id, e.expireAtNs)

@[simp] theorem WheelEntry.record_revolutions (e : WheelEntry) (r : ℕ) :
    ({ e with revolutions := r } : WheelEntry).record = e.record := rfl

open WheelEntry (record)

/-- The timing wheel. A slot's list has the entry linked last first. -/
structure Wheel where
  slots : List (List WheelEntry)
  tickNs : ℕ
  cursor : ℕ
  cursorAtNs : ℤ
  originNs : ℤ
deriving DecidableEq, Repr

namespace Wheel

def new (slotCount tickNs : ℕ) (originNs : ℤ) : Wheel where
  slots := List.replicate (max slotCount 1) []
  tickNs := max tickNs 1
  cursor := 0
  cursorAtNs := originNs
  originNs := originNs

def slotCount (w : Wheel) : ℕ := w.slots.length

/-- Ticks from the cursor to an instant, rounded up, and at least one: an instant already past is
due on the next tick. -/
def ticksAhead (w : Wheel) (expireAtNs : ℤ) : ℕ :=
  let delta := (expireAtNs - w.cursorAtNs).toNat
  max (delta / w.tickNs + if delta % w.tickNs = 0 then 0 else 1) 1

def add (w : Wheel) (id : ℕ) (expireAtNs : ℤ) : Wheel :=
  { w with
    slots := w.slots.modify ((w.cursor + w.ticksAhead expireAtNs % w.slotCount) % w.slotCount)
      fun slot ↦ ⟨id, expireAtNs, (w.ticksAhead expireAtNs - 1) / w.slotCount⟩ :: slot }

def remove (w : Wheel) (id : ℕ) : Wheel :=
  { w with slots := w.slots.map (NodeList.unlink WheelEntry.id id) }

/-- The due entries of a slot the cursor reaches, and the slot left behind. -/
def processSlot (slot : List WheelEntry) : List WheelEntry × List WheelEntry :=
  (slot.filter (·.revolutions = 0),
    (slot.filter (·.revolutions ≠ 0)).map fun e ↦ { e with revolutions := e.revolutions - 1 })

/-- The due entries of a slot after `n` full revolutions, and the slot left behind. -/
def decrementRevolutions (n : ℕ) (slot : List WheelEntry) : List WheelEntry × List WheelEntry :=
  (slot.filter (·.revolutions < n),
    (slot.filter fun e ↦ !decide (e.revolutions < n)).map fun e ↦
      { e with revolutions := e.revolutions - n })

/-- Skip `n` full revolutions at once. -/
def decrementAllRevolutions (w : Wheel) (n : ℕ) : List WheelEntry × Wheel :=
  if n = 0 then ([], w)
  else ((w.slots.map fun slot ↦ (decrementRevolutions n slot).1).flatten,
    { w with slots := w.slots.map fun slot ↦ (decrementRevolutions n slot).2 })

/-- Move the cursor one slot forward and process that slot. -/
def stepSlot (w : Wheel) : List WheelEntry × Wheel :=
  let cursor := (w.cursor + 1) % w.slotCount
  ((processSlot (w.slots.getD cursor [])).1,
    { w with cursor := cursor, slots := w.slots.modify cursor fun slot ↦ (processSlot slot).2 })

/-- Process `n` slots one after another. -/
def stepSlots : ℕ → Wheel → List WheelEntry × Wheel
  | 0, w => ([], w)
  | n + 1, w => (w.stepSlot.1 ++ (stepSlots n w.stepSlot.2).1, (stepSlots n w.stepSlot.2).2)

def advanceTo (w : Wheel) (nowNs : ℤ) : List WheelEntry × Wheel :=
  let stepsTotal := (nowNs - w.cursorAtNs).toNat / w.tickNs
  let skipped := w.decrementAllRevolutions (stepsTotal / w.slotCount)
  let walked := stepSlots (stepsTotal % w.slotCount) skipped.2
  (skipped.1 ++ walked.1, { walked.2 with cursorAtNs := w.cursorAtNs + stepsTotal * w.tickNs })

def reset (w : Wheel) : Wheel :=
  { w with slots := w.slots.map fun _ ↦ [], cursor := 0, cursorAtNs := w.originNs }

/-- Every entry waiting in the wheel. -/
def entries (w : Wheel) : List WheelEntry := w.slots.flatten

end Wheel

/-! ### The interface -/

/-- A shard's expiry backend. -/
inductive Ttl where
  | heap (b : ExpiryHeap)
  | wheel (w : Wheel)
deriving DecidableEq, Repr

namespace Ttl

/-- The identities tracked. -/
def ids : Ttl → List ℕ
  | .heap b => b.nodes.map TtlNode.id
  | .wheel w => w.entries.map WheelEntry.id

/-- Number of tracked entries. -/
def len (t : Ttl) : ℕ := t.ids.length

def add (id : ℕ) (expireAt : ℤ) : Ttl → Ttl
  | .heap b => .heap (b.add ⟨id, expireAt⟩)
  | .wheel w => if expireAt = 0 then .wheel w else .wheel (w.add id expireAt)

def remove (id : ℕ) : Ttl → Ttl
  | .heap b => .heap (b.remove id)
  | .wheel w => .wheel (w.remove id)

def fix (id : ℕ) (expireAt : ℤ) : Ttl → Ttl
  | .heap b => .heap (b.fix ⟨id, expireAt⟩)
  | .wheel w => add id expireAt (remove id (.wheel w))

/-- The entries due at `now`, untracked. -/
def sweep (now : ℤ) : Ttl → List ℕ × Ttl
  | .heap b => ((b.sweep now).1, .heap (b.sweep now).2)
  | .wheel w => ((w.advanceTo now).1.map WheelEntry.id, .wheel (w.advanceTo now).2)

def reset : Ttl → Ttl
  | .heap _ => .heap ⟨[]⟩
  | .wheel w => .wheel w.reset

/-- The wheel has a slot. -/
def WellFormed : Ttl → Prop
  | .heap _ => True
  | .wheel w => 0 < w.slotCount

end Ttl

/-! ### Laws of the wheel -/

namespace Wheel

variable {w : Wheel}

theorem records_processSlot (slot : List WheelEntry) :
    ((processSlot slot).1.map record ++ (processSlot slot).2.map record).Perm
      (slot.map record) := by
  have := (List.filter_append_perm (fun e : WheelEntry ↦ decide (e.revolutions = 0)) slot).map
    record
  simpa [processSlot, Function.comp_def] using this

theorem records_decrementRevolutions (n : ℕ) (slot : List WheelEntry) :
    ((decrementRevolutions n slot).1.map record ++
      (decrementRevolutions n slot).2.map record).Perm (slot.map record) := by
  have := (List.filter_append_perm (fun e : WheelEntry ↦ decide (e.revolutions < n)) slot).map
    record
  simpa [decrementRevolutions, Function.comp_def] using this

theorem entries_add (hw : 0 < w.slotCount) (id : ℕ) (expireAtNs : ℤ) :
    ((w.add id expireAtNs).entries.map WheelEntry.id).Perm (id :: w.entries.map WheelEntry.id) := by
  have hi : (w.cursor + w.ticksAhead expireAtNs % w.slotCount) % w.slotCount < w.slots.length :=
    Nat.mod_lt _ hw
  simp only [entries, add]
  generalize (w.cursor + w.ticksAhead expireAtNs % w.slotCount) % w.slotCount = i at hi
  generalize (w.ticksAhead expireAtNs - 1) / w.slotCount = r
  generalize w.slots = ls at hi
  induction ls generalizing i with
  | nil => simp at hi
  | cons l ls ih =>
    cases i with
    | zero => simp
    | succ i =>
      simp only [List.modify_succ_cons, List.flatten_cons, List.map_append]
      have := ih i (by simpa using hi)
      exact (this.append_left _).trans List.perm_middle

theorem entries_remove (w : Wheel) (id : ℕ) :
    (w.remove id).entries = NodeList.unlink WheelEntry.id id w.entries := by
  simp only [entries, remove, NodeList.unlink, List.filter_flatten]
  rfl

@[simp] theorem slotCount_remove (w : Wheel) (id : ℕ) : (w.remove id).slotCount = w.slotCount := by
  simp [slotCount, remove]

@[simp] theorem slotCount_add (w : Wheel) (id : ℕ) (expireAtNs : ℤ) :
    (w.add id expireAtNs).slotCount = w.slotCount := by
  simp [slotCount, add]

@[simp] theorem slotCount_decrementAllRevolutions (w : Wheel) (n : ℕ) :
    (w.decrementAllRevolutions n).2.slotCount = w.slotCount := by
  unfold decrementAllRevolutions
  split <;> simp [slotCount]

@[simp] theorem slotCount_stepSlot (w : Wheel) : w.stepSlot.2.slotCount = w.slotCount := by
  simp [slotCount, stepSlot]

@[simp] theorem slotCount_stepSlots (n : ℕ) (w : Wheel) :
    (stepSlots n w).2.slotCount = w.slotCount := by
  induction n generalizing w with
  | zero => rfl
  | succ n ih => rw [stepSlots, ih, slotCount_stepSlot]

theorem records_decrementAllRevolutions (w : Wheel) (n : ℕ) :
    ((w.decrementAllRevolutions n).1.map record ++
      (w.decrementAllRevolutions n).2.entries.map record).Perm
        (w.entries.map record) := by
  unfold decrementAllRevolutions
  split
  · exact .refl _
  · simp only [entries]
    induction w.slots with
    | nil => exact .refl _
    | cons l ls ih =>
      simp only [List.map_cons, List.flatten_cons, List.map_append]
      have h₁ := records_decrementRevolutions n l
      have h₂ := h₁.append ih
      refine .trans ?_ h₂
      simp only [List.append_assoc]
      exact (List.perm_append_comm_assoc ..).append_left _

theorem records_stepSlot (hw : 0 < w.slotCount) :
    (w.stepSlot.1.map record ++ w.stepSlot.2.entries.map record).Perm
      (w.entries.map record) := by
  have hi : (w.cursor + 1) % w.slotCount < w.slots.length := Nat.mod_lt _ hw
  simp only [stepSlot, entries]
  generalize (w.cursor + 1) % w.slotCount = i at hi
  generalize w.slots = ls at hi
  induction ls generalizing i with
  | nil => simp at hi
  | cons l ls ih =>
    cases i with
    | zero =>
      simpa [← List.append_assoc] using
        (records_processSlot l).append_right (ls.flatten.map record)
    | succ i =>
      have := ih i (by simpa using hi)
      simp only [List.modify_succ_cons, List.flatten_cons, List.map_append, List.getD_cons_succ]
      exact (List.perm_append_comm_assoc ..).trans (this.append_left _)

theorem records_stepSlots (n : ℕ) (hw : 0 < w.slotCount) :
    ((stepSlots n w).1.map record ++ (stepSlots n w).2.entries.map record).Perm
      (w.entries.map record) := by
  induction n generalizing w with
  | zero => exact .refl _
  | succ n ih =>
    have h₁ := ih (w := w.stepSlot.2) (by simpa using hw)
    simp only [stepSlots, List.map_append, List.append_assoc]
    exact (h₁.append_left _).trans (records_stepSlot hw)

theorem records_advanceTo (nowNs : ℤ) (hw : 0 < w.slotCount) :
    ((w.advanceTo nowNs).1.map record ++
      (w.advanceTo nowNs).2.entries.map record).Perm (w.entries.map record) := by
  simp only [advanceTo, List.map_append, List.append_assoc]
  have h := records_stepSlots ((nowNs - w.cursorAtNs).toNat / w.tickNs % w.slotCount)
    (w := (w.decrementAllRevolutions ((nowNs - w.cursorAtNs).toNat / w.tickNs / w.slotCount)).2)
    (by simpa using hw)
  exact (h.append_left _).trans (w.records_decrementAllRevolutions _)

theorem ids_advanceTo (nowNs : ℤ) (hw : 0 < w.slotCount) :
    ((w.advanceTo nowNs).1.map WheelEntry.id ++
      (w.advanceTo nowNs).2.entries.map WheelEntry.id).Perm (w.entries.map WheelEntry.id) := by
  have h := (records_advanceTo nowNs hw).map Prod.fst
  rwa [List.map_append, List.map_map, List.map_map, List.map_map] at h

theorem slotCount_advanceTo (w : Wheel) (nowNs : ℤ) :
    (w.advanceTo nowNs).2.slotCount = w.slotCount := by
  simp only [advanceTo]
  exact (slotCount_stepSlots ..).trans (slotCount_decrementAllRevolutions ..)

end Wheel

/-! ### Laws of the interface -/

namespace Ttl

variable {t : Ttl} {id : ℕ} {expireAt : ℤ}

theorem ids_add (ht : t.WellFormed) (h : expireAt ≠ 0) :
    (t.add id expireAt).ids.Perm (id :: t.ids) := by
  cases t with
  | heap b => simp [add, ids, ExpiryHeap.add, h]
  | wheel w => simpa [add, ids, h] using Wheel.entries_add ht id expireAt

@[simp] theorem add_zero (t : Ttl) (id : ℕ) : t.add id 0 = t := by
  cases t <;> simp [add, ExpiryHeap.add]

theorem ids_remove (t : Ttl) (id : ℕ) : (t.remove id).ids = t.ids.filter (· ≠ id) := by
  cases t with
  | heap b => simp [remove, ids, ExpiryHeap.remove, NodeList.unlink, List.filter_map,
      Function.comp_def]
  | wheel w => simp [remove, ids, Wheel.entries_remove, NodeList.unlink, List.filter_map,
      Function.comp_def]

theorem ids_sweep (ht : t.WellFormed) (now : ℤ) :
    ((t.sweep now).1 ++ (t.sweep now).2.ids).Perm t.ids := by
  cases t with
  | heap b =>
    simp only [sweep, ids, ExpiryHeap.sweep, ← List.map_append]
    refine List.Perm.map _ (((List.perm_insertionSort _ _).append_right _).trans ?_)
    exact List.filter_append_perm (fun n : TtlNode ↦ decide (n.expireAt ≤ now)) b.nodes
  | wheel w => exact Wheel.ids_advanceTo now ht

@[simp] theorem ids_reset (t : Ttl) : t.reset.ids = [] := by
  cases t with
  | heap b => rfl
  | wheel w => simp [reset, ids, Wheel.reset, Wheel.entries]

theorem WellFormed.add (ht : t.WellFormed) (id : ℕ) (expireAt : ℤ) :
    (t.add id expireAt).WellFormed := by
  cases t with
  | heap b => trivial
  | wheel w =>
    simp only [Ttl.add]
    split_ifs
    · exact ht
    · simpa [WellFormed] using ht

theorem WellFormed.remove (ht : t.WellFormed) (id : ℕ) : (t.remove id).WellFormed := by
  cases t with
  | heap b => trivial
  | wheel w => simpa [WellFormed, Ttl.remove] using ht

theorem WellFormed.fix (ht : t.WellFormed) (id : ℕ) (expireAt : ℤ) :
    (t.fix id expireAt).WellFormed := by
  cases t with
  | heap b => trivial
  | wheel w => exact (ht.remove id).add id expireAt

theorem WellFormed.sweep (ht : t.WellFormed) (now : ℤ) : (t.sweep now).2.WellFormed := by
  cases t with
  | heap b => trivial
  | wheel w => simpa [WellFormed, Ttl.sweep, Wheel.slotCount_advanceTo] using ht

theorem wellFormed_wheel_new (slotCount tickNs : ℕ) (originNs : ℤ) :
    (wheel (.new slotCount tickNs originNs)).WellFormed := by
  simp [WellFormed, Wheel.new, Wheel.slotCount]

@[simp] theorem ids_wheel_new (slotCount tickNs : ℕ) (originNs : ℤ) :
    (wheel (.new slotCount tickNs originNs)).ids = [] := by
  simp [ids, Wheel.new, Wheel.entries]

theorem WellFormed.reset (ht : t.WellFormed) : t.reset.WellFormed := by
  cases t with
  | heap b => trivial
  | wheel w => simpa [WellFormed, Ttl.reset, Wheel.reset, Wheel.slotCount] using ht

/-- **`fix` tracks no entry but the one it is called for**, and that one at most once. -/
theorem ids_fix (ht : t.WellFormed) (id : ℕ) (expireAt : ℤ) :
    (t.fix id expireAt).ids.Perm (t.ids.filter (· ≠ id)) ∨
      (t.fix id expireAt).ids.Perm (id :: t.ids.filter (· ≠ id)) := by
  cases t with
  | wheel w =>
    by_cases h : expireAt = 0
    · subst h
      left
      rw [fix, add_zero, ids_remove]
    · right
      rw [← ids_remove]
      exact ids_add (ht.remove id) h
  | heap b =>
    have hrm := ids_remove (.heap b) id
    simp only [fix, ExpiryHeap.fix]
    cases hn : NodeList.lookup TtlNode.id id b.nodes with
    | none =>
      have hself : (Ttl.heap b).ids.filter (· ≠ id) = (Ttl.heap b).ids := by
        simpa [ids, List.filter_eq_self] using NodeList.lookup_eq_none.1 hn
      rw [hself]
      by_cases h : 0 < expireAt
      · right
        simp [ids, h]
      · left
        simp [ids, h]
    | some n =>
      rw [← hrm]
      by_cases h : expireAt = 0
      · left
        simp [h, remove]
      · right
        simp [ids, remove, h]

theorem mem_ids_add (ht : t.WellFormed) {id' : ℕ} (h : id' ∈ t.ids) (id : ℕ) (expireAt : ℤ) :
    id' ∈ (t.add id expireAt).ids := by
  by_cases hzero : expireAt = 0
  · subst hzero
    rwa [add_zero]
  · exact (ids_add ht hzero).mem_iff.2 (List.mem_cons_of_mem _ h)

/-- **`fix` tracks an entry that can expire.** -/
theorem mem_ids_fix_self (ht : t.WellFormed) {id : ℕ} {expireAt : ℤ} (h : 0 < expireAt) :
    id ∈ (t.fix id expireAt).ids := by
  rcases t with b | w
  · simp only [fix, ExpiryHeap.fix]
    rcases hn : NodeList.lookup TtlNode.id id b.nodes with - | x
    · simp [ids, h]
    · simp [ids, h.ne']
  · exact (ids_add (t := (Ttl.wheel w).remove id) (ht.remove id) h.ne').mem_iff.2
      List.mem_cons_self

/-- `fix` gives up no other entry. -/
theorem mem_ids_fix_of_ne (ht : t.WellFormed) {id id' : ℕ} (hne : id' ≠ id) (h : id' ∈ t.ids)
    (expireAt : ℤ) : id' ∈ (t.fix id expireAt).ids := by
  have hmem : id' ∈ t.ids.filter (· ≠ id) := List.mem_filter.2 ⟨h, by simpa using hne⟩
  rcases ids_fix ht id expireAt with hperm | hperm
  · exact hperm.mem_iff.2 hmem
  · exact hperm.mem_iff.2 (List.mem_cons_of_mem _ hmem)

end Ttl

end Memcache
