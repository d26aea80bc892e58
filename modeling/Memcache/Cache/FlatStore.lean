import Memcache.Lib.KeyMap
import Mathlib.Algebra.Group.Nat.Defs
import Mathlib.Data.List.Perm.Basic
import Mathlib.Data.Nat.Find
import Mathlib.Data.Nat.Log
import Mathlib.Data.Nat.Size

/-!
# The flat store

A shard may keep its entries in one table of slots instead of a map. A key is looked for from the slot
that its hash selects, slot after slot and around the end of the table, until it is found or an **empty**
slot shows that it is not there. A deleted entry leaves a **tombstone**, so that the keys that were
placed beyond it are still found; tombstones are reused by later insertions and go away when the table
is rebuilt, at twice the size or in place.

Indices are natural numbers. A slice of slots has far fewer than `2 ^ 63` of them, so that the mask and
the index do not wrap. Where the source would index the table out of range, an operation gives `none`.

The first half of the module is the source's code. The second half says where a probe stops
(`probe_stops`), for every table that has an empty slot.
-/

namespace Memcache

/-- A slot of the table. -/
inductive FlatSlot (K E : Type*) where
  | empty
  | occupied (key : K) (value : E)
  | tombstone
deriving DecidableEq, Repr

namespace FlatSlot

variable {K E : Type*}

/-- What an occupied slot holds. -/
def pair? : FlatSlot K E → Option (K × E)
  | occupied key value => some (key, value)
  | _ => none

def isEmpty : FlatSlot K E → Bool
  | empty => true
  | _ => false

/-- A probe for `key` goes on behind this slot. -/
def passes [BEq K] (key : K) : FlatSlot K E → Bool
  | empty => false
  | occupied k _ => !(k == key)
  | tombstone => true

def isTombstone : FlatSlot K E → Bool
  | tombstone => true
  | _ => false

/-- Replace the value of an occupied slot. -/
def setValue (e : E) : FlatSlot K E → FlatSlot K E
  | occupied key _ => occupied key e
  | slot => slot

end FlatSlot

/-- The flat store. -/
structure FlatStore (K E : Type*) where
  slots : List (FlatSlot K E)
  occupied : ℕ
  tombstones : ℕ
  compactCount : ℕ
deriving DecidableEq, Repr

/-- Slots of a store that was just built. -/
def flatStoreInitialCap : ℕ := 16

/-- The least power of two that is at least `n`. -/
def nextPowerOfTwo (n : ℕ) : ℕ := 2 ^ Nat.clog 2 n

namespace FlatStore

variable {K E : Type*}

def new (initialCap : ℕ) : FlatStore K E where
  slots := List.replicate (nextPowerOfTwo (max initialCap flatStoreInitialCap)) .empty
  occupied := 0
  tombstones := 0
  compactCount := 0

/-! ### Thresholds -/

/-- The slots in use have reached three quarters of the table. -/
def shouldGrowBeforeInsert (s : FlatStore K E) : Bool :=
  decide (3 * s.slots.length ≤ (s.occupied + s.tombstones) * 4)

/-- The tombstones have reached half of the table. -/
def shouldCompactAfterDelete (s : FlatStore K E) : Bool :=
  if s.tombstones = 0 then false else decide (1 * s.slots.length ≤ s.tombstones * 2)

def nextRebuildCap (s : FlatStore K E) : ℕ :=
  if 3 * s.slots.length ≤ s.occupied * 4 then s.slots.length * 2 else s.slots.length

/-! ### Probing -/

/-- Where the probe for a key starts: the high bits of a product, as many as the mask has. -/
def startSlot (hasher : K → UInt64) (mask : ℕ) (key : K) : ℕ :=
  (hasher key * 0x9E3779B97F4A7C15).toNat >>> (64 - mask.size)

section Operations

variable [BEq K]

/-- The probing loop from slot `i` on. `insertIdx` is the first tombstone seen. The loop is left at the
latest when it is back at `start`, so `fuel` is never what ends it. -/
def probeFrom (slots : List (FlatSlot K E)) (mask start : ℕ) (key : K) :
    ℕ → ℕ → Option ℕ → Option ℕ × Bool
  | 0, _, insertIdx => (insertIdx, false)
  | fuel + 1, i, insertIdx =>
    match slots[i]? with
    | none => (insertIdx, false)
    | some .empty => (insertIdx <|> some i, false)
    | some .tombstone =>
      if (i + 1) &&& mask = start then (insertIdx <|> some i, false)
      else probeFrom slots mask start key fuel ((i + 1) &&& mask) (insertIdx <|> some i)
    | some (.occupied k _) =>
      if k == key then (some i, true)
      else if (i + 1) &&& mask = start then (insertIdx, false)
      else probeFrom slots mask start key fuel ((i + 1) &&& mask) insertIdx

variable (hasher : K → UInt64)

/-- The slot of a key, or the slot where it would be inserted. -/
def probe (slots : List (FlatSlot K E)) (key : K) : Option ℕ × Bool :=
  let start := startSlot hasher (slots.length - 1) key
  probeFrom slots (slots.length - 1) start key slots.length start none

/-! ### Operations -/

def get (s : FlatStore K E) (key : K) : Option E :=
  match probe hasher s.slots key with
  | (some idx, true) => (s.slots[idx]?.bind FlatSlot.pair?).map Prod.snd
  | _ => none

/-- Put one slot of the old table into the new one. -/
def reinsert (s : FlatStore K E) : FlatSlot K E → Option (FlatStore K E)
  | .occupied key e =>
    match (probe hasher s.slots key).1 with
    | none => none
    | some idx =>
      some { s with slots := s.slots.set idx (.occupied key e), occupied := s.occupied + 1 }
  | _ => some s

def rebuild (s : FlatStore K E) (newCap : ℕ) : Option (FlatStore K E) :=
  let fresh : FlatStore K E :=
    { s with slots := List.replicate newCap .empty, occupied := 0, tombstones := 0 }
  (s.slots.foldlM (reinsert hasher) fresh).map fun t ↦ { t with compactCount := t.compactCount + 1 }

/-- Write a new entry into the slot a probe has chosen. -/
def fill (s : FlatStore K E) (idx : ℕ) (key : K) (e : E) : Option (FlatStore K E) :=
  match s.slots[idx]? with
  | none => none
  | some .empty =>
    some { s with slots := s.slots.set idx (.occupied key e), occupied := s.occupied + 1 }
  | some .tombstone =>
    some { s with
      slots := s.slots.set idx (.occupied key e)
      occupied := s.occupied + 1
      tombstones := s.tombstones - 1 }
  | some (.occupied k _) => some { s with slots := s.slots.set idx (.occupied k e) }

def set (s : FlatStore K E) (key : K) (e : E) : Option (FlatStore K E) :=
  match probe hasher s.slots key with
  | (some idx, true) => some { s with slots := s.slots.modify idx (FlatSlot.setValue e) }
  | (idx, _) =>
    if idx = none ∨ s.shouldGrowBeforeInsert = true then
      (s.rebuild hasher s.nextRebuildCap).bind fun t ↦
        (probe hasher t.slots key).1.bind fun idx ↦ t.fill idx key e
    else idx.bind fun idx ↦ s.fill idx key e

def del (s : FlatStore K E) (key : K) : Option (FlatStore K E × Bool) :=
  match probe hasher s.slots key with
  | (some idx, true) =>
    let t : FlatStore K E := { s with
      slots := s.slots.set idx .tombstone
      occupied := s.occupied - 1
      tombstones := s.tombstones + 1 }
    if t.shouldCompactAfterDelete then (t.rebuild hasher t.nextRebuildCap).map (·, true)
    else some (t, true)
  | _ => some (s, false)

end Operations

def length (s : FlatStore K E) : ℕ := s.occupied

def clearAll (s : FlatStore K E) : FlatStore K E :=
  { s with slots := s.slots.map fun _ ↦ .empty, occupied := 0, tombstones := 0 }

/-- The entries `fn` is called on, in order: all of them up to the first it refuses. -/
def eachFrom (fn : E → Bool) : List (FlatSlot K E) → List E
  | [] => []
  | .occupied _ e :: slots => e :: if fn e then eachFrom fn slots else []
  | _ :: slots => eachFrom fn slots

def each (s : FlatStore K E) (fn : E → Bool) : List E := eachFrom fn s.slots

/-! ### Where a probe stops -/

variable {slots : List (FlatSlot K E)} {start d e j : ℕ} {key : K} {x : FlatSlot K E}

/-- The slot that is looked at after `d` steps from `start`. -/
def probed (slots : List (FlatSlot K E)) (start d : ℕ) : Option (FlatSlot K E) :=
  slots[(start + d) % slots.length]?

/-- The slot after `e` steps is the first that is not occupied. -/
structure FreeAt (slots : List (FlatSlot K E)) (start e : ℕ) : Prop where
  free : ∃ x, probed slots start e = some x ∧ x.pair? = none
  before : ∀ e' < e, ∃ k v, probed slots start e' = some (.occupied k v)

/-- What `insertIdx` knows after `j` steps. -/
def Seen (slots : List (FlatSlot K E)) (start j : ℕ) : Option ℕ → Prop
  | none => ∀ e < j, ∃ k v, probed slots start e = some (.occupied k v)
  | some i => ∃ e < j, FreeAt slots start e ∧ i = (start + e) % slots.length

variable {insertIdx : Option ℕ}

theorem Seen.occupied {k : K} {v : E} (h : Seen slots start j insertIdx)
    (hx : probed slots start j = some (.occupied k v)) : Seen slots start (j + 1) insertIdx := by
  cases insertIdx with
  | none =>
    intro e he
    rcases Nat.lt_succ_iff_lt_or_eq.1 he with hlt | rfl
    · exact h e hlt
    · exact ⟨k, v, hx⟩
  | some i =>
    obtain ⟨e, he, hfree⟩ := h
    exact ⟨e, Nat.lt_succ_of_lt he, hfree⟩

/-- The first slot that is not occupied is remembered, and no other. -/
theorem Seen.free (h : Seen slots start j insertIdx) (hx : probed slots start j = some x)
    (hfree : x.pair? = none) :
    Seen slots start (j + 1) (insertIdx <|> some ((start + j) % slots.length)) := by
  cases insertIdx with
  | none => exact ⟨j, Nat.lt_succ_self j, ⟨⟨x, hx, hfree⟩, h⟩, rfl⟩
  | some i =>
    obtain ⟨e, he, hfree⟩ := h
    exact ⟨e, Nat.lt_succ_of_lt he, hfree⟩

/-- The walk around the table comes to every slot. -/
theorem exists_probed {i : ℕ} (start : ℕ) (hi : i < slots.length) :
    ∃ d < slots.length, (start + d) % slots.length = i := by
  have hpos : 0 < slots.length := Nat.lt_of_le_of_lt (Nat.zero_le i) hi
  have hmod := Nat.mod_lt start hpos
  refine ⟨(i + (slots.length - start % slots.length)) % slots.length, Nat.mod_lt _ hpos, ?_⟩
  rw [Nat.add_mod_mod, ← Nat.mod_add_mod,
    show start % slots.length + (i + (slots.length - start % slots.length)) = i + slots.length by omega,
    Nat.add_mod_right, Nat.mod_eq_of_lt hi]

/-- What a probe reports that stops after `d` steps at `x`. -/
def Reports (slots : List (FlatSlot K E)) (start d : ℕ) (x : FlatSlot K E) (r : Option ℕ × Bool) :
    Prop :=
  if x.isEmpty then ∃ e ≤ d, FreeAt slots start e ∧ r = (some ((start + e) % slots.length), false)
  else r = (some ((start + d) % slots.length), true)

/-- In a table of a power of two, the mask takes the probe one step around. -/
theorem next_probed {k : ℕ} (hlen : slots.length = 2 ^ k) (start j : ℕ) :
    ((start + j) % slots.length + 1) &&& (slots.length - 1) = (start + (j + 1)) % slots.length := by
  rw [hlen, Nat.and_two_pow_sub_one_eq_mod, Nat.mod_add_mod, Nat.add_assoc]

/-- Fewer steps than there are slots do not lead back to the start. -/
theorem walk_ne_start (hpos : 0 < d) (hd : d < slots.length) :
    (start + d) % slots.length ≠ start := by
  intro hback
  have hdiv := Nat.div_add_mod (start + d) slots.length
  rw [hback] at hdiv
  rcases Nat.eq_zero_or_pos ((start + d) / slots.length) with hz | hz
  · rw [hz] at hdiv
    omega
  · have := Nat.le_mul_of_pos_right slots.length hz
    omega

variable [BEq K]

/-- A probe for `key` passes the slots before step `d` and stops at the slot it looks at then. -/
structure StopsAt (slots : List (FlatSlot K E)) (start : ℕ) (key : K) (d : ℕ) (x : FlatSlot K E) :
    Prop where
  lt : d < slots.length
  slot : probed slots start d = some x
  stops : x.passes key = false
  passed : ∀ d' < d, ∀ y, probed slots start d' = some y → y.passes key = true

/-- **In a table with an empty slot every probe stops**, at the key or at an empty slot. -/
theorem exists_stopsAt (start : ℕ) (key : K) (h : FlatSlot.empty ∈ slots) :
    ∃ d x, StopsAt slots start key d x := by
  obtain ⟨i, hi⟩ := List.mem_iff_getElem?.1 h
  obtain ⟨d, hd, hwalk⟩ := exists_probed start (List.getElem?_eq_some_iff.1 hi).1
  have hex : ∃ d, ∃ x, probed slots start d = some x ∧ x.passes key = false :=
    ⟨d, .empty, by rw [probed, hwalk, hi], rfl⟩
  classical
  have hle : Nat.find hex ≤ d := Nat.find_min' hex ⟨.empty, by rw [probed, hwalk, hi], rfl⟩
  obtain ⟨x, hx, hstops⟩ := Nat.find_spec hex
  refine ⟨Nat.find hex, x, hle.trans_lt hd, hx, hstops, fun d' hd' y hy ↦ ?_⟩
  by_contra hpass
  exact Nat.find_min hex hd' ⟨y, hy, Bool.eq_false_iff.2 hpass⟩

theorem probeFrom_reports {k : ℕ} (hlen : slots.length = 2 ^ k) (h : StopsAt slots start key d x)
    {fuel : ℕ} (hj : j ≤ d) (hfuel : d - j < fuel) (hseen : Seen slots start j insertIdx) :
    Reports slots start d x (probeFrom slots (slots.length - 1) start key fuel
      ((start + j) % slots.length) insertIdx) := by
  induction fuel generalizing j insertIdx with
  | zero => exact absurd hfuel (Nat.not_lt_zero _)
  | succ fuel ih =>
    have hlt : (start + j) % slots.length < slots.length :=
      Nat.mod_lt _ (Nat.lt_of_le_of_lt (Nat.zero_le _) h.lt)
    rcases Nat.eq_or_lt_of_le hj with rfl | hjd
    · rw [probeFrom]
      have hslot := h.slot
      rw [probed] at hslot
      rw [hslot]
      cases x with
      | empty =>
        change ∃ e ≤ j, _
        cases insertIdx with
        | none => exact ⟨j, le_rfl, ⟨⟨_, h.slot, rfl⟩, hseen⟩, rfl⟩
        | some i =>
          obtain ⟨e, he, hfree, rfl⟩ := hseen
          exact ⟨e, he.le, hfree, rfl⟩
      | occupied k v =>
        have hk : (k == key) = true := by simpa [FlatSlot.passes] using h.stops
        change (if k == key then _ else _) = _
        rw [if_pos hk]
      | tombstone => exact absurd h.stops (by simp [FlatSlot.passes])
    · have hback : (start + (j + 1)) % slots.length ≠ start :=
        walk_ne_start (Nat.succ_pos j) (Nat.lt_of_le_of_lt hjd h.lt)
      obtain ⟨y, hy⟩ : ∃ y, probed slots start j = some y :=
        ⟨_, List.getElem?_eq_getElem hlt⟩
      have hpass := h.passed j hjd y hy
      rw [probeFrom, next_probed hlen]
      have hy' := hy
      rw [probed] at hy'
      rw [hy']
      cases y with
      | empty => exact absurd hpass (by simp [FlatSlot.passes])
      | occupied k v =>
        have hk : ¬ (k == key) = true := by simpa [FlatSlot.passes] using hpass
        change Reports slots start d x (if k == key then _ else if _ then _ else _)
        rw [if_neg hk, if_neg hback]
        exact ih hjd (by omega) (hseen.occupied hy)
      | tombstone =>
        change Reports slots start d x (if _ then _ else _)
        rw [if_neg hback]
        exact ih hjd (by omega) (hseen.free hy rfl)

omit [BEq K] in
/-- The start slot is a slot of the table. -/
theorem startSlot_lt {k : ℕ} (hlen : slots.length = 2 ^ k) (hasher : K → UInt64) (key : K) :
    startSlot hasher (slots.length - 1) key < slots.length := by
  have hsize : k ≤ (slots.length - 1).size ∨ k = 0 := by
    rcases Nat.eq_zero_or_pos k with hk | hk
    · exact .inr hk
    · refine .inl (Nat.le_of_not_lt fun hlt ↦ ?_)
      have hle : (slots.length - 1).size ≤ k - 1 := by omega
      have := Nat.size_le.1 hle
      have hdouble : 2 ^ (k - 1) * 2 = 2 ^ k := by rw [← Nat.pow_succ]; congr 1; omega
      have := Nat.two_pow_pos (k - 1)
      omega
  have hle : (slots.length - 1).size ≤ k := by
    rw [Nat.size_le, hlen]
    exact Nat.sub_lt (Nat.two_pow_pos k) Nat.one_pos
  have heq : (slots.length - 1).size = k := by omega
  have hprod := (hasher key * 0x9E3779B97F4A7C15).toNat_lt
  rw [startSlot, Nat.shiftRight_eq_div_pow, heq, hlen]
  refine Nat.div_lt_of_lt_mul (hprod.trans_le ?_)
  rw [← Nat.pow_add]
  exact Nat.pow_le_pow_right Nat.two_pos (by omega)

/-- **A probe stops**, at the key or at an empty slot, and reports what it has found there. -/
theorem probe_stops {k : ℕ} (hlen : slots.length = 2 ^ k) (hempty : FlatSlot.empty ∈ slots)
    (hasher : K → UInt64) (key : K) :
    ∃ d x, StopsAt slots (startSlot hasher (slots.length - 1) key) key d x ∧
      Reports slots (startSlot hasher (slots.length - 1) key) d x (probe hasher slots key) := by
  obtain ⟨d, x, hstop⟩ := exists_stopsAt (startSlot hasher (slots.length - 1) key) key hempty
  have hlt := startSlot_lt hlen hasher key
  have hseen : Seen slots (startSlot hasher (slots.length - 1) key) 0 none :=
    fun e he ↦ absurd he (Nat.not_lt_zero e)
  have hfuel : d - 0 < slots.length := hstop.lt
  have hreports := probeFrom_reports hlen hstop (Nat.zero_le d) hfuel hseen
  rw [Nat.add_zero, Nat.mod_eq_of_lt hlt] at hreports
  exact ⟨d, x, hstop, hreports⟩

end FlatStore

end Memcache
