import Memcache.Expiry.Backend
import Mathlib.Tactic.Linarith
import Mathlib.Tactic.Positivity

/-!
# No entry is due early

A backend hands out an entry because of the instant it tracks it under. The heap compares that
instant with the clock. The wheel does not look at it again: it has turned it into a slot and a number
of revolutions, and **the cursor reaches the entry only after it** (`Wheel.Timely`). So whatever a
sweep at `now` reports was tracked under an instant no later than `now` (`Ttl.exists_due`).
-/

namespace Memcache

namespace Wheel

variable {w : Wheel} {j : ℕ} {slot : List WheelEntry} {x : WheelEntry}

/-- Ticks until the cursor comes to slot `j` and finds `revolutions` worked off. -/
def ticksUntil (w : Wheel) (j revolutions : ℕ) : ℕ :=
  (if w.cursor < j then j - w.cursor else j + w.slotCount - w.cursor) + revolutions * w.slotCount

/-- A wheel whose cursor stands at an instant waits with every entry at least to the entry's own. -/
structure TimelyAt (w : Wheel) (cursorAt : ℤ) : Prop where
  tick : 0 < w.tickNs
  cursor : w.cursor < w.slotCount
  due : ∀ {j : ℕ} {slot : List WheelEntry} {x : WheelEntry}, w.slots[j]? = some slot → x ∈ slot →
    x.expireAtNs ≤ cursorAt + w.ticksUntil j x.revolutions * w.tickNs

/-- Every entry waits at least to its instant. -/
def Timely (w : Wheel) : Prop := w.TimelyAt w.cursorAtNs

theorem mem_entries :
    x ∈ w.entries ↔ ∃ (j : ℕ) (slot : List WheelEntry), w.slots[j]? = some slot ∧ x ∈ slot := by
  rw [entries, List.mem_flatten]
  constructor
  · rintro ⟨slot, hslot, hx⟩
    obtain ⟨j, hj⟩ := List.mem_iff_getElem?.1 hslot
    exact ⟨j, slot, hj, hx⟩
  · rintro ⟨j, slot, hj, hx⟩
    exact ⟨slot, List.mem_of_getElem? hj, hx⟩

theorem lt_slotCount (h : w.slots[j]? = some slot) : j < w.slotCount :=
  (List.getElem?_eq_some_iff.1 h).1

/-- The ticks ahead reach the instant. -/
theorem le_ticksAhead (w : Wheel) (h : 0 < w.tickNs) (expireAtNs : ℤ) :
    expireAtNs ≤ w.cursorAtNs + w.ticksAhead expireAtNs * w.tickNs := by
  have hdiv := Nat.div_add_mod (expireAtNs - w.cursorAtNs).toNat w.tickNs
  have hmod := Nat.mod_lt (expireAtNs - w.cursorAtNs).toNat h
  have hround : (expireAtNs - w.cursorAtNs).toNat ≤
      ((expireAtNs - w.cursorAtNs).toNat / w.tickNs +
        if (expireAtNs - w.cursorAtNs).toNat % w.tickNs = 0 then 0 else 1) * w.tickNs := by
    rw [Nat.add_mul, Nat.mul_comm (_ / _)]
    split_ifs with hz
    · omega
    · omega
  have := hround.trans (Nat.mul_le_mul_right w.tickNs (le_max_left _ 1))
  have hcast : ((expireAtNs - w.cursorAtNs).toNat : ℤ) ≤ w.ticksAhead expireAtNs * w.tickNs := by
    exact_mod_cast this
  have := Int.self_le_toNat (expireAtNs - w.cursorAtNs)
  linarith

namespace TimelyAt

variable {cursorAt : ℤ} {n : ℕ}

/-- Dropping entries keeps a wheel timely. -/
theorem of_slots (h : w.TimelyAt cursorAt) {slots : List (List WheelEntry)}
    (hlen : slots.length = w.slots.length)
    (hsub : ∀ (j : ℕ) slot, slots[j]? = some slot → ∀ x ∈ slot, ∃ old, w.slots[j]? = some old ∧ x ∈ old) :
    ({ w with slots := slots } : Wheel).TimelyAt cursorAt where
  tick := h.tick
  cursor := h.cursor.trans_eq hlen.symm
  due hj hx := by
    obtain ⟨old, hold, hmem⟩ := hsub _ _ hj _ hx
    have := h.due hold hmem
    simpa only [ticksUntil, slotCount, hlen] using this

/-- **The ticks that `add` waits for are the ones it counted**: a slot ahead and full revolutions. -/
theorem ticksUntil_add {c s d : ℕ} (hc : c < s) (hd : 0 < d) :
    (if c < (c + d % s) % s then (c + d % s) % s - c else (c + d % s) % s + s - c) +
      (d - 1) / s * s = d := by
  have hs : 0 < s := by omega
  have hm := Nat.mod_lt d hs
  have hdiv := Nat.div_add_mod d s
  have hprev := Nat.div_add_mod (d - 1) s
  have hmprev := Nat.mod_lt (d - 1) hs
  set q := d / s with hq
  rcases Nat.eq_zero_or_pos (d % s) with hz | hz
  · -- a whole number of revolutions ends in the slot under the cursor
    have hq1 : 1 ≤ q := by
      rcases Nat.eq_zero_or_pos q with h0 | h0
      · rw [h0, hz] at hdiv
        omega
      · exact h0
    have hpq : (d - 1) / s = q - 1 := by
      refine Nat.div_eq_of_lt_le ?_ ?_
      · have : (q - 1) * s + s = q * s := by rw [← Nat.succ_mul]; congr 1; omega
        rw [Nat.mul_comm s q] at hdiv
        omega
      · rw [show q - 1 + 1 = q by omega, Nat.mul_comm]
        omega
    have hstep : (q - 1) * s + s = q * s := by rw [← Nat.succ_mul]; congr 1; omega
    rw [hz, Nat.add_zero, Nat.mod_eq_of_lt hc, if_neg (lt_irrefl c), hpq]
    rw [Nat.mul_comm s q] at hdiv
    omega
  · have hpq : (d - 1) / s = q := by
      refine Nat.div_eq_of_lt_le ?_ ?_
      · rw [Nat.mul_comm]
        omega
      · rw [Nat.succ_mul, Nat.mul_comm]
        omega
    rw [hpq, Nat.mul_comm q s]
    rcases lt_or_ge (c + d % s) s with hlt | hge
    · rw [Nat.mod_eq_of_lt hlt, if_pos (by omega)]
      omega
    · have hwrap : (c + d % s) % s = c + d % s - s := by
        rw [Nat.mod_eq_sub_mod hge, Nat.mod_eq_of_lt (by omega)]
      rw [hwrap, if_neg (by omega)]
      omega

theorem add (h : w.TimelyAt w.cursorAtNs) (id : ℕ) (expireAtNs : ℤ) :
    (w.add id expireAtNs).TimelyAt w.cursorAtNs where
  tick := h.tick
  cursor := h.cursor.trans_eq (slotCount_add ..).symm
  due := by
    intro j slot x hj hx
    have hticks : (w.add id expireAtNs).ticksUntil j x.revolutions = w.ticksUntil j x.revolutions := by
      rw [ticksUntil, slotCount_add]
      rfl
    rw [hticks]
    simp only [Wheel.add, List.getElem?_modify, Option.map_eq_map, Option.map_eq_some_iff] at hj
    obtain ⟨old, hold, rfl⟩ := hj
    split_ifs at hx with hslot
    · rcases List.mem_cons.1 hx with rfl | hx
      · subst hslot
        have hahead : 0 < w.ticksAhead expireAtNs := lt_max_of_lt_right Nat.one_pos
        show expireAtNs ≤ w.cursorAtNs + (w.ticksUntil _ _ : ℕ) * (w.tickNs : ℤ)
        rw [ticksUntil, ticksUntil_add h.cursor hahead]
        exact w.le_ticksAhead h.tick expireAtNs
      · exact h.due hold hx
    · exact h.due hold hx

theorem remove (h : w.TimelyAt cursorAt) (id : ℕ) : (w.remove id).TimelyAt cursorAt := by
  refine h.of_slots (List.length_map _) fun j slot hj x hx ↦ ?_
  rw [List.getElem?_map, Option.map_eq_some_iff] at hj
  obtain ⟨old, hold, rfl⟩ := hj
  exact ⟨old, hold, (NodeList.mem_unlink.1 hx).1⟩

/-- Skipped revolutions. -/
theorem decrementAllRevolutions (h : w.TimelyAt cursorAt) (n : ℕ) :
    (w.decrementAllRevolutions n).2.TimelyAt (cursorAt + n * w.slotCount * w.tickNs) ∧
      ∀ x ∈ (w.decrementAllRevolutions n).1,
        x.expireAtNs ≤ cursorAt + n * w.slotCount * w.tickNs := by
  rcases Nat.eq_zero_or_pos n with rfl | hn
  · simpa [Wheel.decrementAllRevolutions] using h
  rw [Wheel.decrementAllRevolutions, if_neg hn.ne']
  have hcount : ({ w with slots := w.slots.map fun slot ↦ (decrementRevolutions n slot).2 } :
      Wheel).slotCount = w.slotCount := List.length_map _
  refine ⟨⟨h.tick, h.cursor.trans_eq hcount.symm, fun {j slot x} hj hx ↦ ?_⟩, fun x hx ↦ ?_⟩
  · rw [List.getElem?_map, Option.map_eq_some_iff] at hj
    obtain ⟨old, hold, rfl⟩ := hj
    obtain ⟨y, hy, rfl⟩ := List.mem_map.1 hx
    obtain ⟨hy, hrev⟩ := List.mem_filter.1 hy
    have hle : n ≤ y.revolutions := by simpa using hrev
    refine (h.due hold hy).trans_eq ?_
    have hticks : w.ticksUntil j y.revolutions =
        n * w.slotCount + w.ticksUntil j (y.revolutions - n) := by
      have := Nat.add_mul n (y.revolutions - n) w.slotCount
      rw [Nat.add_sub_cancel' hle] at this
      simp only [ticksUntil]
      omega
    have hsame : ({ w with slots := w.slots.map fun slot ↦ (decrementRevolutions n slot).2 } :
        Wheel).ticksUntil j (y.revolutions - n) = w.ticksUntil j (y.revolutions - n) := by
      rw [ticksUntil, hcount]
      rfl
    show _ = cursorAt + n * w.slotCount * w.tickNs + (Wheel.ticksUntil _ j (y.revolutions - n) : ℕ) *
      (w.tickNs : ℤ)
    rw [hsame, hticks]
    push_cast
    ring
  · obtain ⟨l, hl, hx⟩ := List.mem_flatten.1 hx
    obtain ⟨old, hold, rfl⟩ := List.mem_map.1 hl
    obtain ⟨j, hj⟩ := List.mem_iff_getElem?.1 hold
    obtain ⟨hx, hrev⟩ := List.mem_filter.1 hx
    have hlt : x.revolutions + 1 ≤ n := of_decide_eq_true hrev
    refine (h.due hj hx).trans ?_
    have hcursor := h.cursor
    have hslot := lt_slotCount hj
    have hticks : w.ticksUntil j x.revolutions ≤ n * w.slotCount := by
      have := Nat.mul_le_mul_right w.slotCount hlt
      rw [Nat.succ_mul] at this
      simp only [ticksUntil]
      split_ifs <;> omega
    have := Nat.mul_le_mul_right w.tickNs hticks
    push_cast [← Int.ofNat_le] at this
    linarith

/-- One slot further. -/
theorem stepSlot (h : w.TimelyAt cursorAt) :
    w.stepSlot.2.TimelyAt (cursorAt + w.tickNs) ∧
      ∀ x ∈ w.stepSlot.1, x.expireAtNs ≤ cursorAt + w.tickNs := by
  have hcursor := h.cursor
  have hlt : (w.cursor + 1) % w.slotCount < w.slotCount := Nat.mod_lt _ (by omega)
  set next := (w.cursor + 1) % w.slotCount with hnext
  have hval : next = w.cursor + 1 ∨ next = 0 ∧ w.cursor + 1 = w.slotCount := by
    rcases lt_or_ge (w.cursor + 1) w.slotCount with hl | hl
    · exact .inl (Nat.mod_eq_of_lt hl)
    · have : w.cursor + 1 = w.slotCount := by omega
      exact .inr ⟨by rw [hnext, this, Nat.mod_self], this⟩
  -- the tick that was made is the one every waiting entry has less to wait for
  have hsame (r : ℕ) : w.ticksUntil next r = 1 + r * w.slotCount := by
    simp only [ticksUntil]
    split_ifs <;> omega
  refine ⟨⟨h.tick, hlt.trans_eq (slotCount_stepSlot w).symm, fun {j slot x} hj hx ↦ ?_⟩,
    fun x hx ↦ ?_⟩
  · have hstep (r : ℕ) : w.stepSlot.2.ticksUntil j r =
        (if next < j then j - next else j + w.slotCount - next) + r * w.slotCount := by
      rw [ticksUntil, slotCount_stepSlot]
      rfl
    rw [hstep]
    show x.expireAtNs ≤ cursorAt + w.tickNs + _ * (w.tickNs : ℤ)
    simp only [Wheel.stepSlot, List.getElem?_modify, Option.map_eq_map, Option.map_eq_some_iff] at hj
    obtain ⟨old, hold, rfl⟩ := hj
    have hslot := lt_slotCount hold
    split_ifs at hx with hj
    · subst hj
      obtain ⟨y, hy, rfl⟩ := List.mem_map.1 hx
      obtain ⟨hy, hrev⟩ := List.mem_filter.1 hy
      have hpos : y.revolutions ≠ 0 := by simpa using hrev
      refine (h.due hold hy).trans_eq ?_
      have hy' := Nat.succ_mul (y.revolutions - 1) w.slotCount
      rw [Nat.succ_eq_add_one, Nat.sub_add_cancel (Nat.one_le_iff_ne_zero.2 hpos)] at hy'
      rw [hsame, if_neg (lt_irrefl _), hy', Nat.add_sub_cancel_left]
      push_cast
      ring
    · refine (h.due hold hx).trans_eq ?_
      have : w.ticksUntil j x.revolutions =
          (if next < j then j - next else j + w.slotCount - next) + x.revolutions * w.slotCount + 1 := by
        simp only [ticksUntil]
        split_ifs <;> omega
      rw [this]
      push_cast
      ring
  · simp only [Wheel.stepSlot, ← hnext] at hx
    obtain ⟨hx, hrev⟩ := List.mem_filter.1 hx
    have hzero : x.revolutions = 0 := by simpa using hrev
    have hj : w.slots[next]? = some (w.slots.getD next []) := by
      rw [List.getD_eq_getElem?_getD, List.getElem?_eq_getElem hlt]
      rfl
    have := h.due hj hx
    rw [hzero, hsame] at this
    simpa using this

theorem stepSlots (h : w.TimelyAt cursorAt) (n : ℕ) :
    (Wheel.stepSlots n w).2.TimelyAt (cursorAt + n * w.tickNs) ∧
      ∀ x ∈ (Wheel.stepSlots n w).1, x.expireAtNs ≤ cursorAt + n * w.tickNs := by
  induction n generalizing w cursorAt with
  | zero => simpa [Wheel.stepSlots] using h
  | succ n ih =>
    obtain ⟨hstep, hout⟩ := h.stepSlot
    obtain ⟨hrest, houts⟩ := ih hstep
    have hat : cursorAt + w.tickNs + n * (w.stepSlot.2.tickNs : ℤ) = cursorAt + (n + 1 : ℕ) * w.tickNs := by
      show cursorAt + w.tickNs + n * (w.tickNs : ℤ) = _
      push_cast
      ring
    rw [hat] at hrest houts
    refine ⟨hrest, fun x hx ↦ ?_⟩
    rcases List.mem_append.1 hx with hx | hx
    · refine (hout x hx).trans ?_
      have : (0 : ℤ) ≤ n * (w.tickNs : ℤ) := by positivity
      push_cast
      linarith
    · exact houts x hx

/-- **The wheel hands out nothing early**, and stays timely. -/
theorem advanceTo (h : w.Timely) (nowNs : ℤ) :
    (w.advanceTo nowNs).2.Timely ∧ ∀ x ∈ (w.advanceTo nowNs).1, x.expireAtNs ≤ nowNs := by
  set steps := (nowNs - w.cursorAtNs).toNat / w.tickNs with hsteps
  obtain ⟨hskip, hskipped⟩ := decrementAllRevolutions h (steps / w.slotCount)
  obtain ⟨hwalk, hwalked⟩ := hskip.stepSlots (steps % w.slotCount)
  have htick : (w.decrementAllRevolutions (steps / w.slotCount)).2.tickNs = w.tickNs := by
    unfold Wheel.decrementAllRevolutions
    split_ifs <;> rfl
  have hat : w.cursorAtNs + (steps / w.slotCount : ℕ) * w.slotCount * w.tickNs +
      (steps % w.slotCount : ℕ) * w.tickNs = w.cursorAtNs + steps * w.tickNs := by
    have := Nat.div_add_mod' steps w.slotCount
    calc _ = w.cursorAtNs + ((steps / w.slotCount * w.slotCount + steps % w.slotCount : ℕ) : ℤ) *
          w.tickNs := by push_cast; ring
      _ = _ := by rw [this]
  rw [htick, hat] at hwalk hwalked
  refine ⟨⟨hwalk.tick, hwalk.cursor, hwalk.due⟩, fun x hx ↦ ?_⟩
  rcases Nat.eq_zero_or_pos steps with h0 | h0
  · -- before the next tick nothing is processed at all
    simp [Wheel.advanceTo, ← hsteps, h0, Wheel.decrementAllRevolutions, Wheel.stepSlots] at hx
  have hpast : 0 < nowNs - w.cursorAtNs := by
    by_contra hle
    rw [Int.toNat_of_nonpos (by omega), Nat.zero_div] at hsteps
    omega
  have hreach : (steps : ℤ) * w.tickNs ≤ nowNs - w.cursorAtNs := by
    have := Nat.div_mul_le_self (nowNs - w.cursorAtNs).toNat w.tickNs
    rw [← hsteps] at this
    have hcast : (steps : ℤ) * w.tickNs ≤ ((nowNs - w.cursorAtNs).toNat : ℤ) := by exact_mod_cast this
    rwa [Int.toNat_of_nonneg hpast.le] at hcast
  rcases List.mem_append.1 hx with hx | hx
  · have := hskipped x hx
    have : (0 : ℤ) ≤ (steps % w.slotCount : ℕ) * (w.tickNs : ℤ) := by positivity
    linarith
  · have := hwalked x hx
    linarith

end TimelyAt

theorem timely_new (slotCount tickNs : ℕ) (originNs : ℤ) : (new slotCount tickNs originNs).Timely where
  tick := lt_max_of_lt_right Nat.one_pos
  cursor := by simp [new, Wheel.slotCount]
  due hj hx := by
    rw [new, List.getElem?_replicate] at hj
    split_ifs at hj
    obtain rfl := Option.some.inj hj
    cases hx

theorem Timely.reset (h : w.Timely) : w.reset.Timely where
  tick := h.tick
  cursor := by
    have := h.cursor
    simp only [Wheel.reset, slotCount, List.length_map] at this ⊢
    omega
  due hj hx := by
    rw [Wheel.reset, List.getElem?_map, Option.map_eq_some_iff] at hj
    obtain ⟨-, -, rfl⟩ := hj
    cases hx

end Wheel

/-! ### The interface -/

namespace Ttl

variable {t : Ttl} {id : ℕ} {expireAt : ℤ} {r : ℕ × ℤ}

/-- The instants tracked, each with its identity. -/
def records : Ttl → List (ℕ × ℤ)
  | .heap b => b.nodes.map fun e ↦ (e.id, e.expireAt)
  | .wheel w => w.entries.map WheelEntry.record

/-- Nothing is handed out early. -/
def Timely : Ttl → Prop
  | .heap _ => True
  | .wheel w => w.Timely

theorem ids_eq (t : Ttl) : t.ids = t.records.map Prod.fst := by
  cases t with
  | heap b => simp [ids, records, Function.comp_def]
  | wheel w => simp [ids, records, Function.comp_def, WheelEntry.record]

theorem mem_records_add (h : r ∈ (t.add id expireAt).records) :
    expireAt ≠ 0 ∧ r = (id, expireAt) ∨ r ∈ t.records := by
  rcases t with b | w
  · simp only [add, ExpiryHeap.add, records] at h
    split_ifs at h with hzero
    · exact .inr h
    · rw [List.map_append] at h
      rcases List.mem_append.1 h with h | h
      · exact .inr h
      · exact .inl ⟨hzero, List.mem_singleton.1 h⟩
  · simp only [add] at h
    split_ifs at h with hzero
    · exact .inr h
    · obtain ⟨x, hx, rfl⟩ := List.mem_map.1 h
      obtain ⟨j, slot, hj, hx⟩ := Wheel.mem_entries.1 hx
      simp only [Wheel.add, List.getElem?_modify, Option.map_eq_map, Option.map_eq_some_iff] at hj
      obtain ⟨old, hold, rfl⟩ := hj
      have hmem (hx : x ∈ old) : x.record ∈ (Ttl.wheel w).records :=
        List.mem_map_of_mem (Wheel.mem_entries.2 ⟨j, old, hold, hx⟩)
      split_ifs at hx
      · rcases List.mem_cons.1 hx with rfl | hx
        · exact .inl ⟨hzero, rfl⟩
        · exact .inr (hmem hx)
      · exact .inr (hmem hx)

theorem mem_records_remove (h : r ∈ (t.remove id).records) : r ∈ t.records ∧ r.1 ≠ id := by
  rcases t with b | w
  · obtain ⟨e, he, rfl⟩ := List.mem_map.1 h
    obtain ⟨he, hid⟩ := NodeList.mem_unlink.1 he
    exact ⟨List.mem_map_of_mem he, hid⟩
  · obtain ⟨x, hx, rfl⟩ := List.mem_map.1 h
    rw [Wheel.entries_remove] at hx
    obtain ⟨hx, hid⟩ := NodeList.mem_unlink.1 hx
    exact ⟨List.mem_map_of_mem hx, hid⟩

/-- After `fix` an entry is tracked under its new instant only. -/
theorem mem_records_fix (h : r ∈ (t.fix id expireAt).records) :
    expireAt ≠ 0 ∧ r = (id, expireAt) ∨ r ∈ t.records ∧ r.1 ≠ id := by
  rcases t with b | w
  · simp only [fix, ExpiryHeap.fix] at h
    rcases hn : NodeList.lookup TtlNode.id id b.nodes with - | x
    · have hne : ∀ r ∈ (Ttl.heap b).records, r.1 ≠ id := by
        intro r hr
        obtain ⟨e, he, rfl⟩ := List.mem_map.1 hr
        exact NodeList.lookup_eq_none.1 hn e he
      rw [hn] at h
      dsimp only at h
      split_ifs at h with hpos
      · simp only [records, List.map_append] at h
        rcases List.mem_append.1 h with h | h
        · exact .inr ⟨h, hne r h⟩
        · exact .inl ⟨hpos.ne', List.mem_singleton.1 h⟩
      · exact .inr ⟨h, hne r h⟩
    · rw [hn] at h
      dsimp only at h
      split_ifs at h with hzero
      · exact .inr (mem_records_remove h)
      · simp only [records, List.map_append] at h
        rcases List.mem_append.1 h with h | h
        · exact .inr (mem_records_remove (t := .heap b) h)
        · exact .inl ⟨hzero, List.mem_singleton.1 h⟩
  · exact (mem_records_add h).imp_right mem_records_remove

/-- **A sweep reports entries tracked under instants that have passed**, and untracks no other. -/
theorem exists_due (ht : t.WellFormed) (htimely : t.Timely) (now : ℤ) :
    ∃ due : List (ℕ × ℤ), (t.sweep now).1 = due.map Prod.fst ∧
      (due ++ (t.sweep now).2.records).Perm t.records ∧ ∀ r ∈ due, r.2 ≤ now := by
  rcases t with b | w
  · refine ⟨((b.nodes.filter (·.expireAt ≤ now)).insertionSort (·.expireAt ≤ ·.expireAt)).map
      fun e ↦ (e.id, e.expireAt), by simp [sweep, ExpiryHeap.sweep, Function.comp_def], ?_, ?_⟩
    · simp only [sweep, records, ExpiryHeap.sweep, ← List.map_append]
      refine List.Perm.map _ (((List.perm_insertionSort _ _).append_right _).trans ?_)
      exact List.filter_append_perm (fun e : TtlNode ↦ decide (e.expireAt ≤ now)) b.nodes
    · intro r hr
      obtain ⟨e, he, rfl⟩ := List.mem_map.1 hr
      have := List.mem_filter.1 ((List.perm_insertionSort _ _).mem_iff.1 he)
      simpa using this.2
  · refine ⟨(w.advanceTo now).1.map WheelEntry.record,
      by simp [sweep, Function.comp_def, WheelEntry.record], Wheel.records_advanceTo now ht, ?_⟩
    intro r hr
    obtain ⟨x, hx, rfl⟩ := List.mem_map.1 hr
    exact (Wheel.TimelyAt.advanceTo htimely now).2 x hx

namespace Timely

theorem add (ht : t.Timely) (id : ℕ) (expireAt : ℤ) : (t.add id expireAt).Timely := by
  rcases t with b | w
  · trivial
  · simp only [Ttl.add]
    split_ifs
    · exact ht
    · exact Wheel.TimelyAt.add ht id expireAt

theorem remove (ht : t.Timely) (id : ℕ) : (t.remove id).Timely := by
  rcases t with b | w
  · trivial
  · exact Wheel.TimelyAt.remove ht id

theorem fix (ht : t.Timely) (id : ℕ) (expireAt : ℤ) : (t.fix id expireAt).Timely := by
  rcases t with b | w
  · trivial
  · exact (ht.remove id).add id expireAt

theorem sweep (ht : t.Timely) (now : ℤ) : (t.sweep now).2.Timely := by
  rcases t with b | w
  · trivial
  · exact (Wheel.TimelyAt.advanceTo ht now).1

theorem reset (ht : t.Timely) : t.reset.Timely := by
  rcases t with b | w
  · trivial
  · exact Wheel.Timely.reset ht

end Timely

end Ttl

end Memcache
