import Memcache.Cache.FlatStore

/-!
# The flat store is a map

The map a table stands for is the list of its occupied slots (`pairs`). A table is `Sound` when no key
is in it twice and every key is **reached** from its start slot without coming by an empty slot. Nothing
that happens to a table apart from a rebuild makes a slot empty, so what was reached stays reached; a
rebuild starts from a table of empty slots and places the keys one after another.

`Valid` adds the two counters and that they leave room: with fewer slots in use than the table has, an
empty slot exists and every probe ends there or earlier. The thresholds of the source keep it so. The
operations then answer as those of a `KeyMap` do, in every run from a new store (`run_answers`).
-/

namespace Memcache.FlatStore

open FlatSlot (isTombstone setValue isEmpty passes)

variable {K E : Type*} {slots : List (FlatSlot K E)} {x y : FlatSlot K E} {i j start : ℕ} {key k : K}
  {e v : E}

/-! ### The pairs of a table -/

/-- What the occupied slots hold. -/
def pairs (slots : List (FlatSlot K E)) : List (K × E) :=
  slots.filterMap FlatSlot.pair?

@[simp] theorem pairs_replicate (n : ℕ) : pairs (List.replicate n (.empty : FlatSlot K E)) = [] := by
  rw [pairs, List.filterMap_replicate_of_none rfl]

theorem exists_split (h : slots[i]? = some x) :
    ∃ l₁ l₂, slots = l₁ ++ x :: l₂ ∧ ∀ y, slots.set i y = l₁ ++ y :: l₂ := by
  obtain ⟨hi, rfl⟩ := List.getElem?_eq_some_iff.1 h
  refine ⟨slots.take i, slots.drop (i + 1), ?_, fun y ↦ ?_⟩
  · rw [List.getElem_cons_drop, List.take_append_drop]
  · rw [List.set_eq_take_append_cons_drop, if_pos hi]

theorem mem_pairs : (k, v) ∈ pairs slots ↔ ∃ i : ℕ, slots[i]? = some (.occupied k v) := by
  rw [pairs, List.mem_filterMap]
  constructor
  · rintro ⟨x, hx, hpair⟩
    obtain ⟨i, hi⟩ := List.mem_iff_getElem?.1 hx
    cases x with
    | occupied k' v' =>
      cases hpair
      exact ⟨i, hi⟩
    | empty => cases hpair
    | tombstone => cases hpair
  · rintro ⟨i, hi⟩
    exact ⟨_, List.mem_of_getElem? hi, rfl⟩

/-- A slot that is filled adds its pair. -/
theorem pairs_fill (h : slots[i]? = some x) (hx : x.pair? = none) (k : K) (v : E) :
    (pairs (slots.set i (.occupied k v))).Perm ((k, v) :: pairs slots) := by
  obtain ⟨l₁, l₂, rfl, hset⟩ := exists_split h
  rw [hset, pairs, pairs, List.filterMap_append, List.filterMap_append, List.filterMap_cons_none hx]
  exact List.perm_middle

/-- A slot that is cleared takes its pair away. -/
theorem pairs_clear (h : slots[i]? = some (.occupied k v)) (hy : y.pair? = none) :
    (pairs slots).Perm ((k, v) :: pairs (slots.set i y)) := by
  obtain ⟨l₁, l₂, rfl, hset⟩ := exists_split h
  rw [hset, pairs, pairs, List.filterMap_append, List.filterMap_append, List.filterMap_cons_none hy]
  exact List.perm_middle

/-- Every slot is occupied, a tombstone or empty. -/
theorem length_eq (slots : List (FlatSlot K E)) :
    slots.length = (pairs slots).length + slots.countP isTombstone +
      slots.countP isEmpty := by
  induction slots with
  | nil => rfl
  | cons x slots ih =>
    rw [pairs] at ih ⊢
    cases x
    all_goals
      simp only [List.filterMap_cons, FlatSlot.pair?, List.countP_cons, isTombstone, isEmpty,
        List.length_cons]
      simpa using by omega

/-- **A table with fewer slots in use than it has keeps an empty one.** -/
theorem empty_mem (h : (pairs slots).length + slots.countP isTombstone < slots.length) :
    FlatSlot.empty ∈ slots := by
  have hpos : 0 < slots.countP isEmpty := by
    have := length_eq slots
    omega
  obtain ⟨x, hx, hempty⟩ := List.countP_pos_iff.1 hpos
  cases x with
  | empty => exact hx
  | occupied k v => cases hempty
  | tombstone => cases hempty

/-! ### Keys that are reached -/

/-- Slot `i` is reached from `start` without coming by an empty slot. -/
def Reaches (slots : List (FlatSlot K E)) (start i : ℕ) : Prop :=
  ∃ d < slots.length, (start + d) % slots.length = i ∧
    ∀ d' < d, probed slots start d' ≠ some .empty

/-- Slots that are not emptied stay on the way. -/
theorem Reaches.set (h : Reaches slots start i) (hy : y ≠ .empty) (j : ℕ) :
    Reaches (slots.set j y) start i := by
  obtain ⟨d, hd, hwalk, hway⟩ := h
  refine ⟨d, by rwa [List.length_set], by rwa [List.length_set], fun d' hd' hempty ↦ ?_⟩
  rw [probed, List.length_set, List.getElem?_set] at hempty
  split_ifs at hempty with heq hlt
  · exact hy (Option.some.inj hempty)
  · exact hway d' hd' hempty

/-- The first slot that is not occupied is reached. -/
theorem FreeAt.reaches {d : ℕ} (h : FreeAt slots start d) (hd : d < slots.length) :
    Reaches slots start ((start + d) % slots.length) := by
  refine ⟨d, hd, rfl, fun d' hd' hempty ↦ ?_⟩
  obtain ⟨k, v, hocc⟩ := h.before d' hd'
  rw [hocc] at hempty
  cases hempty

variable [BEq K]

/-- No key is in the table twice, and every key is reached from its start slot. -/
structure Sound (hasher : K → UInt64) (slots : List (FlatSlot K E)) : Prop where
  pow : ∃ n, slots.length = 2 ^ n
  unique : (KeyMap.mk (pairs slots)).Unique
  reach : ∀ (i : ℕ) k v, slots[i]? = some (.occupied k v) →
    Reaches slots (startSlot hasher (slots.length - 1) k) i

variable {hasher : K → UInt64}

/-- Writing a slot keeps a table sound, unless it empties the slot, repeats a key or puts a key where
it is not reached. -/
theorem Sound.set (h : Sound hasher slots) (hy : y ≠ .empty)
    (hunique : (KeyMap.mk (pairs (slots.set j y))).Unique)
    (hreach : ∀ k v, y = .occupied k v →
      Reaches slots (startSlot hasher (slots.length - 1) k) j) :
    Sound hasher (slots.set j y) where
  pow := by rw [List.length_set]; exact h.pow
  unique := hunique
  reach i k v hi := by
    rw [List.length_set]
    refine Reaches.set ?_ hy j
    rw [List.getElem?_set] at hi
    split_ifs at hi with heq hlt
    · exact heq ▸ hreach k v (Option.some.inj hi)
    · exact h.reach i k v hi

/-- What a probe for a key tells about the table. -/
inductive Finding (hasher : K → UInt64) (slots : List (FlatSlot K E)) (key : K) : Option ℕ × Bool → Prop
  | found {i : ℕ} {v : E} (slot : slots[i]? = some (.occupied key v)) :
    Finding hasher slots key (some i, true)
  | missing {i : ℕ} {x : FlatSlot K E} (slot : slots[i]? = some x) (free : x.pair? = none)
    (reach : Reaches slots (startSlot hasher (slots.length - 1) key) i)
    (absent : ∀ p ∈ pairs slots, (p.1 == key) = false) :
    Finding hasher slots key (some i, false)

variable [LawfulBEq K]

/-- **A probe finds a key that is in the table**, and otherwise a slot to put it in. A key that was in
the table behind the empty slot where the probe ended would not be reached. -/
theorem Sound.finding (h : Sound hasher slots) (hempty : FlatSlot.empty ∈ slots) (key : K) :
    Finding hasher slots key (probe hasher slots key) := by
  obtain ⟨n, hn⟩ := h.pow
  obtain ⟨d, x, hstop, hreports⟩ := probe_stops hn hempty hasher key
  have hslot := hstop.slot
  cases x with
  | tombstone => exact absurd hstop.stops (by simp [passes])
  | occupied k v =>
    have hk : k = key := by simpa [passes] using hstop.stops
    rw [Reports, if_neg (by simp [isEmpty])] at hreports
    rw [hreports]
    exact .found (hk ▸ hslot)
  | empty =>
    rw [Reports, if_pos (by simp [isEmpty])] at hreports
    obtain ⟨d', hd', hfree, hprobe⟩ := hreports
    obtain ⟨y, hy, hpair⟩ := hfree.free
    rw [hprobe]
    refine .missing hy hpair (hfree.reaches (hd'.trans_lt hstop.lt)) fun p hp ↦ ?_
    rw [← Bool.not_eq_true, beq_iff_eq]
    rintro rfl
    obtain ⟨i, hi⟩ := mem_pairs.1 hp
    obtain ⟨c, hc, rfl, hway⟩ := h.reach i _ _ hi
    rcases Nat.lt_trichotomy c d with hlt | rfl | hgt
    · have hpass := hstop.passed c hlt _ hi
      simp [passes] at hpass
    · rw [probed, hi] at hslot
      cases hslot
    · exact hway d hgt hslot

/-! ### Valid stores -/

omit [LawfulBEq K] in
/-- A key that is not in the table may be added to its pairs. -/
theorem unique_cons [PartialEquivBEq K] {l : List (K × E)} (h : (KeyMap.mk l).Unique)
    (habsent : ∀ p ∈ l, (p.1 == key) = false) : (KeyMap.mk ((key, e) :: l)).Unique := by
  refine List.pairwise_cons.2 ⟨fun p hp ↦ ?_, h⟩
  rw [BEq.comm]
  exact habsent p hp

/-- A sound table with the right counters and room for probes to end. -/
structure Valid (hasher : K → UInt64) (s : FlatStore K E) : Prop where
  sound : Sound hasher s.slots
  large : 16 ≤ s.slots.length
  occupied : s.occupied = (pairs s.slots).length
  tombstones : s.tombstones = s.slots.countP isTombstone
  room : s.occupied + s.tombstones < s.slots.length

variable {s t : FlatStore K E}

omit [LawfulBEq K] in
theorem Valid.empty_mem (h : Valid hasher s) : FlatSlot.empty ∈ s.slots :=
  FlatStore.empty_mem (by rw [← h.occupied, ← h.tombstones]; exact h.room)

theorem Valid.finding (h : Valid hasher s) (key : K) :
    Finding hasher s.slots key (probe hasher s.slots key) :=
  h.sound.finding h.empty_mem key

/-- `t` is `s` with a pair added. -/
structure Adds (hasher : K → UInt64) (s t : FlatStore K E) (key : K) (e : E) : Prop where
  valid : Valid hasher t
  pairs : (pairs t.slots).Perm ((key, e) :: FlatStore.pairs s.slots)
  length : t.slots.length = s.slots.length
  tombstones : t.tombstones ≤ s.tombstones

/-- **Filling a free slot that a probe has chosen** adds the key, if the slots in use leave room. -/
theorem Valid.adds (h : Valid hasher s) {i : ℕ} {x : FlatSlot K E} (slot : s.slots[i]? = some x)
    (free : x.pair? = none) (reach : Reaches s.slots (startSlot hasher (s.slots.length - 1) key) i)
    (absent : ∀ p ∈ pairs s.slots, (p.1 == key) = false)
    (hslots : t.slots = s.slots.set i (.occupied key e)) (hocc : t.occupied = s.occupied + 1)
    (htomb : t.tombstones = s.tombstones - if x.isTombstone then 1 else 0)
    (hroom : t.occupied + t.tombstones < s.slots.length) : Adds hasher s t key e := by
  have hlen : t.slots.length = s.slots.length := by rw [hslots, List.length_set]
  have hperm : (pairs t.slots).Perm ((key, e) :: pairs s.slots) :=
    hslots ▸ pairs_fill slot free key e
  have hunique : (KeyMap.mk (pairs t.slots)).Unique :=
    (List.Perm.pairwise_iff (fun {p q} hpq ↦ by rwa [BEq.comm]) hperm).2
      (unique_cons h.sound.unique absent)
  refine ⟨⟨?_, hlen ▸ h.large, ?_, ?_, hlen ▸ hroom⟩, hperm, hlen, htomb ▸ Nat.sub_le _ _⟩
  · rw [hslots] at hunique ⊢
    refine h.sound.set (fun hempty ↦ by cases hempty) hunique fun k v heq ↦ ?_
    cases heq
    exact reach
  · rw [hocc, hperm.length_eq, List.length_cons, h.occupied]
  · obtain ⟨hi, rfl⟩ := List.getElem?_eq_some_iff.1 slot
    rw [htomb, hslots, h.tombstones, List.countP_set hi]
    rfl

/-! ### Rebuilding -/

omit [LawfulBEq K] in
/-- A table of empty slots is valid. -/
theorem valid_replicate {n : ℕ} (hpow : ∃ k, n = 2 ^ k) (hlarge : 16 ≤ n) (compactCount : ℕ) :
    Valid hasher (⟨List.replicate n (.empty : FlatSlot K E), 0, 0, compactCount⟩ : FlatStore K E) where
  sound := by
    refine ⟨by rwa [List.length_replicate], ?_, fun i k v hi ↦ ?_⟩
    · rw [pairs_replicate]
      exact List.Pairwise.nil
    · rw [List.getElem?_replicate] at hi
      split at hi
      · cases hi
      · cases hi
  large := by rwa [List.length_replicate]
  occupied := by rw [pairs_replicate]; rfl
  tombstones := by
    rw [List.countP_replicate, if_neg (by simp [isTombstone])]
  room := by
    rw [List.length_replicate]
    exact Nat.lt_of_lt_of_le (Nat.succ_pos 15) hlarge

theorem Valid.reinsert (h : Valid hasher s) (htomb : s.tombstones = 0)
    (absent : ∀ p ∈ pairs s.slots, (p.1 == key) = false) (room : s.occupied + 1 < s.slots.length)
    (e : E) : ∃ t, FlatStore.reinsert hasher s (.occupied key e) = some t ∧ Adds hasher s t key e := by
  have hfinding := h.finding key
  rw [FlatStore.reinsert]
  generalize probe hasher s.slots key = r at hfinding
  cases hfinding with
  | found slot =>
    have hmem := absent _ (mem_pairs.2 ⟨_, slot⟩)
    rw [beq_self_eq_true] at hmem
    cases hmem
  | missing slot free reach _ =>
    refine ⟨_, rfl, h.adds slot free reach absent rfl rfl ?_ ?_⟩
    · change s.tombstones = s.tombstones - _
      rw [htomb, Nat.zero_sub]
    · change s.occupied + 1 + s.tombstones < _
      rwa [htomb]

/-- **The slots of the old table are placed one after another**, each at the place a probe finds in the
new one, while there is room for all. -/
theorem Valid.foldlM_reinsert (l : List (FlatSlot K E)) (h : Valid hasher s) (htomb : s.tombstones = 0)
    (hunique : (KeyMap.mk (pairs l ++ pairs s.slots)).Unique)
    (hroom : (pairs l).length + s.occupied < s.slots.length) :
    ∃ t, l.foldlM (FlatStore.reinsert hasher) s = some t ∧ Valid hasher t ∧ t.tombstones = 0 ∧
      t.slots.length = s.slots.length ∧ (pairs t.slots).Perm (pairs l ++ pairs s.slots) := by
  induction l generalizing s with
  | nil => exact ⟨s, rfl, h, htomb, rfl, .refl _⟩
  | cons x l ih =>
    rw [List.foldlM_cons]
    cases x with
    | empty => exact ih h htomb hunique hroom
    | tombstone => exact ih h htomb hunique hroom
    | occupied key e =>
      have hcons := List.pairwise_cons.1 hunique
      have habsent : ∀ p ∈ pairs s.slots, (p.1 == key) = false := fun p hp ↦ by
        rw [BEq.comm]
        exact hcons.1 p (List.mem_append_right _ hp)
      have hlen : (pairs (.occupied key e :: l)).length = (pairs l).length + 1 := rfl
      obtain ⟨t, ht, hadds⟩ := h.reinsert htomb habsent (by omega) e
      have hocc : t.occupied = s.occupied + 1 := by
        rw [hadds.valid.occupied, hadds.pairs.length_eq, List.length_cons, h.occupied]
      have hmove : (pairs l ++ pairs t.slots).Perm (pairs (.occupied key e :: l) ++ pairs s.slots) :=
        (hadds.pairs.append_left _).trans List.perm_middle
      obtain ⟨u, hu, hvalid, htomb', hulen, hperm⟩ := ih hadds.valid
        (Nat.le_zero.1 (htomb ▸ hadds.tombstones))
        ((List.Perm.pairwise_iff (fun {p q} hpq ↦ by rwa [BEq.comm]) hmove).2 hunique)
        (by rw [hocc, hadds.length]; omega)
      refine ⟨u, ?_, hvalid, htomb', hulen.trans hadds.length, hperm.trans hmove⟩
      rw [ht]
      exact hu

/-- `t` holds the pairs of `s`, without tombstones and with room for one more. -/
structure Rebuilt (hasher : K → UInt64) (s t : FlatStore K E) : Prop where
  valid : Valid hasher t
  pairs : (pairs t.slots).Perm (FlatStore.pairs s.slots)
  tombstones : t.tombstones = 0
  room : t.occupied + 1 < t.slots.length

/-- **A rebuild keeps every pair**, in place or in twice the space. -/
theorem Valid.rebuild (h : Valid hasher s) :
    ∃ t, s.rebuild hasher s.nextRebuildCap = some t ∧ Rebuilt hasher s t := by
  have hlarge := h.large
  have hroom := h.room
  obtain ⟨n, hn⟩ := h.sound.pow
  have hcap : (∃ k, s.nextRebuildCap = 2 ^ k) ∧ 16 ≤ s.nextRebuildCap ∧
      s.occupied + 1 < s.nextRebuildCap := by
    rw [nextRebuildCap]
    split
    · exact ⟨⟨n + 1, by rw [hn, Nat.pow_succ]⟩, by omega, by omega⟩
    · exact ⟨⟨n, hn⟩, hlarge, by omega⟩
  have hfresh : Valid hasher
      (⟨List.replicate s.nextRebuildCap .empty, 0, 0, s.compactCount⟩ : FlatStore K E) :=
    valid_replicate hcap.1 hcap.2.1 s.compactCount
  obtain ⟨t, ht, hvalid, htomb, hlen, hperm⟩ := hfresh.foldlM_reinsert s.slots rfl
    (by rw [pairs_replicate, List.append_nil]; exact h.sound.unique)
    (by rw [List.length_replicate, ← h.occupied]; exact Nat.lt_of_succ_lt hcap.2.2)
  rw [pairs_replicate, List.append_nil] at hperm
  rw [List.length_replicate] at hlen
  refine ⟨{ t with compactCount := t.compactCount + 1 }, ?_,
    ⟨hvalid.sound, hvalid.large, hvalid.occupied, hvalid.tombstones, hvalid.room⟩, hperm, htomb, ?_⟩
  · rw [FlatStore.rebuild, ht]
    rfl
  · change t.occupied + 1 < t.slots.length
    rw [hvalid.occupied, hperm.length_eq, ← h.occupied, hlen]
    exact hcap.2.2

/-! ### Operations -/

/-- Taking a pair out of a map whose keys are all different. -/
theorem erase_perm {l r : List (K × E)} (h : (KeyMap.mk l).Unique) (hl : l.Perm ((key, v) :: r)) :
    ((KeyMap.mk l).erase key).pairs.Perm r := by
  have hcons : (KeyMap.mk ((key, v) :: r)).Unique := (hl.pairwise_iff fun hpq ↦ by rwa [BEq.comm]).1 h
  have hr : (r.filter fun p ↦ !(p.1 == key)) = r := by
    refine List.filter_eq_self.2 fun p hp ↦ ?_
    rw [BEq.comm, (List.pairwise_cons.1 hcons).1 p hp]
    rfl
  refine (hl.filter _).trans (.of_eq ?_)
  rw [List.filter_cons_of_neg (by simp), hr]

/-- The store holds what the map holds. -/
structure Holds (hasher : K → UInt64) (s : FlatStore K E) (m : KeyMap K E) : Prop where
  valid : Valid hasher s
  pairs : (pairs s.slots).Perm m.pairs

variable {m : KeyMap K E}

namespace Holds

omit [LawfulBEq K] in
theorem new (initialCap : ℕ) : Holds hasher (FlatStore.new initialCap : FlatStore K E) .empty := by
  have hlarge : 16 ≤ nextPowerOfTwo (max initialCap flatStoreInitialCap) :=
    (Nat.le_max_right initialCap flatStoreInitialCap).trans (Nat.le_pow_clog (Nat.lt_succ_self 1) _)
  exact ⟨valid_replicate ⟨_, rfl⟩ hlarge 0, .of_eq (pairs_replicate _)⟩

variable (h : Holds hasher s m)
include h

omit [LawfulBEq K] in
theorem unique [PartialEquivBEq K] : m.Unique :=
  (h.pairs.pairwise_iff fun hpq ↦ by rwa [BEq.comm]).1 h.valid.sound.unique

theorem get_of_slot (slot : s.slots[i]? = some (.occupied key v)) : m.get key = some v :=
  h.unique.get_eq (p := (key, v)) (h.pairs.mem_iff.1 (mem_pairs.2 ⟨i, slot⟩)) (beq_self_eq_true key)

omit [LawfulBEq K] in
theorem get_of_absent (absent : ∀ p ∈ FlatStore.pairs s.slots, (p.1 == key) = false) :
    m.get key = none :=
  KeyMap.get_eq_none.2 fun p hp ↦ absent p (h.pairs.mem_iff.2 hp)

theorem get (key : K) : s.get hasher key = m.get key := by
  have hfinding := h.valid.finding key
  rw [FlatStore.get]
  generalize probe hasher s.slots key = r at hfinding
  cases hfinding with
  | found slot =>
    rw [h.get_of_slot slot]
    change (s.slots[_]?.bind FlatSlot.pair?).map Prod.snd = _
    rw [slot]
    rfl
  | missing slot free reach absent => exact (h.get_of_absent absent).symm

/-- The pairs left when a slot is cleared are those of the map without the key. -/
theorem pairs_erase (slot : s.slots[i]? = some (.occupied key v)) :
    (FlatStore.pairs (s.slots.set i .tombstone)).Perm (m.erase key).pairs :=
  (erase_perm h.unique (h.pairs.symm.trans (pairs_clear slot rfl))).symm

omit [LawfulBEq K] in
theorem length : s.length = m.pairs.length :=
  h.valid.occupied.trans h.pairs.length_eq

/-- **Overwriting a value.** -/
theorem overwrite (slot : s.slots[i]? = some (.occupied key v)) (e : E) :
    Holds hasher { s with slots := s.slots.modify i (setValue e) } (m.insert key e) := by
  have hset : s.slots.modify i (setValue e) = s.slots.set i (.occupied key e) := by
    rw [List.modify_eq_set_getElem?, slot]
    rfl
  have hlt := (List.getElem?_eq_some_iff.1 slot).1
  have htomb : (s.slots.set i .tombstone)[i]? = some .tombstone := List.getElem?_set_self hlt
  have hperm : (FlatStore.pairs (s.slots.set i (.occupied key e))).Perm (m.insert key e).pairs := by
    have hfill := pairs_fill htomb rfl key e
    rw [List.set_set] at hfill
    exact hfill.trans ((h.pairs_erase slot).cons _)
  have hunique : (KeyMap.mk (FlatStore.pairs (s.slots.set i (.occupied key e)))).Unique :=
    (hperm.pairwise_iff fun hpq ↦ by rwa [BEq.comm]).2 (h.unique.insert key e)
  have hsame : (FlatStore.pairs (s.slots.set i (.occupied key e))).length =
      (FlatStore.pairs s.slots).length := by
    have hclear := (pairs_clear (y := .tombstone) slot rfl).length_eq
    rw [hperm.length_eq, hclear]
    exact congrArg (· + 1) (h.pairs_erase slot).length_eq.symm
  rw [hset]
  refine ⟨⟨?_, ?_, ?_, ?_, ?_⟩, hperm⟩
  · refine h.valid.sound.set (fun hempty ↦ by cases hempty) hunique fun k v' heq ↦ ?_
    cases heq
    exact h.valid.sound.reach i key v slot
  · exact (List.length_set ..).symm ▸ h.valid.large
  · exact h.valid.occupied.trans hsame.symm
  · obtain ⟨_, hx⟩ := List.getElem?_eq_some_iff.1 slot
    rw [List.countP_set hlt, hx]
    exact h.valid.tombstones
  · exact (List.length_set ..).symm ▸ h.valid.room

omit [LawfulBEq K] in
/-- A rebuilt store holds the same map. -/
theorem rebuilt (ht : Rebuilt hasher s t) : Holds hasher t m :=
  ⟨ht.valid, ht.pairs.trans h.pairs⟩

/-- **Inserting a key that is not there.** The slot a probe has chosen is free, and its tombstone, if it
was one, is counted no more. -/
theorem fill {x : FlatSlot K E} (slot : s.slots[i]? = some x) (free : x.pair? = none)
    (reach : Reaches s.slots (startSlot hasher (s.slots.length - 1) key) i)
    (absent : ∀ p ∈ FlatStore.pairs s.slots, (p.1 == key) = false)
    (room : s.occupied + s.tombstones + 1 < s.slots.length) (e : E) :
    ∃ t, s.fill i key e = some t ∧ Holds hasher t (m.insert key e) := by
  have hinsert : (m.insert key e).pairs = (key, e) :: m.pairs := by
    rw [KeyMap.insert, KeyMap.erase_of_get_eq_none (h.get_of_absent absent)]
  have hadds : ∃ t, s.fill i key e = some t ∧ Adds hasher s t key e := by
    rw [FlatStore.fill, slot]
    cases x with
    | occupied k v => cases free
    | empty =>
      refine ⟨_, rfl, h.valid.adds slot free reach absent rfl rfl rfl ?_⟩
      change s.occupied + 1 + s.tombstones < _
      omega
    | tombstone =>
      refine ⟨_, rfl, h.valid.adds slot free reach absent rfl rfl rfl ?_⟩
      change s.occupied + 1 + (s.tombstones - 1) < _
      omega
  obtain ⟨t, ht, hadds⟩ := hadds
  exact ⟨t, ht, hadds.valid, hadds.pairs.trans (hinsert ▸ h.pairs.cons _)⟩

/-- The slot a probe has chosen for a key that is not there may be filled. -/
theorem fill_probe (hget : m.get key = none) (room : s.occupied + s.tombstones + 1 < s.slots.length)
    (e : E) :
    ∃ t, ((probe hasher s.slots key).1.bind fun i ↦ s.fill i key e) = some t ∧
      Holds hasher t (m.insert key e) := by
  have hfinding := h.valid.finding key
  generalize probe hasher s.slots key = r at hfinding
  cases hfinding with
  | found slot =>
    rw [h.get_of_slot slot] at hget
    cases hget
  | missing slot free reach absent => exact h.fill slot free reach absent room e

/-- **A store is set as a map is**, with or without a rebuild. -/
theorem set (key : K) (e : E) :
    ∃ t, s.set hasher key e = some t ∧ Holds hasher t (m.insert key e) := by
  have hlarge := h.valid.large
  have hfinding := h.valid.finding key
  rw [FlatStore.set]
  generalize probe hasher s.slots key = r at hfinding
  cases hfinding with
  | found slot => exact ⟨_, rfl, h.overwrite slot e⟩
  | @missing i x slot free reach absent =>
    have hget := h.get_of_absent absent
    change ∃ t, (if some i = none ∨ s.shouldGrowBeforeInsert = true then _ else _) = some t ∧ _
    by_cases hgrow : some i = none ∨ s.shouldGrowBeforeInsert = true
    · obtain ⟨t, ht, hrebuilt⟩ := h.valid.rebuild
      rw [if_pos hgrow, ht]
      refine (h.rebuilt hrebuilt).fill_probe hget ?_ e
      rw [hrebuilt.tombstones]
      exact hrebuilt.room
    · rw [if_neg hgrow]
      refine h.fill slot free reach absent ?_ e
      have hless : ¬ 3 * s.slots.length ≤ (s.occupied + s.tombstones) * 4 := fun hle ↦
        hgrow (.inr (decide_eq_true hle))
      omega

/-- **A key is deleted from a store as from a map.** -/
theorem del (key : K) :
    ∃ t, s.del hasher key = some (t, (m.get key).isSome) ∧ Holds hasher t (m.erase key) := by
  have hfinding := h.valid.finding key
  rw [FlatStore.del]
  generalize probe hasher s.slots key = r at hfinding
  cases hfinding with
  | missing slot free reach absent =>
    have hget := h.get_of_absent absent
    refine ⟨s, by rw [hget]; rfl, ?_⟩
    rw [KeyMap.erase_of_get_eq_none hget]
    exact h
  | @found i v slot =>
    have hlt := (List.getElem?_eq_some_iff.1 slot).1
    have hclear := (pairs_clear (y := .tombstone) slot rfl).length_eq
    rw [List.length_cons] at hclear
    have hocc := h.valid.occupied
    have hroom := h.valid.room
    have hunique : (KeyMap.mk (FlatStore.pairs (s.slots.set i .tombstone))).Unique :=
      ((h.pairs_erase slot).pairwise_iff fun hpq ↦ by rwa [BEq.comm]).2 (h.unique.erase key)
    have ht : Holds hasher (⟨s.slots.set i .tombstone, s.occupied - 1, s.tombstones + 1,
        s.compactCount⟩ : FlatStore K E) (m.erase key) := by
      refine ⟨⟨?_, ?_, ?_, ?_, ?_⟩, h.pairs_erase slot⟩
      · exact h.valid.sound.set (fun hempty ↦ by cases hempty) hunique fun k v heq ↦ by cases heq
      · exact (List.length_set ..).symm ▸ h.valid.large
      · change s.occupied - 1 = (FlatStore.pairs (s.slots.set i .tombstone)).length
        omega
      · obtain ⟨_, hx⟩ := List.getElem?_eq_some_iff.1 slot
        rw [List.countP_set hlt, hx, ← h.valid.tombstones]
        rfl
      · rw [List.length_set]
        change s.occupied - 1 + (s.tombstones + 1) < _
        omega
    rw [h.get_of_slot slot]
    change ∃ t, (if shouldCompactAfterDelete _ = true then _ else _) = some (t, true) ∧ _
    split_ifs with hcompact
    · obtain ⟨t, hrebuild, hrebuilt⟩ := ht.valid.rebuild
      exact ⟨t, by rw [hrebuild]; rfl, ht.rebuilt hrebuilt⟩
    · exact ⟨_, rfl, ht⟩

omit [LawfulBEq K] in
theorem clearAll : Holds hasher s.clearAll .empty := by
  have hslots : s.clearAll = ⟨List.replicate s.slots.length .empty, 0, 0, s.compactCount⟩ := by
    rw [FlatStore.clearAll, List.map_const']
  rw [hslots]
  exact ⟨valid_replicate h.valid.sound.pow h.valid.large _, .of_eq (pairs_replicate _)⟩

end Holds

/-! ### Iteration -/

/-- The beginning of a list up to the first element that `fn` refuses, which is included. -/
def visited (fn : E → Bool) : List E → List E
  | [] => []
  | e :: l => e :: if fn e then visited fn l else []

omit [BEq K] [LawfulBEq K] in
theorem eachFrom_eq (fn : E → Bool) (slots : List (FlatSlot K E)) :
    eachFrom fn slots = visited fn ((pairs slots).map Prod.snd) := by
  induction slots with
  | nil => rfl
  | cons x slots ih =>
    cases x with
    | empty => exact ih
    | tombstone => exact ih
    | occupied k v =>
      change v :: (if fn v then eachFrom fn slots else []) =
        v :: if fn v then visited fn ((pairs slots).map Prod.snd) else []
      rw [ih]

omit [BEq K] [LawfulBEq K] in
/-- A visit that is not stopped sees everything. -/
theorem visited_of_forall {fn : E → Bool} {l : List E} (h : ∀ e ∈ l, fn e = true) :
    visited fn l = l := by
  induction l with
  | nil => rfl
  | cons e l ih =>
    rw [visited, if_pos (h e List.mem_cons_self), ih fun e he ↦ h e (List.mem_cons_of_mem _ he)]

/-! ### Runs -/

/-- A call of the store. -/
inductive Call (K E : Type*) where
  | set (key : K) (e : E)
  | get (key : K)
  | del (key : K)
  | length
  | each (fn : E → Bool)
  | clearAll

/-- What a call gives back; `each` has called its function on a list of entries. -/
inductive Answer (E : Type*) where
  | done
  | entry (e : Option E)
  | deleted (b : Bool)
  | count (n : ℕ)
  | seen (l : List E)

omit [LawfulBEq K]

/-- One call. -/
def call (hasher : K → UInt64) (s : FlatStore K E) : Call K E → Option (FlatStore K E × Answer E)
  | .set key e => (s.set hasher key e).map (·, .done)
  | .get key => some (s, .entry (s.get hasher key))
  | .del key => (s.del hasher key).map fun r ↦ (r.1, .deleted r.2)
  | .length => some (s, .count s.length)
  | .each fn => some (s, .seen (s.each fn))
  | .clearAll => some (s.clearAll, .done)

/-- A sequence of calls, with their answers. -/
def run (hasher : K → UInt64) : FlatStore K E → List (Call K E) → Option (FlatStore K E × List (Answer E))
  | s, [] => some (s, [])
  | s, c :: calls =>
    (s.call hasher c).bind fun r ↦ (run hasher r.1 calls).map fun q ↦ (q.1, r.2 :: q.2)

/-- What a call does to a map. -/
def effect (m : KeyMap K E) : Call K E → KeyMap K E
  | .set key e => m.insert key e
  | .del key => m.erase key
  | .clearAll => .empty
  | _ => m

/-- The answers a map may give. The order in which it is iterated is not determined. -/
def Answers (m : KeyMap K E) : Call K E → Answer E → Prop
  | .set _ _, a => a = .done
  | .get key, a => a = .entry (m.get key)
  | .del key, a => a = .deleted (m.get key).isSome
  | .length, a => a = .count m.pairs.length
  | .each fn, a => ∃ l, l.Perm m.values ∧ a = .seen (visited fn l)
  | .clearAll, a => a = .done

/-- The answers to a sequence of calls are those of a map. -/
def AnswersAll : KeyMap K E → List (Call K E) → List (Answer E) → Prop
  | _, [], answers => answers = []
  | m, c :: calls, answers =>
    ∃ a rest, answers = a :: rest ∧ Answers m c a ∧ AnswersAll (effect m c) calls rest

variable [LawfulBEq K]

/-- **A call of the store is a call of the map.** -/
theorem Holds.call (h : Holds hasher s m) (c : Call K E) :
    ∃ t a, s.call hasher c = some (t, a) ∧ Answers m c a ∧ Holds hasher t (effect m c) := by
  cases c with
  | set key e =>
    obtain ⟨t, ht, hholds⟩ := h.set key e
    exact ⟨t, .done, by rw [FlatStore.call, ht]; rfl, rfl, hholds⟩
  | get key => exact ⟨s, _, rfl, congrArg Answer.entry (h.get key), h⟩
  | del key =>
    obtain ⟨t, ht, hholds⟩ := h.del key
    exact ⟨t, _, by rw [FlatStore.call, ht]; rfl, rfl, hholds⟩
  | length => exact ⟨s, _, rfl, congrArg Answer.count h.length, h⟩
  | each fn => exact ⟨s, _, rfl, ⟨_, h.pairs.map _, congrArg Answer.seen (eachFrom_eq fn s.slots)⟩, h⟩
  | clearAll => exact ⟨s.clearAll, _, rfl, rfl, h.clearAll⟩

theorem Holds.run (h : Holds hasher s m) (calls : List (Call K E)) :
    ∃ t answers, FlatStore.run hasher s calls = some (t, answers) ∧ AnswersAll m calls answers ∧
      Holds hasher t (calls.foldl effect m) := by
  induction calls generalizing s m with
  | nil => exact ⟨s, [], rfl, rfl, h⟩
  | cons c calls ih =>
    obtain ⟨t, a, hcall, hanswers, ht⟩ := h.call c
    obtain ⟨u, answers, hrun, hall, hu⟩ := ih ht
    refine ⟨u, a :: answers, ?_, ⟨a, answers, rfl, hanswers, hall⟩, hu⟩
    rw [FlatStore.run, hcall]
    change (FlatStore.run hasher t calls).map _ = _
    rw [hrun]
    rfl

/-- **Every run of a flat store is a run of a map.** From a new store of any size, with any hash
function, no call fails and every answer is the map's. In the state that is reached, the keys are the
map's, each is found with its value, an iteration sees every entry once, an empty slot exists, and a
probe for any key ends at the key or at an empty slot, before it has gone around the table. -/
theorem run_answers (hasher : K → UInt64) (initialCap : ℕ) (calls : List (Call K E)) :
    ∃ (s : FlatStore K E) (m : KeyMap K E) (answers : List (Answer E)),
      run hasher (new initialCap) calls = some (s, answers) ∧ m = calls.foldl effect .empty ∧
      AnswersAll .empty calls answers ∧
      m.Unique ∧ s.length = m.pairs.length ∧ (∀ key, s.get hasher key = m.get key) ∧
      (s.each fun _ ↦ true).Perm m.values ∧
      FlatSlot.empty ∈ s.slots ∧
      ∀ key, ∃ d x, StopsAt s.slots (startSlot hasher (s.slots.length - 1) key) key d x ∧
        ∀ fuel > d, Reports s.slots (startSlot hasher (s.slots.length - 1) key) d x
          (probeFrom s.slots (s.slots.length - 1) (startSlot hasher (s.slots.length - 1) key) key fuel
            (startSlot hasher (s.slots.length - 1) key) none) := by
  obtain ⟨s, answers, hrun, hanswers, h⟩ := (Holds.new initialCap : Holds hasher _ _).run calls
  refine ⟨s, _, answers, hrun, rfl, hanswers, h.unique, h.length, h.get, ?_, h.valid.empty_mem,
    fun key ↦ ?_⟩
  · rw [each, eachFrom_eq, visited_of_forall fun _ _ ↦ rfl]
    exact h.pairs.map _
  · obtain ⟨n, hn⟩ := h.valid.sound.pow
    obtain ⟨d, x, hstop⟩ := exists_stopsAt (startSlot hasher (s.slots.length - 1) key) key h.valid.empty_mem
    refine ⟨d, x, hstop, fun fuel hfuel ↦ ?_⟩
    have hseen : Seen s.slots (startSlot hasher (s.slots.length - 1) key) 0 none :=
      fun e he ↦ absurd he (Nat.not_lt_zero e)
    have hreports := probeFrom_reports hn hstop (Nat.zero_le d) hfuel hseen
    rwa [Nat.add_zero, Nat.mod_eq_of_lt (startSlot_lt hn hasher key)] at hreports

/-- Two keys whose probes start in the same slot: the second is found behind the tombstone of the first. -/
theorem run_answers_colliding :
    ∃ (s : FlatStore ℕ ℕ) (m : KeyMap ℕ ℕ) (answers : List (Answer ℕ)),
      run (fun _ ↦ 0) (new 0) [.set 1 10, .set 2 20, .del 1, .get 2] = some (s, answers) ∧
      m = [Call.set 1 10, .set 2 20, .del 1, .get 2].foldl effect .empty ∧
      AnswersAll .empty [.set 1 10, .set 2 20, .del 1, .get 2] answers ∧
      s.get (fun _ ↦ 0) 2 = m.get 2 := by
  obtain ⟨s, m, answers, hrun, hm, hanswers, -, -, hget, -⟩ :=
    run_answers (fun _ : ℕ ↦ 0) 0 [.set 1 10, .set 2 20, .del 1, .get (2 : ℕ)]
  exact ⟨s, m, answers, hrun, hm, hanswers, hget 2⟩

end Memcache.FlatStore
