import Memcache.Policy.Histories

/-!
# Cleared policies

A cleared policy should go on like a fresh one of the same budget: same victims, same lengths, for
every sequence of operations. Six of the seven are **literally the fresh policy** after `Reset`, since
nothing but their budgets is left (`Policy.reset_eq_new`).

`W-TinyLFU` is not: its `Reset` ages the frequency sketch, which halves the counters, and the sketch
keeps the width it was built with when the budget is set again. What it does afterwards may depend on
keys seen before (`Policy.evicts_after_reset`); it goes on like a fresh policy when every counter is at most
one and the width is the one for the current budget.
-/

namespace Memcache

variable {K : Type*}

/-! ### What a sequence of operations shows -/

/-- Clearing any other policy than `W-TinyLFU` leaves a fresh one. -/
theorem Policy.reset_eq_new [BEq K] {hash : K → UInt64} {kind : PolicyKind} {b : ℕ} {p : Policy K}
    (hp : Attained hash kind b p) (hk : kind ≠ .tinyLfu) : p.reset = Policy.new kind b := by
  have hblank := hp.blank
  have hkind := kind_of_blank hblank
  subst hkind
  cases p with
  | tinyLfu p => exact absurd rfl hk
  | _ => exact hblank

/-! ### The sketch -/

namespace CountMinSketch

/-- Both counters of every byte are at most one. -/
def Faint (s : CountMinSketch) : Prop :=
  ∀ row ∈ s.rows, ∀ x ∈ row, x &&& 0x0f ≤ 1 ∧ (x >>> 4) &&& 0x0f ≤ 1

/-- The sketches have the same rows, but for the counters. -/
structure SameShape (s s' : CountMinSketch) : Prop where
  lengths : s.rows.map List.length = s'.rows.map List.length
  mask : s.mask = s'.mask
  seeds : s.seeds = s'.seeds

theorem halve_eq_zero {x : UInt8} (hlow : x &&& 0x0f ≤ 1) (hhigh : (x >>> 4) &&& 0x0f ≤ 1) :
    halve x = 0 := by
  have key : ∀ n : Fin 256, UInt8.ofNat n &&& 0x0f ≤ 1 → (UInt8.ofNat n >>> 4) &&& 0x0f ≤ 1 →
      halve (UInt8.ofNat n) = 0 := by decide +kernel
  have hx : UInt8.ofNat x.toNat = x := UInt8.ofNat_toNat
  have := key ⟨x.toNat, x.toNat_lt⟩
  rw [hx] at this
  exact this hlow hhigh

/-- **Ageing empties a sketch whose counters are at most one.** -/
theorem Faint.reset_eq {s : CountMinSketch} (h : s.Faint) {expected : ℕ}
    (hs : SameShape s (new expected [])) : s.reset = new expected [] := by
  have hrow : ∀ row ∈ s.rows, row.map halve = List.replicate row.length 0 := by
    intro row hr
    rw [← List.map_const']
    exact List.map_congr_left fun x hx ↦ halve_eq_zero (h row hr x hx).1 (h row hr x hx).2
  have hrows : s.rows.map (fun row ↦ row.map halve) = (new expected []).rows := by
    calc s.rows.map (fun row ↦ row.map halve)
        = s.rows.map fun row ↦ List.replicate row.length 0 := List.map_congr_left hrow
      _ = (s.rows.map List.length).map fun k ↦ List.replicate k 0 := by rw [List.map_map]; rfl
      _ = (new expected []).rows := by rw [hs.lengths]; simp [new]
  rcases s with ⟨rows, mask, seeds⟩
  have hm : mask = (new expected []).mask := hs.mask
  have hd : seeds = (new expected []).seeds := hs.seeds
  subst hm hd
  show CountMinSketch.mk _ _ _ = _
  rw [hrows]

end CountMinSketch

/-- Clearing `W-TinyLFU` leaves a fresh one when its sketch is empty after one ageing. -/
theorem TinyLfu.reset_eq_new [BEq K] {hash : K → UInt64} {b : ℕ} {p : TinyLfu K}
    (hp : Policy.Attained hash .tinyLfu b (.tinyLfu p)) (hfaint : p.sketch.Faint)
    (hshape : p.sketch.SameShape (.new (max b 64) [])) : p.reset = TinyLfu.new b := by
  have hblank : p.blank = (TinyLfu.new b).blank := Policy.tinyLfu.inj hp.blank
  have hsketch : p.reset.sketch = (TinyLfu.new b : TinyLfu K).sketch := hfaint.reset_eq hshape
  calc p.reset = { p.blank with sketch := p.reset.sketch } := rfl
    _ = { (TinyLfu.new b).blank with sketch := (TinyLfu.new b : TinyLfu K).sketch } := by
      rw [hblank, hsketch]
    _ = TinyLfu.new b := rfl

/-! ### Like a fresh policy, or not -/

/-- A `W-TinyLFU` policy that has seen one key inserted and read three times. -/
def sketchSeen : Policy ℕ :=
  [.insert ⟨0, 2⟩, .access 0, .access 0, .access 0].foldl (fun p op ↦ (p.apply UInt64.ofNat op).2)
    (.new .tinyLfu 3)

/-- Three keys, with evictions after the second and the third. -/
def sketchProbe : List (PolicyOp ℕ) :=
  [.insert ⟨1, 1⟩, .insert ⟨2, 2⟩, .evict, .insert ⟨3, 3⟩, .evict]

theorem attained_sketchSeen : Policy.Attained UInt64.ofNat .tinyLfu 3 sketchSeen :=
  have start : Policy.Attained (K := ℕ) UInt64.ofNat .tinyLfu 3 (.new .tinyLfu 3) := .new 3
  (((start.op (.insert ⟨0, 2⟩) (by decide)).op (.access 0) trivial).op (.access 0) trivial).op
    (.access 0) trivial

theorem outcomes_sketchProbe :
    (Policy.outcomes UInt64.ofNat sketchProbe sketchSeen.reset).getLast? = some (some ⟨1, 1⟩, 2) ∧
      (Policy.outcomes UInt64.ofNat sketchProbe (.new .tinyLfu 3)).getLast? =
        some (some ⟨2, 2⟩, 2) := by
  decide +kernel

theorem outcomes_sketchSeen_ne : Policy.outcomes UInt64.ofNat sketchProbe sketchSeen.reset ≠
    Policy.outcomes UInt64.ofNat sketchProbe (.new .tinyLfu 3) := by
  intro h
  obtain ⟨h₁, h₂⟩ := outcomes_sketchProbe
  exact absurd (h₁.symm.trans ((congrArg List.getLast? h).trans h₂)) (by decide)

/-- **A cleared policy goes on like a fresh one**: always for six of the policies, and for
`W-TinyLFU` when every counter of its sketch is at most one and the sketch has the width for the
budget. -/
theorem Policy.outcomes_reset_iff (kind : PolicyKind) :
    ((∀ (K : Type) [BEq K] (hash : K → UInt64) (b : ℕ) (p : Policy K), Attained hash kind b p →
        ∀ ops, outcomes hash ops p.reset = outcomes hash ops (.new kind b)) ↔ kind ≠ .tinyLfu) ∧
    ∀ (K : Type) [BEq K] (hash : K → UInt64) (b : ℕ) (p : TinyLfu K),
      Attained hash .tinyLfu b (.tinyLfu p) → p.sketch.Faint →
      p.sketch.SameShape (.new (max b 64) []) →
      ∀ ops, outcomes hash ops (Policy.tinyLfu p).reset = outcomes hash ops (.new .tinyLfu b) := by
  refine ⟨⟨fun h hk ↦ ?_, fun hk K _ hash b p hp ops ↦ ?_⟩,
    fun K _ hash b p hp hfaint hshape ops ↦ ?_⟩
  · subst hk
    exact outcomes_sketchSeen_ne (h ℕ UInt64.ofNat 3 _ attained_sketchSeen sketchProbe)
  · rw [reset_eq_new hp hk]
  · show outcomes hash ops (.tinyLfu p.reset) = outcomes hash ops (.tinyLfu (.new b))
    rw [TinyLfu.reset_eq_new hp hfaint hshape]

/-- A cleared `W-TinyLFU` policy evicts key `1` where a fresh one evicts key `2`, which it has not
seen before. -/
theorem Policy.evicts_after_reset :
    Attained UInt64.ofNat .tinyLfu 3 sketchSeen ∧
      (outcomes UInt64.ofNat sketchProbe sketchSeen.reset).getLast? = some (some ⟨1, 1⟩, 2) ∧
      (outcomes UInt64.ofNat sketchProbe (.new .tinyLfu 3)).getLast? = some (some ⟨2, 2⟩, 2) :=
  ⟨attained_sketchSeen, outcomes_sketchProbe⟩

end Memcache
