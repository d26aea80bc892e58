import Memcache.Tiered.Sound

/-!
# A deleted key stays deleted in both tiers

`Delete` clears L2 first. From then on no `Get` finds the key there, and one that found it before has a
token of L2 that the deletion marked, so it does not pass the guard again. A `Get` that had passed the
guard **before L2 was cleared** may still store the value in L1, but it holds the lock of L1's shard until
it has: L1 is cleared after that.
-/

namespace Memcache

namespace TieredRun

variable {K V : Type*} {n₁ n₂ : ℕ} [BEq K] [NeZero n₁] [NeZero n₂] [Inhabited V]
  {cfg₁ cfg₂ : Config K V} {key : K} {s : TieredRun K V n₁ n₂} {a : Act K V n₁ n₂}

/-- No step writes the key. -/
def Unwritten (cfg₁ cfg₂ : Config K V) (key : K) (s : TieredRun K V n₁ n₂) (a : Act K V n₁ n₂) :
    Prop :=
  s.Honest cfg₁ cfg₂ key a ∧ ∀ env value, a ≠ .set env value

/-- A `Delete` has been through L2. -/
def Cleared (s : TieredRun K V n₁ n₂) : Prop := s.phase = .deleting ∨ .delete ∈ s.log

structure Gone (cfg₁ cfg₂ : Config K V) (key : K) (s : TieredRun K V n₁ n₂) : Prop where
  phase : ∀ value, s.phase ≠ .setting value
  l2 : s.Cleared → s.l2.lookupKey cfg₂ key = none
  void : s.Cleared → ∀ g ∈ s.gets, ∀ v w, g.copies = some v → g.token₂ = some w →
    (s.l2.flightsOf cfg₂ key).Void w
  l1 : .delete ∈ s.log → s.l1.lookupKey cfg₁ key = none ∧ s.unlocked = true

section Step

variable [EquivBEq K]

/-- A `Get` that has a value is void, or its value is one that L2 may have held: the one that gets its
value now finds it in L2. -/
theorem Sound.copies_step {P : V → Prop} (h : s.Sound cfg₁ cfg₂ key)
    (hsync : cfg₂.asyncWrites = false) (ha : s.Honest cfg₁ cfg₂ key a)
    (hP : ∀ e, s.l2.lookupKey cfg₂ key = some e → e.negative = false → P e.value)
    (hcopies : ∀ g ∈ s.gets, ∀ v w, g.copies = some v → g.token₂ = some w →
      (s.l2.flightsOf cfg₂ key).Void w ∨ P v) {g' : TieredGet V}
    (hg' : g' ∈ (s.step cfg₁ cfg₂ key a).gets) {v : V} {w : ℕ} (hc : g'.copies = some v)
    (hw : g'.token₂ = some w) : ((s.step cfg₁ cfg₂ key a).l2.flightsOf cfg₂ key).Void w ∨ P v := by
  have hold {g : TieredGet V} (hg : g ∈ s.gets) (hc : g.copies = some v) (hw : g.token₂ = some w) :
      ((s.step cfg₁ cfg₂ key a).l2.flightsOf cfg₂ key).Void w ∨ P v :=
    (hcopies g hg v w hc hw).imp_left
      ((h.tokens ha).2 w (List.mem_filterMap.2 ⟨g, hg, hw⟩))
  cases moved_step hg' with
  | same hg => exact hold hg hc hw
  | empty hnone => rw [hnone] at hc; cases hc
  | found hj hv =>
    obtain ⟨e, he, rfl, hneg⟩ := Cache.lookup_of_get h.reached₂ hsync hv
    cases hc
    exact .inr (hP e he hneg)
  | dated hj => exact hold (List.mem_of_getElem? hj) hc hw
  | opted hj => exact hold (List.mem_of_getElem? hj) hc hw
  | allowed hj => exact hold (List.mem_of_getElem? hj) hc hw
  | locked => cases hc

section

variable (hg : s.Gone cfg₁ cfg₂ key) (h : s.Sound cfg₁ cfg₂ key) (hsync : cfg₂.asyncWrites = false)
  (ha : s.Unwritten cfg₁ cfg₂ key a)
include hg h hsync ha

/-- A step that neither locks the key nor logs a deletion. -/
theorem Gone.same (hphase : (s.step cfg₁ cfg₂ key a).phase = s.phase)
    (hlog : .delete ∈ (s.step cfg₁ cfg₂ key a).log ↔ .delete ∈ s.log) :
    (s.step cfg₁ cfg₂ key a).Gone cfg₁ cfg₂ key := by
  obtain ⟨hhon, hset⟩ := ha
  have hcleared (hc : (s.step cfg₁ cfg₂ key a).Cleared) : s.Cleared := by
    unfold Cleared at hc
    rwa [hphase, hlog] at hc
  refine ⟨fun v hv ↦ hg.phase v (hphase.symm.trans hv), fun hc ↦ ?_,
    fun hc g' hg' v w hcop hw ↦ ?_, fun hd ↦ ?_⟩
  · refine Option.eq_none_iff_forall_not_mem.2 fun e' he' ↦ ?_
    rcases (h.turns₂ hhon).lookup e' he' with ⟨-, -, hst⟩ | ⟨e, he, -⟩
    · exact hg.phase _ hst
    · rw [hg.l2 (hcleared hc)] at he
      cases he
  · refine (h.copies_step (P := fun _ ↦ False) hsync hhon (fun e he _ ↦ ?_)
      (fun g hg' v w hv hw ↦ .inl (hg.void (hcleared hc) g hg' v w hv hw)) hg' hcop hw).resolve_right id
    rw [hg.l2 (hcleared hc)] at he
    cases he
  · replace hd := hlog.1 hd
    obtain ⟨hnone, hu⟩ := hg.l1 hd
    have hfree := unlocked_iff.1 hu
    refine ⟨Option.eq_none_iff_forall_not_mem.2 fun e' he' ↦ ?_, unlocked_iff.2 fun g' hg' ↦ ?_⟩
    · rcases (h.turns₁ hhon).lookup e' he' with
        (⟨j, env, w₁, w₂, sc, weight, -, hj, -⟩ | ⟨env, rfl⟩) | ⟨e, he, -⟩
      · cases hfree _ (List.mem_of_getElem? hj)
      · exact hset _ _ rfl
      · rw [hnone] at he
        cases he
    · rcases moved_step hg' with hmem | ⟨-, hl⟩ | _ | _ | _ | _ | ⟨hj, -, -, hcur⟩
      · exact hfree g' hmem
      · exact hl
      · rfl
      · rfl
      · rfl
      · rfl
      · -- the guard does not pass once L2 was cleared
        have hv := hg.void (.inr hd) _ (List.mem_of_getElem? hj) _ _ rfl rfl
        rw [Cache.watchCurrent_of_void hv] at hcur
        cases hcur

theorem Gone.step : (s.step cfg₁ cfg₂ key a).Gone cfg₁ cfg₂ key := by
  obtain ⟨s', hs', hturn⟩ : ∃ s', s.step cfg₁ cfg₂ key a = s' ∧ s.Turned cfg₁ cfg₂ key a s' :=
    ⟨_, rfl, turned_step s a⟩
  rw [hs']
  cases hturn with
  | same hphase hlog => exact hs' ▸ hg.same h hsync ha (hs' ▸ hphase) (hs' ▸ hlog)
  | set => exact absurd rfl (ha.2 _ _)
  | written hset => exact absurd hset (hg.phase _)
  | @cleared env =>
    have hc : Cache.Overwrites cfg₂ key (fun _ ↦ False) s.l2 (s.l2.deleteSection cfg₂ env key) :=
      Cache.overwrites_deleteSection h.opened₂
    refine ⟨fun _ hp ↦ (by cases hp), fun _ ↦ ?_, fun _ g hmem v w _ hw ↦ ?_,
      fun hd ↦ ⟨(hg.l1 hd).1, unlocked_iff.2 (unlocked_iff.1 (hg.l1 hd).2)⟩⟩
    · exact Option.eq_none_iff_forall_not_mem.2 fun e he ↦ hc.only e he
    · exact h.watched.void_of_voids (List.mem_filterMap.2 ⟨g, hmem, hw⟩) hc.marks hc.voids
  | @deleted env hdel hu =>
    have hc : Cache.Overwrites cfg₁ key (fun _ ↦ False) s.l1 (s.l1.deleteSection cfg₁ env key) :=
      Cache.overwrites_deleteSection h.opened₁
    refine ⟨fun _ hp ↦ (by cases hp), fun _ ↦ hg.l2 (.inl hdel), fun _ ↦ hg.void (.inl hdel),
      fun _ ↦ ⟨?_, unlocked_iff.2 (unlocked_iff.1 hu)⟩⟩
    exact Option.eq_none_iff_forall_not_mem.2 fun e he ↦ hc.only e he

end

/-- **A deleted key is in neither tier**: once a `Delete` has returned and none is under way, however many
`Get`s were or still are, in every run in which the key is not written. -/
theorem absent_of_deleted {l1 : Cache K V n₁} {l2 : Cache K V n₂} {others : List (K × ℕ)}
    (hsync : cfg₂.asyncWrites = false) (hr₁ : Reached cfg₁ l1) (hr₂ : Reached cfg₂ l2)
    (ho₁ : l1.closed = false ∧ l1.sealed = false) (ho₂ : l2.closed = false ∧ l2.sealed = false)
    (hw : l2.Watched cfg₂ key [] others) {l : List (Act K V n₁ n₂)}
    (hl : Runs.Along (step cfg₁ cfg₂ key) (Unwritten cfg₁ cfg₂ key) (start l1 l2 others) l)
    (hret : .delete ∈ (l.foldl (step cfg₁ cfg₂ key) (start l1 l2 others)).log) :
    (l.foldl (step cfg₁ cfg₂ key) (start l1 l2 others)).l1.lookupKey cfg₁ key = none ∧
      (l.foldl (step cfg₁ cfg₂ key) (start l1 l2 others)).l2.lookupKey cfg₂ key = none := by
  have hsound : (start l1 l2 others).Sound cfg₁ cfg₂ key := sound_start hr₁ hr₂ ho₁ ho₂ hw
  have hgone : (start l1 l2 others).Gone cfg₁ cfg₂ key := by
    have hclear : ¬(start l1 l2 others).Cleared := by rintro (hp | hp) <;> cases hp
    exact ⟨fun _ hp ↦ (by cases hp), fun hc ↦ absurd hc hclear, fun hc ↦ absurd hc hclear,
      fun hd ↦ absurd (.inr hd) hclear⟩
  have hinv := hl.invariant (I := fun s ↦ s.Sound cfg₁ cfg₂ key ∧ s.Gone cfg₁ cfg₂ key)
    (fun _ _ ha h ↦ ⟨h.1.step ha.1, h.2.step h.1 hsync ha⟩) ⟨hsound, hgone⟩
  exact ⟨(hinv.2.l1 hret).1, hinv.2.l2 (.inr hret)⟩

end Step

end TieredRun

/-- A tier that has the key. -/
def filledTier : Cache ℕ ℕ 1 := step storeConfig (.instant 1) (new storeConfig 1) (.set 1 1)

/-- A `Get` passes the guard, a `Delete` clears L2, and the `Get` stores what it found in L1 before the
`Delete` comes there. -/
def getAcrossDelete : List (TieredRun.Act ℕ ℕ 1 1) :=
  .call :: List.replicate 8 (.get 0 (.instant 2)) ++
    [.delete (.instant 3), .get 0 (.instant 4), .settle (.instant 5), .get 0 (.instant 6),
      .get 0 (.instant 6)]

theorem absent_of_deleted_across :
    ((getAcrossDelete.take 11).foldl (TieredRun.step storeConfig storeConfig 1)
      (.start (new storeConfig 1) filledTier [])).l1.memory storeConfig 1 = some 1 ∧
    (getAcrossDelete.foldl (TieredRun.step storeConfig storeConfig 1)
      (.start (new storeConfig 1) filledTier [])).l1.lookupKey storeConfig 1 = none ∧
    (getAcrossDelete.foldl (TieredRun.step storeConfig storeConfig 1)
      (.start (new storeConfig 1) filledTier [])).l2.lookupKey storeConfig 1 = none := by
  have hflights : filledTier.flightsOf storeConfig 1 = .empty := by rfl
  have hwatched : filledTier.Watched storeConfig 1 [] [] := ⟨by rw [hflights]; exact .empty, nofun⟩
  have hreached : Reached storeConfig filledTier := .op (.new _) _ _
  have hall : ∀ a ∈ getAcrossDelete, ∀ s, TieredRun.Unwritten storeConfig storeConfig 1 s a := by
    simp [getAcrossDelete, TieredRun.Unwritten, TieredRun.Honest]
  have hret : .delete ∈ (getAcrossDelete.foldl (TieredRun.step storeConfig storeConfig 1)
      (.start (new storeConfig 1) filledTier [])).log := by decide +kernel
  exact ⟨by decide +kernel, TieredRun.absent_of_deleted rfl (.new _) hreached ⟨rfl, rfl⟩
    ⟨by rfl, by rfl⟩ hwatched (.of_forall_mem hall _) hret⟩

end Memcache
