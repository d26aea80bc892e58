import Memcache.Tiered.Deleted

/-!
# Two tiers that are written and read

`Set` writes L1, then L2. A `Get` whose watches of both tiers begin between the two finds the older value
in L2 with neither token marked, and copies it over the newer one in L1: `Set` then writes L2 and returns,
and the tiers differ.

This is the only way to it: when no `Get` passes the guard **while a `Set` is between the tiers**, what
L1 holds is what L2 holds.
-/

namespace Memcache

namespace TieredRun

variable {K V : Type*} {n₁ n₂ : ℕ} [BEq K] [NeZero n₁] [NeZero n₂] [Inhabited V]
  {cfg₁ cfg₂ : Config K V} {key : K} {s : TieredRun K V n₁ n₂} {a : Act K V n₁ n₂}

/-- A `Delete` or an invalidation. -/
def Act.Removes : Act K V n₁ n₂ → Prop
  | .delete _ | .invalidateTag _ | .invalidate _ => True
  | _ => False

/-- L2 does not lose the key, and takes what a `Set` writes. -/
def Keeps₂ (cfg₁ cfg₂ : Config K V) (key : K) (s : TieredRun K V n₁ n₂) (a : Act K V n₁ n₂) : Prop :=
  (s.l2.memory cfg₂ key ≠ none → (s.step cfg₁ cfg₂ key a).l2.memory cfg₂ key ≠ none) ∧
  ∀ env value, a = .settle env → s.phase = .setting value →
    (s.step cfg₁ cfg₂ key a).l2.memory cfg₂ key = some value

/-- A `Get` passes the guard while a `Set` is between the tiers. -/
def Crosses (cfg₁ cfg₂ : Config K V) (key : K) (s : TieredRun K V n₁ n₂) (a : Act K V n₁ n₂) : Prop :=
  ∃ j env w₁ w₂ v sc weight value, a = .get j env ∧ s.gets[j]? = some (.allowed w₁ w₂ v sc weight) ∧
    s.l1.watchCurrent cfg₁ key w₁ = true ∧ s.l2.watchCurrent cfg₂ key w₂ = true ∧
    s.phase = .setting value

structure Orderly (cfg₁ cfg₂ : Config K V) (key : K) (s : TieredRun K V n₁ n₂) (a : Act K V n₁ n₂) :
    Prop where
  honest : s.Honest cfg₁ cfg₂ key a
  keeps : s.Keeps₂ cfg₁ cfg₂ key a
  removes : ¬a.Removes
  crosses : ¬s.Crosses cfg₁ cfg₂ key a

/-- The tiers agree up to the `Set` under way, and a `Get` has a value of L2's or a marked token. -/
structure Even (cfg₁ cfg₂ : Config K V) (key : K) (s : TieredRun K V n₁ n₂) : Prop where
  phase : s.phase ≠ .deleting
  free : s.phase = .free → s.l1.memory cfg₁ key = none ∨ s.l1.memory cfg₁ key = s.l2.memory cfg₂ key
  setting : ∀ value, s.phase = .setting value →
    s.l1.memory cfg₁ key = none ∨ s.l1.memory cfg₁ key = some value
  copies : ∀ g ∈ s.gets, ∀ v w, g.copies = some v → g.token₂ = some w →
    (s.l2.flightsOf cfg₂ key).Void w ∨ s.l2.memory cfg₂ key = some v
  locked : ∀ w₁ w₂ v sc weight, .locked w₁ w₂ v sc weight ∈ s.gets →
    s.phase = .free ∧ s.l2.memory cfg₂ key = some v

section Step

variable [EquivBEq K]

/-- Only the second half of a `Set` changes what L2 holds. -/
theorem Sound.memory₂_step (h : s.Sound cfg₁ cfg₂ key) (ha : s.Orderly cfg₁ cfg₂ key a)
    (hset : ∀ env value, a = .settle env → s.phase ≠ .setting value) :
    (s.step cfg₁ cfg₂ key a).l2.memory cfg₂ key = s.l2.memory cfg₂ key := by
  have hturn : Cache.Turns cfg₂ key (fun _ ↦ False) s.l2 (s.step cfg₁ cfg₂ key a).l2 :=
    (h.turns₂ ha.honest).mono fun e ⟨env, heq, hp⟩ ↦ hset env e.value heq hp
  rcases hturn.memory (r := none) fun _ hf ↦ hf.elim with hm | hm | hm
  · by_cases hnone : s.l2.memory cfg₂ key = none
    · exact hm.trans hnone.symm
    · exact absurd hm (ha.keeps.1 hnone)
  · exact hm
  · by_cases hnone : s.l2.memory cfg₂ key = none
    · exact hm.trans hnone.symm
    · exact absurd hm (ha.keeps.1 hnone)

/-- What L1 holds after a step other than a write of it. -/
theorem Sound.memory₁_step (h : s.Sound cfg₁ cfg₂ key) (ha : s.Orderly cfg₁ cfg₂ key a)
    (hset : ∀ env value, a ≠ .set env value) :
    (s.step cfg₁ cfg₂ key a).l1.memory cfg₁ key = none ∨
    (s.step cfg₁ cfg₂ key a).l1.memory cfg₁ key = s.l1.memory cfg₁ key ∨
    ∃ w₁ w₂ v sc weight, .locked w₁ w₂ v sc weight ∈ s.gets ∧
      (s.step cfg₁ cfg₂ key a).l1.memory cfg₁ key = some v := by
  rcases he' : (s.step cfg₁ cfg₂ key a).l1.lookupKey cfg₁ key with _ | e'
  · exact .inl (Cache.memory_of_lookup_none he')
  · rw [Cache.memory_of_lookup he']
    rcases hneg : e'.negative
    · rcases (h.turns₁ ha.honest).lookup e' he' with
        (⟨j, env, w₁, w₂, sc, weight, -, hj, -⟩ | ⟨env, rfl⟩) | ⟨e, he, hlike⟩
      · exact .inr (.inr ⟨w₁, w₂, e'.value, sc, weight, List.mem_of_getElem? hj, rfl⟩)
      · exact absurd rfl (hset env e'.value)
      · refine .inr (.inl ?_)
        rw [Cache.memory_of_lookup he, ← hlike.negative, hneg, hlike.value]
    · exact .inl rfl

/-- A step that leaves the key's lock. -/
theorem Even.same (hev : s.Even cfg₁ cfg₂ key) (h : s.Sound cfg₁ cfg₂ key)
    (hsync : cfg₂.asyncWrites = false) (ha : s.Orderly cfg₁ cfg₂ key a)
    (hm : (s.step cfg₁ cfg₂ key a).l2.memory cfg₂ key = s.l2.memory cfg₂ key)
    (hset : ∀ env value, a = .set env value → (s.step cfg₁ cfg₂ key a).l1 = s.l1)
    (hphase : (s.step cfg₁ cfg₂ key a).phase = s.phase) :
    (s.step cfg₁ cfg₂ key a).Even cfg₁ cfg₂ key := by
  have hm₁ : (s.step cfg₁ cfg₂ key a).l1.memory cfg₁ key = none ∨
      (s.step cfg₁ cfg₂ key a).l1.memory cfg₁ key = s.l1.memory cfg₁ key ∨
      s.phase = .free ∧ (s.step cfg₁ cfg₂ key a).l1.memory cfg₁ key = s.l2.memory cfg₂ key := by
    by_cases hs : ∃ env value, a = .set env value
    · obtain ⟨env, value, rfl⟩ := hs
      rw [hset env value rfl]
      exact .inr (.inl rfl)
    · rcases h.memory₁_step ha fun env value heq ↦ hs ⟨env, value, heq⟩ with
        hn | hsame | ⟨w₁, w₂, v, sc, weight, hmem, hv⟩
      · exact .inl hn
      · exact .inr (.inl hsame)
      · obtain ⟨hfree, hl2⟩ := hev.locked _ _ _ _ _ hmem
        exact .inr (.inr ⟨hfree, hv.trans hl2.symm⟩)
  have hfound (e : Entry K V) (he : s.l2.lookupKey cfg₂ key = some e) (hneg : e.negative = false) :
      s.l2.memory cfg₂ key = some e.value := by
    rw [Cache.memory_of_lookup he, hneg]
    rfl
  refine ⟨fun hd ↦ hev.phase (hphase.symm.trans hd), fun hf ↦ ?_, fun value hs ↦ ?_,
    fun g' hg' v w hc hw ↦ (h.copies_step hsync ha.honest hfound hev.copies hg' hc hw).imp_right
      hm.trans, fun w₁ w₂ v sc weight hmem ↦ ?_⟩
  · rw [hm]
    rcases hm₁ with hn | hsame | ⟨-, heq⟩
    · exact .inl hn
    · rw [hsame]
      exact hev.free (hphase.symm.trans hf)
    · exact .inr heq
  · replace hs := hphase.symm.trans hs
    rcases hm₁ with hn | hsame | ⟨hfree, -⟩
    · exact .inl hn
    · rw [hsame]
      exact hev.setting value hs
    · rw [hfree] at hs
      cases hs
  · rw [hphase, hm]
    cases moved_step hmem with
    | same hg => exact hev.locked w₁ w₂ v sc weight hg
    | empty _ hl => cases hl
    | locked hj _ hcur₁ hcur₂ =>
      -- the guard saw the token of L2 unmarked, and no `Set` was between the tiers
      have hval := hev.copies _ (List.mem_of_getElem? hj) v w₂ rfl rfl
      rcases hval with hvoid | hval
      · rw [Cache.watchCurrent_of_void hvoid] at hcur₂
        cases hcur₂
      · refine ⟨?_, hval⟩
        rcases hp : s.phase with _ | value | _
        · rfl
        · exact absurd ⟨_, _, w₁, w₂, v, sc, weight, value, rfl, hj, hcur₁, hcur₂, hp⟩ ha.crosses
        · exact absurd hp hev.phase

omit [NeZero n₁] [Inhabited V] [EquivBEq K] in
theorem phase_endSet (env : Env K) (value : V) : (s.endSet cfg₂ key env value).phase = .free := by
  unfold endSet
  split <;> rfl

omit [NeZero n₁] [Inhabited V] [EquivBEq K] in
theorem endSet_l1_gets (env : Env K) (value : V) :
    (s.endSet cfg₂ key env value).l1 = s.l1 ∧ (s.endSet cfg₂ key env value).gets = s.gets := by
  unfold endSet
  split <;> exact ⟨rfl, rfl⟩

/-- A `Set` that does not get the key's lock leaves L1. -/
theorem Sound.l1_set (h : s.Sound cfg₁ cfg₂ key) {env : Env K} {value : V}
    (hphase : (s.step cfg₁ cfg₂ key (.set env value)).phase = s.phase) :
    (s.step cfg₁ cfg₂ key (.set env value)).l1 = s.l1 := by
  unfold TieredRun.step at hphase ⊢
  dsimp only at hphase ⊢
  split at hphase
  · next hfree =>
    by_cases hu : s.unlocked = true
    · rw [if_pos hu] at hphase ⊢
      rcases Cache.setSection_cases cfg₁ env h.unsealed₁ key value with ⟨c, heq, -⟩ | ⟨err, heq⟩
      · rw [beginSet, heq] at hphase
        exact absurd (hphase.trans hfree) nofun
      · rw [beginSet, heq]
    · rw [if_neg hu]
  · rfl

/-- The second half of a `Set`: tokens of L2 are marked, and both tiers hold the value. -/
theorem Even.written (hev : s.Even cfg₁ cfg₂ key) (h : s.Sound cfg₁ cfg₂ key) {env : Env K} {value : V}
    (hset : s.phase = .setting value)
    (hm : (s.endSet cfg₂ key env value).l2.memory cfg₂ key = some value) :
    (s.endSet cfg₂ key env value).Even cfg₁ cfg₂ key := by
  have hfree : (s.endSet cfg₂ key env value).phase = .free := phase_endSet env value
  obtain ⟨hl1, hgets⟩ : (s.endSet cfg₂ key env value).l1 = s.l1 ∧
      (s.endSet cfg₂ key env value).gets = s.gets := endSet_l1_gets env value
  refine ⟨by rw [hfree]; nofun, fun _ ↦ ?_, fun v hv ↦ ?_, fun g hg v w hc hw ↦ ?_,
    fun w₁ w₂ v sc weight hmem ↦ ?_⟩
  · rw [hl1, hm]
    exact hev.setting value hset
  · rw [hfree] at hv
    cases hv
  · rw [hgets] at hg
    rcases Cache.setSection_cases cfg₂ env h.unsealed₂ key value with ⟨c, heq, hover⟩ | ⟨err, heq⟩
    · rw [endSet, heq]
      exact .inl (h.watched.void_of_voids (List.mem_filterMap.2 ⟨g, hg, hw⟩) hover.marks hover.voids)
    · rw [endSet, heq]
      exact hev.copies g hg v w hc hw
  · rw [hgets] at hmem
    have hp := (hev.locked w₁ w₂ v sc weight hmem).1
    rw [hset] at hp
    cases hp

theorem Even.step (hev : s.Even cfg₁ cfg₂ key) (h : s.Sound cfg₁ cfg₂ key)
    (hsync : cfg₂.asyncWrites = false) (ha : s.Orderly cfg₁ cfg₂ key a) :
    (s.step cfg₁ cfg₂ key a).Even cfg₁ cfg₂ key := by
  obtain ⟨s', hs', hturn⟩ : ∃ s', s.step cfg₁ cfg₂ key a = s' ∧ s.Turned cfg₁ cfg₂ key a s' :=
    ⟨_, rfl, turned_step s a⟩
  rw [hs']
  cases hturn with
  | same hphase =>
    subst hs'
    refine hev.same h hsync ha (h.memory₂_step ha ?_) ?_ hphase
    · rintro env value rfl hset
      have hend : s.step cfg₁ cfg₂ key (.settle env) = s.endSet cfg₂ key env value := by
        show s.settle cfg₁ cfg₂ key env = _
        rw [settle, hset]
      rw [hend, phase_endSet, hset] at hphase
      cases hphase
    · rintro env value rfl
      exact h.l1_set hphase
  | @set env value c hfree hu hset =>
    rcases Cache.setSection_cases cfg₁ env h.unsealed₁ key value with ⟨c', heq, hover⟩ | ⟨err, heq⟩
    · obtain rfl : c' = c := (Prod.ext_iff.1 (heq.symm.trans hset)).2
      refine ⟨nofun, nofun, fun v hv ↦ ?_, hev.copies, fun w₁ w₂ v sc weight hmem ↦ ?_⟩
      · cases hv
        exact hover.memory
      · cases unlocked_iff.1 hu _ hmem
    · rw [heq] at hset
      cases hset
  | written hset => exact hev.written h hset (hs' ▸ ha.keeps.2 _ _ rfl hset)
  | cleared => exact absurd trivial ha.removes
  | deleted hdel => exact absurd hdel hev.phase

/-- **What L1 holds is what L2 holds**, when no write of the key is under way, in every run of `Set`s and
`Get`s in which no `Get` passes the guard between the two halves of a `Set`. -/
theorem memory_eq_of_orderly {l1 : Cache K V n₁} {l2 : Cache K V n₂} {others : List (K × ℕ)}
    (hsync : cfg₂.asyncWrites = false) (hr₁ : Reached cfg₁ l1) (hr₂ : Reached cfg₂ l2)
    (ho₁ : l1.closed = false ∧ l1.sealed = false) (ho₂ : l2.closed = false ∧ l2.sealed = false)
    (hw : l2.Watched cfg₂ key [] others)
    (hm : l1.memory cfg₁ key = none ∨ l1.memory cfg₁ key = l2.memory cfg₂ key)
    {l : List (Act K V n₁ n₂)}
    (hl : Runs.Along (step cfg₁ cfg₂ key) (Orderly cfg₁ cfg₂ key) (start l1 l2 others) l)
    (hfree : (l.foldl (step cfg₁ cfg₂ key) (start l1 l2 others)).phase = .free) {v : V}
    (hv : (l.foldl (step cfg₁ cfg₂ key) (start l1 l2 others)).l1.memory cfg₁ key = some v) :
    (l.foldl (step cfg₁ cfg₂ key) (start l1 l2 others)).l2.memory cfg₂ key = some v := by
  have heven : (start l1 l2 others).Even cfg₁ cfg₂ key :=
    ⟨(by rintro ⟨⟩), fun _ ↦ hm, fun _ hp ↦ (by cases hp), fun g hg ↦ absurd hg List.not_mem_nil,
      fun _ _ _ _ _ hg ↦ absurd hg List.not_mem_nil⟩
  have hinv := hl.invariant (I := fun s ↦ s.Sound cfg₁ cfg₂ key ∧ s.Even cfg₁ cfg₂ key)
    (fun _ _ ha h ↦ ⟨h.1.step ha.honest, h.2.step h.1 hsync ha⟩)
    ⟨sound_start hr₁ hr₂ ho₁ ho₂ hw, heven⟩
  rcases hinv.2.free hfree with hn | heq
  · rw [hn] at hv
    cases hv
  · exact heq.symm.trans hv

end Step

end TieredRun

/-- A `Get` that misses L1 before a `Set`, and copies what the `Set` wrote. -/
def promotedAfter : List (TieredRun.Act ℕ ℕ 1 1) :=
  [.call, .get 0 (.instant 1), .set (.instant 1) 7, .settle (.instant 1)] ++
    List.replicate 8 (.get 0 (.instant 2))

theorem memory_eq_of_orderly_after :
    let s := promotedAfter.foldl (TieredRun.step storeConfig storeConfig 1)
      (.start (new storeConfig 1) (new storeConfig 1) [])
    s.l1.memory storeConfig 1 = some 7 ∧ s.l2.memory storeConfig 1 = some 7 := by
  have hget {s : TieredRun ℕ ℕ 1 1} {j : ℕ} {env : Env ℕ} (hfree : s.phase = .free)
      (hk : s.l2.memory storeConfig 1 ≠ none →
        (s.step storeConfig storeConfig 1 (.get j env)).l2.memory storeConfig 1 ≠ none) :
      s.Orderly storeConfig storeConfig 1 (.get j env) := by
    refine ⟨trivial, ⟨hk, nofun⟩, id, ?_⟩
    rintro ⟨_, _, _, _, _, _, _, _, -, -, -, -, hp⟩
    rw [hfree] at hp
    cases hp
  have hother {s : TieredRun ℕ ℕ 1 1} {a : TieredRun.Act ℕ ℕ 1 1} (ha : ∀ j env, a ≠ .get j env) :
      ¬s.Crosses storeConfig storeConfig 1 a :=
    fun ⟨j, env, _, _, _, _, _, _, heq, _⟩ ↦ ha j env heq
  have hl : Runs.Along (TieredRun.step storeConfig storeConfig 1)
      (TieredRun.Orderly storeConfig storeConfig 1)
      (.start (new storeConfig 1) (new storeConfig 1) []) promotedAfter := by
    refine ⟨⟨trivial, ⟨by decide +kernel, nofun⟩, id, hother nofun⟩,
      hget (by decide +kernel) (by decide +kernel),
      ⟨trivial, ⟨by decide +kernel, nofun⟩, id, hother nofun⟩,
      ⟨trivial, ⟨by decide +kernel, fun _ _ _ hp ↦ ?_⟩, id, hother nofun⟩,
      hget (by decide +kernel) (by decide +kernel), hget (by decide +kernel) (by decide +kernel), hget (by decide +kernel) (by decide +kernel),
      hget (by decide +kernel) (by decide +kernel), hget (by decide +kernel) (by decide +kernel), hget (by decide +kernel) (by decide +kernel),
      hget (by decide +kernel) (by decide +kernel), hget (by decide +kernel) (by decide +kernel), trivial⟩
    cases hp
    decide +kernel
  have hv : (promotedAfter.foldl (TieredRun.step storeConfig storeConfig 1)
      (.start (new storeConfig 1) (new storeConfig 1) [])).l1.memory storeConfig 1 = some 7 := by
    decide +kernel
  exact ⟨hv, TieredRun.memory_eq_of_orderly rfl (.new _) (.new _) ⟨rfl, rfl⟩ ⟨rfl, rfl⟩
    ⟨.empty, fun _ h ↦ absurd h List.not_mem_nil⟩ (.inl (by decide +kernel)) hl rfl hv⟩

/-- A `Get` misses L1. One `Set` writes `7`; the next has written `8` into L1 when the `Get` watches both
tiers, reads L2 and stores what it read in L1; then the `Set` writes L2. -/
def promotedBetween : List (TieredRun.Act ℕ ℕ 1 1) :=
  [.call, .get 0 (.instant 1), .set (.instant 1) 7, .settle (.instant 1), .set (.instant 2) 8] ++
    List.replicate 10 (.get 0 (.instant 3)) ++ [.settle (.instant 4)]

theorem old_value_in_l1 :
    let s := promotedBetween.foldl (TieredRun.step storeConfig storeConfig 1)
      (.start (new storeConfig 1) (new storeConfig 1) [])
    s.phase = .free ∧ s.gets.all (fun g ↦ g.token₁.isNone) = true ∧ s.log.length = 2 ∧
      s.l1.memory storeConfig 1 = some 7 ∧ s.l2.memory storeConfig 1 = some 8 :=
  ⟨rfl, by decide +kernel, by decide +kernel, by decide +kernel, by decide +kernel⟩

end Memcache
