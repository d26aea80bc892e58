import Memcache.Tiered.Sections

/-!
# The tiers stay sound

What every run of the two tiers keeps, whichever calls it is made of: each tier is in a state that it
can reach, open, and the tokens of L2 that the `Get`s hold are accounted for. Nothing is asked of the
tokens of L1: the guard looks at the token, and what it must prevent is said by the results that need
it.
-/

namespace Memcache

open TieredGet (token₂)

variable {K V : Type*} {n₁ n₂ : ℕ} {j : ℕ}

/-- One element of a list replaced: the images under a partial function change by its own. -/
theorem filterMap_set_perm {α β : Type*} (f : α → Option β) {l : List α} {a : α}
    (hj : l[j]? = some a) :
    ∃ rest : List β, (l.filterMap f).Perm ((f a).toList ++ rest) ∧
      ∀ a', ((l.set j a').filterMap f).Perm ((f a').toList ++ rest) := by
  obtain ⟨hlt, rfl⟩ := List.getElem?_eq_some_iff.1 hj
  have hcons (a' : α) :
      (a' :: l.eraseIdx j).filterMap f = (f a').toList ++ (l.eraseIdx j).filterMap f := by
    rw [List.filterMap_cons]
    rcases f a' with _ | b <;> rfl
  exact ⟨_, hcons l[j] ▸ (List.getElem_cons_eraseIdx_perm hlt).symm.filterMap f,
    fun a' ↦ hcons a' ▸ (List.set_perm_cons_eraseIdx hlt a').filterMap f⟩

/-- A weight that was computed is one that an entry may have. -/
def TieredGet.Weighs : TieredGet V → Prop
  | .allowed _ _ _ _ weight | .locked _ _ _ _ weight => 1 ≤ weight ∧ weight ≤ maxEntryWeight
  | _ => True

namespace TieredRun

variable [BEq K] [NeZero n₁] [NeZero n₂] [Inhabited V] {cfg₁ cfg₂ : Config K V} {key : K}
  {s : TieredRun K V n₁ n₂}

structure Sound (cfg₁ cfg₂ : Config K V) (key : K) (s : TieredRun K V n₁ n₂) : Prop where
  reached₁ : Reached cfg₁ s.l1
  reached₂ : Reached cfg₂ s.l2
  opened₁ : s.l1.closed = false
  opened₂ : s.l2.closed = false
  unsealed₁ : s.l1.sealed = false
  unsealed₂ : s.l2.sealed = false
  watched : s.l2.Watched cfg₂ key (s.gets.filterMap token₂) s.others
  weighs : ∀ g ∈ s.gets, g.Weighs

/-- Other threads leave the key's entry or remove it, and at most mark tokens of L2. -/
def Honest (cfg₁ cfg₂ : Config K V) (key : K) (s : TieredRun K V n₁ n₂) : Act K V n₁ n₂ → Prop
  | .work₁ c => Cache.Turns cfg₁ key (fun _ ↦ False) s.l1 c
  | .work₂ c => Cache.Turns cfg₂ key (fun _ ↦ False) s.l2 c ∧
      Flights.Marks (s.l2.flightsOf cfg₂ key) (c.flightsOf cfg₂ key)
  | _ => True

/-- What a step may store in L1: the value of a `Get` that passed the guard, or of a `Set`. -/
def Stores₁ (s : TieredRun K V n₁ n₂) (a : Act K V n₁ n₂) (e : Entry K V) : Prop :=
  (∃ j env w₁ w₂ sc weight, a = .get j env ∧
    s.gets[j]? = some (.locked w₁ w₂ e.value sc weight) ∧ e.tags = sc.tags) ∨
  ∃ env, a = .set env e.value

/-- What a step may store in L2: the value of a `Set` that L1 has. -/
def Stores₂ (s : TieredRun K V n₁ n₂) (a : Act K V n₁ n₂) (e : Entry K V) : Prop :=
  ∃ env, a = .settle env ∧ s.phase = .setting e.value

variable {g g' : TieredGet V}

omit [BEq K] [NeZero n₁] [NeZero n₂] [Inhabited V] in
theorem mem_put (hg : g' ∈ (s.put j g).gets) : g' = g ∨ g' ∈ s.gets :=
  (List.mem_or_eq_of_mem_set hg).symm

omit [BEq K] [NeZero n₁] [NeZero n₂] [Inhabited V] in
theorem unlocked_iff : s.unlocked = true ↔ ∀ g ∈ s.gets, g.locks = false := by
  simp [unlocked]

theorem sound_start {l1 : Cache K V n₁} {l2 : Cache K V n₂} {others : List (K × ℕ)}
    (hr₁ : Reached cfg₁ l1) (hr₂ : Reached cfg₂ l2) (ho₁ : l1.closed = false ∧ l1.sealed = false)
    (ho₂ : l2.closed = false ∧ l2.sealed = false) (hw : l2.Watched cfg₂ key [] others) :
    (start l1 l2 others).Sound cfg₁ cfg₂ key :=
  ⟨hr₁, hr₂, ho₁.1, ho₂.1, ho₁.2, ho₂.2, hw, fun _ hg ↦ absurd hg List.not_mem_nil⟩

/-! ### The key's lock -/

/-- What a step does to the call that holds the key's lock. -/
inductive Turned (cfg₁ cfg₂ : Config K V) (key : K) (s : TieredRun K V n₁ n₂) :
    Act K V n₁ n₂ → TieredRun K V n₁ n₂ → Prop where
  | same {a : Act K V n₁ n₂} {s' : TieredRun K V n₁ n₂} (hphase : s'.phase = s.phase)
      (hlog : .delete ∈ s'.log ↔ .delete ∈ s.log) : Turned cfg₁ cfg₂ key s a s'
  | set {env : Env K} {value : V} {c : Cache K V n₁} (hfree : s.phase = .free)
      (hu : s.unlocked = true) (hset : s.l1.setSection cfg₁ env key value = (.ok (), c)) :
      Turned cfg₁ cfg₂ key s (.set env value) { s with l1 := c, phase := .setting value }
  | written {env : Env K} {value : V} (hset : s.phase = .setting value) :
      Turned cfg₁ cfg₂ key s (.settle env) (s.endSet cfg₂ key env value)
  | cleared {env : Env K} (hfree : s.phase = .free) :
      Turned cfg₁ cfg₂ key s (.delete env)
        { s with l2 := s.l2.deleteSection cfg₂ env key, phase := .deleting }
  | deleted {env : Env K} (hdel : s.phase = .deleting) (hu : s.unlocked = true) :
      Turned cfg₁ cfg₂ key s (.settle env)
        { s with
          l1 := s.l1.deleteSection cfg₁ env key
          phase := .free
          log := s.log ++ [.delete] }

omit [Inhabited V] in
theorem turned_step (s : TieredRun K V n₁ n₂) (a : Act K V n₁ n₂) :
    s.Turned cfg₁ cfg₂ key a (s.step cfg₁ cfg₂ key a) := by
  cases a with
  | set env value =>
    unfold step
    dsimp only
    split
    · next hfree =>
      by_cases hu : s.unlocked = true
      · rw [if_pos hu]
        unfold beginSet
        split
        · next c hset => exact .set hfree hu hset
        · exact .same rfl (by simp)
      · rw [if_neg hu]
        exact .same rfl .rfl
    · exact .same rfl .rfl
  | get j env =>
    unfold step
    dsimp only
    split
    · next g hj =>
      cases g <;> unfold advance <;> dsimp only <;> (try split_ifs) <;> exact .same rfl .rfl
    · exact .same rfl .rfl
  | delete env =>
    unfold step
    dsimp only
    split
    · next hfree => exact .cleared hfree
    · exact .same rfl .rfl
  | settle env =>
    unfold step settle
    dsimp only
    split
    · exact .same rfl .rfl
    · next value hset => exact .written hset
    · next hdel =>
      split_ifs with hu
      · exact .deleted hdel hu
      · exact .same rfl .rfl
  | invalidate env =>
    unfold step invalidate
    dsimp only
    split
    · exact .same rfl .rfl
    · exact .same rfl .rfl
    · exact .same rfl .rfl
    · by_cases hu : s.unlocked = true
      · rw [if_pos hu]
        exact .same rfl (by simp)
      · rw [if_neg hu]
        exact .same rfl .rfl
  | invalidateTag tag =>
    unfold step
    dsimp only
    split <;> exact .same rfl .rfl
  | call | work₁ | work₂ | other => exact .same rfl .rfl

section Step

variable [EquivBEq K] {a : Act K V n₁ n₂}

/-- The section of an invalidation in a tier. -/
theorem turns_invalidate {n : ℕ} [NeZero n] {P : Entry K V → Prop} (cfg : Config K V) (env : Env K)
    (c : Cache K V n) (key : K) (hit : Bool) :
    Cache.Turns cfg key P c (if hit then c.invalidateSection cfg env key else c) ∧
      Flights.Marks (c.flightsOf cfg key)
        ((if hit then c.invalidateSection cfg env key else c).flightsOf cfg key) := by
  split_ifs
  · rcases Cache.invalidateSection_cases cfg env c key with hc | ⟨-, heq⟩
    · exact ⟨hc.toTurns.mono fun _ ↦ False.elim, hc.marks⟩
    · rw [heq]
      exact ⟨Cache.turns_releaseShard c _, (Cache.sheds_releaseShard c).marks _⟩
  · exact ⟨.refl c, .refl _⟩

/-! ### Each tier after a step -/

section

variable (h : s.Sound cfg₁ cfg₂ key)
include h

theorem Sound.turns₁_advance {env : Env K} {g : TieredGet V} (hj : s.gets[j]? = some g) :
    Cache.Turns cfg₁ key (s.Stores₁ (.get j env)) s.l1
      (s.advance cfg₁ cfg₂ key env j g).l1 := by
  cases g with
  | start =>
    unfold advance
    dsimp only
    split_ifs
    · exact (Cache.turns_get h.reached₁ env key).1
    · exact (Cache.turns_get h.reached₁ env key).1
    · exact .refl _
  | missed =>
    unfold advance
    dsimp only
    split_ifs
    · exact Cache.turns_watchKey s.l1 key
    · exact .refl _
  | allowed w₁ w₂ v sc weight =>
    unfold advance
    dsimp only
    split_ifs
    · exact .refl _
    · exact Cache.turns_releaseShard s.l1 _
    · exact .refl _
  | locked w₁ w₂ v sc weight =>
    have hw : 1 ≤ weight ∧ weight ≤ maxEntryWeight := h.weighs _ (List.mem_of_getElem? hj)
    refine (Cache.turns_upsertOptionsLocked h.unsealed₁ v hw sc).mono fun e he ↦ .inl ?_
    exact ⟨j, env, w₁, w₂, sc, weight, rfl, he.1 ▸ hj, he.2⟩
  | left w₁ =>
    unfold advance
    dsimp only
    split_ifs
    · exact Cache.turns_unwatchKey s.l1 key w₁
    · exact .refl _
  | _ => exact .refl _

/-- **L1 after a step.** -/
theorem Sound.turns₁ (ha : s.Honest cfg₁ cfg₂ key a) :
    Cache.Turns cfg₁ key (s.Stores₁ a) s.l1 (s.step cfg₁ cfg₂ key a).l1 := by
  cases a with
  | get j env =>
    unfold step
    dsimp only
    split
    · next g hj => exact h.turns₁_advance hj
    · exact .refl _
  | set env value =>
    unfold step
    dsimp only
    split
    · split_ifs
      · unfold beginSet
        rcases Cache.setSection_cases cfg₁ env h.unsealed₁ key value with ⟨c, heq, hc⟩ | ⟨err, heq⟩
        · rw [heq]
          exact hc.toTurns.mono fun e he ↦ .inr ⟨env, he ▸ rfl⟩
        · rw [heq]
          exact .refl _
      · exact .refl _
    · exact .refl _
  | settle env =>
    unfold step settle
    dsimp only
    split
    · exact .refl _
    · unfold endSet
      split <;> exact .refl _
    · split_ifs
      · exact (Cache.overwrites_deleteSection h.opened₁).toTurns.mono fun _ ↦ False.elim
      · exact .refl _
  | invalidate env =>
    unfold step invalidate
    dsimp only
    split
    · exact .refl _
    · exact .refl _
    · exact .refl _
    · next tag hit _ =>
      by_cases hu : s.unlocked = true
      · rw [if_pos hu]
        exact (turns_invalidate cfg₁ env s.l1 key hit).1
      · rw [if_neg hu]
        exact .refl _
  | work₁ c =>
    have hc : Cache.Turns cfg₁ key (fun _ ↦ False) s.l1 c := ha
    exact hc.mono fun _ ↦ False.elim
  | delete env | invalidateTag tag =>
    unfold step
    dsimp only
    split <;> exact .refl _
  | call | work₂ | other => exact .refl _

/-- **L2 after a step.** -/
theorem Sound.turns₂ (ha : s.Honest cfg₁ cfg₂ key a) :
    Cache.Turns cfg₂ key (s.Stores₂ a) s.l2 (s.step cfg₁ cfg₂ key a).l2 := by
  cases a with
  | get j env =>
    unfold step
    dsimp only
    split
    · next g hj =>
      cases g with
      | watching w₁ => exact Cache.turns_watchKey s.l2 key
      | watched w₁ w₂ => exact (Cache.turns_get h.reached₂ env key).1
      | leaving w₁ w₂ => exact Cache.turns_unwatchKey s.l2 key w₂
      | start | missed | allowed | left =>
        unfold advance
        dsimp only
        split_ifs <;> exact .refl _
      | _ => exact .refl _
    · exact .refl _
  | set env value =>
    unfold step
    dsimp only
    split
    · split_ifs
      · unfold beginSet
        split <;> exact .refl _
      · exact .refl _
    · exact .refl _
  | settle env =>
    unfold step settle
    dsimp only
    split
    · exact .refl _
    · next value hp =>
      unfold endSet
      rcases Cache.setSection_cases cfg₂ env h.unsealed₂ key value with ⟨c, heq, hc⟩ | ⟨err, heq⟩
      · rw [heq]
        exact hc.toTurns.mono fun e he ↦ ⟨env, rfl, he ▸ hp⟩
      · rw [heq]
        exact .refl _
    · split_ifs <;> exact .refl _
  | delete env =>
    unfold step
    dsimp only
    split
    · exact (Cache.overwrites_deleteSection h.opened₂).toTurns.mono fun _ ↦ False.elim
    · exact .refl _
  | invalidate env =>
    unfold step invalidate
    dsimp only
    split
    · exact .refl _
    · next tag hit _ => exact (turns_invalidate cfg₂ env s.l2 key hit).1
    · exact .refl _
    · by_cases hu : s.unlocked = true
      · rw [if_pos hu]
        exact .refl _
      · rw [if_neg hu]
        exact .refl _
  | invalidateTag tag =>
    unfold step
    dsimp only
    split <;> exact .refl _
  | work₂ c => exact ha.1.mono fun _ ↦ False.elim
  | other a =>
    obtain ⟨haside, -⟩ := h.watched.other a
    exact .of_lookup haside.lookup haside.closed haside.sealed fun hc ↦
      Cache.reached_otherWatch hc s.others a
  | call | work₁ => exact .refl _

/-! ### The tokens of L2 after a step -/

omit [EquivBEq K] in
/-- A section that only marks, and a `Get` that moves on with the token it has. -/
theorem Sound.tokens_put (hj : s.gets[j]? = some g) (ht : g'.token₂ = g.token₂) {c : Cache K V n₂}
    (hm : Flights.Marks (s.l2.flightsOf cfg₂ key) (c.flightsOf cfg₂ key)) :
    c.Watched cfg₂ key ((s.gets.set j g').filterMap token₂) s.others ∧
      ∀ w ∈ s.gets.filterMap token₂, (s.l2.flightsOf cfg₂ key).Void w →
        (c.flightsOf cfg₂ key).Void w := by
  obtain ⟨rest, hold, hnew⟩ := filterMap_set_perm token₂ hj
  exact ⟨(h.watched.perm (hold.trans (ht ▸ hnew g').symm)).marks hm, fun w _ ↦ hm.void⟩

theorem Sound.tokens_advance {env : Env K} {g : TieredGet V} (hj : s.gets[j]? = some g) :
    (s.advance cfg₁ cfg₂ key env j g).l2.Watched cfg₂ key
        ((s.advance cfg₁ cfg₂ key env j g).gets.filterMap token₂)
        (s.advance cfg₁ cfg₂ key env j g).others ∧
      ∀ w ∈ s.gets.filterMap token₂, (s.l2.flightsOf cfg₂ key).Void w →
        ((s.advance cfg₁ cfg₂ key env j g).l2.flightsOf cfg₂ key).Void w := by
  cases g with
  | watching w₁ =>
    obtain ⟨rest, hold, hnew⟩ := filterMap_set_perm token₂ hj
    have hperm := (hold.cons (s.l2.watchToken cfg₂ key)).trans
      (hnew (.watched w₁ (s.l2.watchToken cfg₂ key))).symm
    exact ⟨h.watched.watch.perm hperm, (h.watched.aside_watchKey rfl).1.void⟩
  | leaving w₁ w₂ =>
    obtain ⟨rest, hold, hnew⟩ := filterMap_set_perm token₂ hj
    have hmine : s.l2.Watched cfg₂ key (w₂ :: rest) s.others := h.watched.perm hold
    exact ⟨hmine.unwatch.perm (hnew (.left w₁)).symm,
      (Cache.Watched.aside_unwatchKey rfl _ w₂).1.void⟩
  | watched w₁ w₂ =>
    have hmarks := (Cache.turns_get (P := fun _ ↦ False) h.reached₂ env key).2
    unfold advance
    dsimp only
    rcases (s.l2.get cfg₂ env key).1.value with _ | v
    · exact h.tokens_put hj (by rfl) hmarks
    · exact h.tokens_put hj (by rfl) hmarks
  | found w₁ w₂ v =>
    unfold advance
    dsimp only
    rcases s.l2.expiry cfg₂ env key with _ | exp
    · exact h.tokens_put hj (by rfl) (.refl _)
    · exact h.tokens_put hj (by rfl) (.refl _)
  | opted w₁ w₂ v opts =>
    unfold advance
    dsimp only
    split
    · exact h.tokens_put hj (by rfl) (.refl _)
    · exact h.tokens_put hj (by rfl) (.refl _)
  | dated | locked => exact h.tokens_put hj (by rfl) (.refl _)
  | start | missed | allowed | left =>
    unfold advance
    dsimp only
    split_ifs
    all_goals first
      | exact h.tokens_put hj (by rfl) (.refl _)
      | exact ⟨h.watched, fun _ _ hv ↦ hv⟩
  | done => exact ⟨h.watched, fun _ _ hv ↦ hv⟩

/-- **The tokens are accounted for after a step, and the marks stay.** -/
theorem Sound.tokens (ha : s.Honest cfg₁ cfg₂ key a) :
    (s.step cfg₁ cfg₂ key a).l2.Watched cfg₂ key
        ((s.step cfg₁ cfg₂ key a).gets.filterMap token₂)
        (s.step cfg₁ cfg₂ key a).others ∧
      ∀ w ∈ s.gets.filterMap token₂, (s.l2.flightsOf cfg₂ key).Void w →
        ((s.step cfg₁ cfg₂ key a).l2.flightsOf cfg₂ key).Void w := by
  have hsame : s.l2.Watched cfg₂ key (s.gets.filterMap token₂) s.others ∧
      ∀ w ∈ s.gets.filterMap token₂, (s.l2.flightsOf cfg₂ key).Void w →
        (s.l2.flightsOf cfg₂ key).Void w := ⟨h.watched, fun _ _ hv ↦ hv⟩
  have hmark {c : Cache K V n₂}
      (hm : Flights.Marks (s.l2.flightsOf cfg₂ key) (c.flightsOf cfg₂ key)) :
      c.Watched cfg₂ key (s.gets.filterMap token₂) s.others ∧
        ∀ w ∈ s.gets.filterMap token₂, (s.l2.flightsOf cfg₂ key).Void w →
          (c.flightsOf cfg₂ key).Void w := ⟨h.watched.marks hm, fun _ _ ↦ hm.void⟩
  cases a with
  | get j env =>
    unfold step
    dsimp only
    split
    · next g hj => exact h.tokens_advance hj
    · exact hsame
  | set env value =>
    unfold step
    dsimp only
    split
    · split_ifs
      · unfold beginSet
        split <;> exact hsame
      · exact hsame
    · exact hsame
  | settle env =>
    unfold step settle
    dsimp only
    split
    · exact hsame
    · next value hp =>
      unfold endSet
      rcases Cache.setSection_cases cfg₂ env h.unsealed₂ key value with ⟨c, heq, hc⟩ | ⟨err, heq⟩
      · rw [heq]
        exact hmark hc.marks
      · rw [heq]
        exact hsame
    · split_ifs <;> exact hsame
  | delete env =>
    unfold step
    dsimp only
    split
    · exact hmark (Cache.overwrites_deleteSection h.opened₂).marks
    · exact hsame
  | invalidate env =>
    unfold step invalidate
    dsimp only
    split
    · exact hsame
    · next tag hit _ => exact hmark (turns_invalidate (P := fun _ ↦ False) cfg₂ env s.l2 key hit).2
    · exact hsame
    · by_cases hu : s.unlocked = true
      · rw [if_pos hu]
        exact hsame
      · rw [if_neg hu]
        exact hsame
  | invalidateTag tag =>
    unfold step
    dsimp only
    split <;> exact hsame
  | work₂ c => exact hmark ha.2
  | other a =>
    obtain ⟨haside, hwatched⟩ := h.watched.other a
    exact ⟨hwatched, haside.void⟩
  | call | work₁ => exact hsame

end

/-! ### The `Get`s after a step -/

/-- How a `Get` comes to be where it is. -/
inductive Moved (cfg₁ cfg₂ : Config K V) (key : K) (s : TieredRun K V n₁ n₂) :
    Act K V n₁ n₂ → TieredGet V → Prop where
  | same {a : Act K V n₁ n₂} {g : TieredGet V} (h : g ∈ s.gets) : Moved cfg₁ cfg₂ key s a g
  /-- It has no value, and holds no lock. -/
  | empty {a : Act K V n₁ n₂} {g : TieredGet V} (hc : g.copies = none) (hl : g.locks = false) :
      Moved cfg₁ cfg₂ key s a g
  | found {j : ℕ} {env : Env K} {w₁ w₂ : ℕ} {v : V} (hj : s.gets[j]? = some (.watched w₁ w₂))
      (hv : (s.l2.get cfg₂ env key).1.value = some v) :
      Moved cfg₁ cfg₂ key s (.get j env) (.found w₁ w₂ v)
  | dated {j : ℕ} {env : Env K} {w₁ w₂ : ℕ} {v : V} {exp : ℤ}
      (hj : s.gets[j]? = some (.found w₁ w₂ v)) (he : s.l2.expiry cfg₂ env key = some exp) :
      Moved cfg₁ cfg₂ key s (.get j env) (.dated w₁ w₂ v exp)
  | opted {j : ℕ} {env : Env K} {w₁ w₂ : ℕ} {v : V} {exp : ℤ}
      (hj : s.gets[j]? = some (.dated w₁ w₂ v exp)) :
      Moved cfg₁ cfg₂ key s (.get j env)
        (.opted w₁ w₂ v (promoteOptions cfg₁ env.now exp (s.l2.tags cfg₂ key)))
  | allowed {j : ℕ} {env : Env K} {w₁ w₂ : ℕ} {v : V} {opts : List SetOption} {weight : ℤ}
      (hj : s.gets[j]? = some (.opted w₁ w₂ v opts))
      (hw : s.l1.checkOptions cfg₁ key v (resolveOptions cfg₁ v opts) = .ok weight) :
      Moved cfg₁ cfg₂ key s (.get j env) (.allowed w₁ w₂ v (resolveOptions cfg₁ v opts) weight)
  | locked {j : ℕ} {env : Env K} {w₁ w₂ : ℕ} {v : V} {sc : SetConfig} {weight : ℤ}
      (hj : s.gets[j]? = some (.allowed w₁ w₂ v sc weight)) (hu : s.unlocked = true)
      (h₁ : s.l1.watchCurrent cfg₁ key w₁ = true) (h₂ : s.l2.watchCurrent cfg₂ key w₂ = true) :
      Moved cfg₁ cfg₂ key s (.get j env) (.locked w₁ w₂ v sc weight)

omit [Inhabited V] [EquivBEq K] in
theorem moved_advance {env : Env K} (hj : s.gets[j]? = some g)
    (hg' : g' ∈ (s.advance cfg₁ cfg₂ key env j g).gets) :
    s.Moved cfg₁ cfg₂ key (.get j env) g' := by
  cases g with
  | watched w₁ w₂ =>
    unfold advance at hg'
    dsimp only at hg'
    rcases mem_put hg' with rfl | hg'
    · split
      · next v hv => exact .found hj hv
      · exact .empty rfl rfl
    · exact .same hg'
  | found w₁ w₂ v =>
    unfold advance at hg'
    rcases mem_put hg' with rfl | hg'
    · split
      · next exp he => exact .dated hj he
      · exact .empty rfl rfl
    · exact .same hg'
  | dated w₁ w₂ v exp =>
    rcases mem_put hg' with rfl | hg'
    · exact .opted hj
    · exact .same hg'
  | opted w₁ w₂ v opts =>
    unfold advance at hg'
    dsimp only at hg'
    rcases mem_put hg' with rfl | hg'
    · split
      · next weight hw => exact .allowed hj hw
      · exact .empty rfl rfl
    · exact .same hg'
  | allowed w₁ w₂ v sc weight =>
    unfold advance at hg'
    dsimp only at hg'
    split_ifs at hg' with hu hcur
    · rcases mem_put hg' with rfl | hg'
      · exact .locked hj hu hcur.1 hcur.2
      · exact .same hg'
    · rcases mem_put hg' with rfl | hg'
      · exact .empty rfl rfl
      · exact .same hg'
    · exact .same hg'
  | start | missed | left =>
    unfold advance at hg'
    dsimp only at hg'
    split_ifs at hg'
    all_goals first
      | exact .same hg'
      | rcases mem_put hg' with rfl | hg'
        · exact .empty rfl rfl
        · exact .same hg'
  | watching | locked | leaving =>
    rcases mem_put hg' with rfl | hg'
    · exact .empty rfl rfl
    · exact .same hg'
  | done => exact .same hg'

omit [Inhabited V] [EquivBEq K] in
/-- **How a `Get` came to be where it is after a step.** -/
theorem moved_step {g' : TieredGet V} (hg' : g' ∈ (s.step cfg₁ cfg₂ key a).gets) :
    s.Moved cfg₁ cfg₂ key a g' := by
  cases a with
  | call =>
    rcases List.mem_cons.1 hg' with rfl | hg'
    · exact .empty rfl rfl
    · exact .same hg'
  | get j env =>
    unfold step at hg'
    dsimp only at hg'
    split at hg'
    · next g hj => exact moved_advance hj hg'
    · exact .same hg'
  | set env value =>
    refine .same ?_
    unfold step beginSet at hg'
    dsimp only at hg'
    split at hg'
    · split_ifs at hg'
      · split at hg' <;> exact hg'
      · exact hg'
    · exact hg'
  | settle env =>
    refine .same ?_
    unfold step settle endSet at hg'
    dsimp only at hg'
    split at hg'
    · exact hg'
    · split at hg' <;> exact hg'
    · split_ifs at hg' <;> exact hg'
  | invalidate env =>
    refine .same ?_
    unfold step invalidate at hg'
    dsimp only at hg'
    repeat' split at hg'
    all_goals exact hg'
  | delete env | invalidateTag tag =>
    refine .same ?_
    unfold step at hg'
    dsimp only at hg'
    split at hg' <;> exact hg'
  | work₁ | work₂ | other => exact .same hg'

/-! ### Every step -/

theorem Sound.step (h : s.Sound cfg₁ cfg₂ key) (ha : s.Honest cfg₁ cfg₂ key a) :
    (s.step cfg₁ cfg₂ key a).Sound cfg₁ cfg₂ key where
  reached₁ := (h.turns₁ ha).reached h.reached₁
  reached₂ := (h.turns₂ ha).reached h.reached₂
  opened₁ := (h.turns₁ ha).closed.trans h.opened₁
  opened₂ := (h.turns₂ ha).closed.trans h.opened₂
  unsealed₁ := (h.turns₁ ha).sealed.trans h.unsealed₁
  unsealed₂ := (h.turns₂ ha).sealed.trans h.unsealed₂
  watched := (h.tokens ha).1
  weighs g' hg' := by
    have hold {j : ℕ} {g : TieredGet V} (hj : s.gets[j]? = some g) : g.Weighs :=
      h.weighs g (List.mem_of_getElem? hj)
    cases moved_step hg' with
    | same hg => exact h.weighs g' hg
    | empty _ _ => cases g' <;> trivial
    | found | dated | opted => trivial
    | allowed hj hw => exact s.l1.checkOptions_eq_ok hw
    | locked hj =>
      have hw := hold hj
      exact hw

end Step

end TieredRun

end Memcache
