import Memcache.Tiered.Calls
import Memcache.Cache.Tracked
import Memcache.Cache.Lookup

/-!
# What a section does to a tier

Whatever a section of a tier does, the key's entry afterwards is the one before, possibly touched, or
the one that the section stored, or none. `Cache.Turns` says that with the condition on what is stored,
and that the section leaves the tier a cache in a state it can reach.
-/

namespace Memcache

variable {K V : Type*} {n : ℕ} [BEq K] [NeZero n] [Inhabited V]

/-- The same value with the same tags. -/
structure Entry.Like (e e' : Entry K V) : Prop where
  value : e'.value = e.value
  tags : e'.tags = e.tags
  negative : e'.negative = e.negative

omit [BEq K] [Inhabited V] in
theorem Entry.Touched.like {now : ℤ} {e e' : Entry K V} (h : e.Touched now e') : e.Like e' :=
  ⟨h.value_eq, h.fields.2.2.2.2.2.2.1, h.negative_eq⟩

namespace Cache

variable {cfg : Config K V} {env : Env K} {key : K} {c c' c'' : Cache K V n} {P : Entry K V → Prop}

/-- A section after which the key's entry, if there is one, satisfies `P` or is the one before. -/
structure Turns (cfg : Config K V) (key : K) (P : Entry K V → Prop) (c c' : Cache K V n) : Prop where
  lookup : ∀ e', c'.lookupKey cfg key = some e' →
    P e' ∨ ∃ e, c.lookupKey cfg key = some e ∧ e.Like e'
  closed : c'.closed = c.closed
  sealed : c'.sealed = c.sealed
  reached : Reached cfg c → Reached cfg c'

namespace Turns

theorem refl (c : Cache K V n) : Turns cfg key P c c :=
  ⟨fun e he ↦ .inr ⟨e, he, rfl, rfl, rfl⟩, rfl, rfl, id⟩

theorem mono {Q : Entry K V → Prop} (h : Turns cfg key P c c') (hPQ : ∀ e, P e → Q e) :
    Turns cfg key Q c c' :=
  { h with lookup := fun e' he' ↦ (h.lookup e' he').imp_left (hPQ e') }

/-- A section that leaves the key's entry. -/
theorem of_lookup (hl : c'.lookupKey cfg key = c.lookupKey cfg key) (hclosed : c'.closed = c.closed)
    (hsealed : c'.sealed = c.sealed) (hr : Reached cfg c → Reached cfg c') :
    Turns cfg key P c c' :=
  ⟨fun e' he' ↦ .inr ⟨e', hl ▸ he', rfl, rfl, rfl⟩, hclosed, hsealed, hr⟩

theorem of_fades (h : Fades c c') (hr : Reached cfg c → Reached cfg c') : Turns cfg key P c c' where
  lookup e' he' := by
    rcases h.get (shardFor cfg key) key with hget | hget
    · exact .inr ⟨e', hget.symm.trans he', rfl, rfl, rfl⟩
    · rw [lookupKey, hget] at he'
      cases he'
  closed := h.closed
  sealed := h.sealed
  reached := hr

/-- A write, and the release of the lock. -/
theorem of_puts (h : Puts c c' (shardFor cfg key) key P) (hr : Reached cfg c → Reached cfg c') :
    Turns cfg key P c (c'.releaseShard (shardFor cfg key)) := by
  have hrel : Sheds c' (c'.releaseShard (shardFor cfg key)) := sheds_releaseShard c'
  have hput := h.sheds hrel
  refine ⟨fun e' he' ↦ .inl (hput.get e' he'), hput.closed, hput.sealed, fun hc ↦ ?_⟩
  exact (hr hc).locked (.instant 0) (.releaseShard _)

/-- What memory holds afterwards. -/
theorem memory {r : Option V} (h : Turns cfg key P c c')
    (hP : ∀ e, P e → e.negative = false → some e.value = r) :
    c'.memory cfg key = none ∨ c'.memory cfg key = c.memory cfg key ∨ c'.memory cfg key = r := by
  rcases he' : c'.lookupKey cfg key with _ | e'
  · exact .inl (memory_of_lookup_none he')
  · rw [memory_of_lookup he']
    rcases hneg : e'.negative
    · rcases h.lookup e' he' with hp | ⟨e, he, hlike⟩
      · exact .inr (.inr (hP e' hp hneg))
      · refine .inr (.inl ?_)
        rw [memory_of_lookup he, ← hlike.negative, hneg, hlike.value]
    · exact .inl rfl

end Turns

/-! ### The sections -/

theorem turns_watchKey (c : Cache K V n) (key : K) : Turns cfg key P c (c.watchKey cfg key) := by
  refine .of_lookup ?_ rfl rfl fun hc ↦ hc.locked (.instant 0) (.watchKey key)
  rw [lookupKey, lookupKey, ReaderRun.watchKey_self]

theorem turns_unwatchKey (c : Cache K V n) (key : K) (w : ℕ) :
    Turns cfg key P c (c.unwatchKey cfg key w) := by
  refine .of_lookup ?_ rfl rfl fun hc ↦ hc.locked (.instant 0) (.unwatchKey key w)
  rw [lookupKey, lookupKey, unwatchKey, modify_shards_self]

theorem turns_releaseShard (c : Cache K V n) (i : Fin n) : Turns cfg key P c (c.releaseShard i) :=
  .of_fades (sheds_releaseShard c).toFades fun hc ↦ hc.locked (.instant 0) (.releaseShard i)

theorem reached_otherWatch (h : Reached cfg c) (others : List (K × ℕ)) (a : OtherWatch K) :
    Reached cfg (c.otherWatch cfg key others a).1 := by
  cases a with
  | watch k =>
    unfold otherWatch
    dsimp only
    split_ifs
    · exact h.locked (.instant 0) (.watchKey k)
    · exact h
  | unwatch j =>
    unfold otherWatch
    dsimp only
    split
    · next k w _ => exact h.locked (.instant 0) (.unwatchKey k w)
    · exact h

section Partial

variable [PartialEquivBEq K]

theorem turns_upsertOptionsLocked (hsealed : c.sealed = false) (v : V) {weight : ℤ}
    (hw : 1 ≤ weight ∧ weight ≤ maxEntryWeight) (sc : SetConfig) :
    Turns cfg key (fun e ↦ e.value = v ∧ e.tags = sc.tags) c
      ((c.upsertOptionsLocked cfg env (shardFor cfg key) key v weight sc).releaseShard
        (shardFor cfg key)) := by
  refine .of_puts (puts_upsertOptionsLocked cfg env _ key hsealed v weight sc) fun hc ↦ ?_
  unfold upsertOptionsLocked
  split_ifs
  · exact hc.locked env (.upsertWithAbsoluteExpiryLocked key v weight _ sc.tags hw.1 hw.2)
  · exact hc.locked env (.upsertLocked key v weight _ sc.sliding sc.ttl sc.tags hw.1 hw.2)

/-- A section that writes the key: what it does to the entry and to the key's readers. -/
structure Overwrites (cfg : Config K V) (key : K) (P : Entry K V → Prop) (c c' : Cache K V n) : Prop
    extends Turns cfg key P c c' where
  only : ∀ e', c'.lookupKey cfg key = some e' → P e'
  marks : Flights.Marks (c.flightsOf cfg key) (c'.flightsOf cfg key)
  voids : Voids (shardFor cfg key) key c c'

omit [PartialEquivBEq K] in
theorem Overwrites.of_puts (h : Puts c c' (shardFor cfg key) key P)
    (hr : Reached cfg c → Reached cfg c') :
    Overwrites cfg key P c (c'.releaseShard (shardFor cfg key)) := by
  have hrel : Sheds c' (c'.releaseShard (shardFor cfg key)) := sheds_releaseShard c'
  have hput := h.sheds hrel
  exact ⟨.of_puts h hr, hput.get, hput.marks _, hput.voids_self⟩

omit [PartialEquivBEq K] in
theorem Overwrites.memory {v : V} (h : Overwrites cfg key (fun e ↦ e.value = v) c c') :
    c'.memory cfg key = none ∨ c'.memory cfg key = some v := by
  rcases he : c'.lookupKey cfg key with _ | e
  · exact .inl (memory_of_lookup_none he)
  · rw [memory_of_lookup he, h.only e he]
    rcases e.negative
    · exact .inr rfl
    · exact .inl rfl

/-- `Set` writes the value or is refused. -/
theorem setSection_cases (cfg : Config K V) (env : Env K) (hsealed : c.sealed = false) (key : K)
    (v : V) :
    (∃ c', c.setSection cfg env key v = (.ok (), c') ∧
        Overwrites cfg key (fun e ↦ e.value = v) c c') ∨
      ∃ err, c.setSection cfg env key v = (.error err, c) := by
  unfold setSection
  dsimp only
  split
  · next err _ => exact .inr ⟨err, rfl⟩
  · next weight hw =>
    obtain ⟨h₁, h₂⟩ := c.checkSet_eq_ok hw
    refine .inl ⟨_, rfl, .of_puts ?_ fun hc ↦ hc.locked env (.upsertLocked key v weight _ _ _ _ h₁ h₂)⟩
    exact (puts_upsertLocked cfg env _ key hsealed v weight _ _ _ _).mono fun e he ↦ he.value_eq

theorem overwrites_deleteSection (hopen : c.closed = false) :
    Overwrites cfg key (fun _ ↦ False) c (c.deleteSection cfg env key) := by
  unfold deleteSection
  dsimp only
  rw [hopen, if_neg Bool.false_ne_true]
  exact .of_puts (puts_removeKeyLocked cfg env _ key .deleted) fun hc ↦
    hc.locked env (.removeKeyLocked _ key .deleted)

/-- The section of an invalidation writes the key if there is an entry. -/
theorem invalidateSection_cases (cfg : Config K V) (env : Env K) (c : Cache K V n) (key : K) :
    Overwrites cfg key (fun _ ↦ False) c (c.invalidateSection cfg env key) ∨
      c.lookupKey cfg key = none ∧
        c.invalidateSection cfg env key = c.releaseShard (shardFor cfg key) := by
  unfold invalidateSection
  dsimp only
  rcases he : (c.shards (shardFor cfg key)).get key with _ | e
  · exact .inr ⟨he, rfl⟩
  · exact .inl (.of_puts (puts_removeLocked cfg env (Table.key_of_get he) rfl) fun hc ↦
      hc.locked env (.removeLocked _ e .tag (Table.mem_of_get he)))

end Partial

section Get

variable [EquivBEq K]

/-- **A lookup**: what it finds is the value of the key's entry. -/
theorem turns_get (h : Reached cfg c) (env : Env K) (key : K) :
    Turns cfg key P c (c.get cfg env key).2 ∧
      Flights.Marks (c.flightsOf cfg key) ((c.get cfg env key).2.flightsOf cfg key) := by
  obtain ⟨hinv, hread⟩ := Reached.readable h
  have hreads := reads_get hinv hread env key
  refine ⟨⟨fun e' he' ↦ .inr ?_, hreads.closed, hreads.sealed, fun hc ↦ hc.op env (.get key)⟩,
    hreads.marks _⟩
  obtain ⟨e, he, htouch⟩ := hreads.get e' he'
  exact ⟨e, he, htouch.like⟩

theorem lookup_of_get (h : Reached cfg c) (hsync : cfg.asyncWrites = false) {v : V}
    (hv : (c.get cfg env key).1.value = some v) :
    ∃ e, c.lookupKey cfg key = some e ∧ e.value = v ∧ e.negative = false := by
  obtain ⟨hinv, hread⟩ := Reached.readable h
  have hqueue : (c.shards (shardFor cfg key)).pending.get key = none :=
    (h.unqueued hsync).get _ key
  rcases hr : (c.get cfg env key).1 with value | _ | _
  · rw [hr] at hv
    cases hv
    obtain ⟨e, he, hval, hneg, -⟩ := lookup_of_hit hinv hread hqueue hr
    exact ⟨e, he, hval, hneg⟩
  all_goals
    rw [hr] at hv
    cases hv

end Get

end Cache

end Memcache
