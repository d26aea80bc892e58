import Memcache.Cache.Flights
import Mathlib.Data.List.Count

/-!
# Watches

A reader that copies a value from elsewhere into a shard takes a token for the key first, and stores
the value only while the token is **unmarked**. Two relations carry every argument about such
readers:

* `Flights.Marks s s'`: tokens were marked and dropped from the map, and nothing else happened to
  them. A token that left the map is marked, so the mark is never lost.
* `Flights.Holds s held`: the readers that watch hold the tokens `held`. A token is counted once per
  reader that shares it, so **the last reader to leave is the one that drops it**.

What `Holds` gives is that a token a reader still holds is either marked or the one its key is
registered with; a mark set through the map therefore reaches every reader that must see it.
-/

namespace Memcache

namespace Flights

variable {K : Type*} {s s' s'' : Flights K} {key : K} {w w' : ℕ} {t t' : WatchToken}

/-! ### Tokens of a list -/

theorem token_congr (h : s'.tokens = s.tokens) (w : ℕ) : s'.token w = s.token w := by
  rw [token, h, token]

/-- Tokens rewritten in place keep their identities. -/
theorem lookup_map_token {f : WatchToken → WatchToken} (hf : ∀ t, (f t).id = t.id)
    (l : List WatchToken) (w : ℕ) :
    NodeList.lookup WatchToken.id w (l.map f) = (NodeList.lookup WatchToken.id w l).map f := by
  simp only [NodeList.lookup, List.find?_map, Function.comp_def, hf]

theorem token_markTokens (ids : List ℕ) (h : s'.tokens = markTokens ids s.tokens) (w : ℕ) :
    s'.token w = (s.token w).map fun t ↦
      if t.id ∈ ids then { t with superseded := true } else t := by
  rw [token, h]
  refine lookup_map_token (fun t ↦ ?_) s.tokens w
  split_ifs <;> rfl

/-- A token whose identity is among those marked is marked. -/
theorem superseded_of_markTokens {ids : List ℕ} (h : s'.tokens = markTokens ids s.tokens)
    (hw : w ∈ ids) (ht : s'.token w = some t) : t.superseded = true := by
  rw [token_markTokens ids h, Option.map_eq_some_iff] at ht
  obtain ⟨t₀, ht₀, rfl⟩ := ht
  have hid : t₀.id = w := NodeList.ident_of_lookup ht₀
  rw [if_pos (hid ▸ hw)]

/-! ### Marking -/

/-- A token is marked, should it exist. -/
def Void (s : Flights K) (w : ℕ) : Prop := ∀ t, s.token w = some t → t.superseded = true

variable [BEq K]

/-- Tokens were marked and dropped from the map, the dropped ones among the marked. -/
structure Marks (s s' : Flights K) : Prop where
  nextToken : s'.nextToken = s.nextToken
  token : ∀ {w t}, s.token w = some t →
    ∃ t', s'.token w = some t' ∧ t'.refs = t.refs ∧ (t.superseded = true → t'.superseded = true)
  absent : ∀ {w}, s.token w = none → s'.token w = none
  watch : ∀ {k w}, s'.watches.get k = some w → s.watches.get k = some w
  dropped : ∀ {k w}, s.watches.get k = some w → s'.watches.get k = some w ∨ s'.Void w

namespace Marks

/-- A mark stays. -/
theorem void (h : Marks s s') (hw : s.Void w) : s'.Void w := by
  intro t' ht'
  cases ht : s.token w with
  | none =>
    rw [h.absent ht] at ht'
    cases ht'
  | some t =>
    obtain ⟨t₁, ht₁, -, hsup⟩ := h.token ht
    rw [ht₁] at ht'
    exact Option.some.inj ht' ▸ hsup (hw t ht)

/-- Loads come and go without touching a token. -/
theorem of_eq (ht : s'.tokens = s.tokens) (hw : s'.watches = s.watches)
    (hn : s'.nextToken = s.nextToken) : Marks s s' where
  nextToken := hn
  token h := ⟨_, (token_congr ht _).trans h, rfl, id⟩
  absent h := (token_congr ht _).trans h
  watch h := hw ▸ h
  dropped h := .inl (hw ▸ h)

theorem refl (s : Flights K) : Marks s s := of_eq rfl rfl rfl

theorem trans (h : Marks s s') (h' : Marks s' s'') : Marks s s'' where
  nextToken := h'.nextToken.trans h.nextToken
  token ht := by
    obtain ⟨t₁, ht₁, hrefs₁, hsup₁⟩ := h.token ht
    obtain ⟨t₂, ht₂, hrefs₂, hsup₂⟩ := h'.token ht₁
    exact ⟨t₂, ht₂, hrefs₂.trans hrefs₁, hsup₂ ∘ hsup₁⟩
  absent ht := h'.absent (h.absent ht)
  watch hw := h.watch (h'.watch hw)
  dropped hw := by
    rcases h.dropped hw with hw' | hv
    · exact h'.dropped hw'
    · exact .inr (h'.void hv)

/-- The tokens of some identities are marked, and the map loses none but them. -/
theorem of_markTokens {ids : List ℕ} (ht : s'.tokens = markTokens ids s.tokens)
    (hn : s'.nextToken = s.nextToken)
    (hwatch : ∀ {k w}, s'.watches.get k = some w → s.watches.get k = some w)
    (hdrop : ∀ {k w}, s.watches.get k = some w → s'.watches.get k = some w ∨ w ∈ ids) :
    Marks s s' where
  nextToken := hn
  token h := by
    refine ⟨_, by rw [token_markTokens ids ht, h]; rfl, ?_⟩
    dsimp only
    split_ifs
    · exact ⟨rfl, fun _ ↦ rfl⟩
    · exact ⟨rfl, id⟩
  absent h := by rw [token_markTokens ids ht, h]; rfl
  watch := hwatch
  dropped h := (hdrop h).imp_right fun hw _ ↦ superseded_of_markTokens ht hw

theorem supersedeFlight [PartialEquivBEq K] (s : Flights K) (key : K) :
    Marks s (s.supersedeFlight key) := by
  refine .of_markTokens rfl rfl (fun {k w} h ↦ ?_) (fun {k w} h ↦ ?_)
  · rw [show (s.supersedeFlight key).watches = s.watches.erase key from rfl,
      KeyMap.get_erase] at h
    split_ifs at h
    exact h
  · show (s.watches.erase key).get k = some w ∨ w ∈ (s.watches.get key).toList
    rw [KeyMap.get_erase]
    split_ifs with hk
    · exact .inr (by simp [KeyMap.get_congr hk, h])
    · exact .inl h

theorem supersedeAllFlights (s : Flights K) : Marks s s.supersedeAllFlights :=
  .of_markTokens rfl rfl (fun h ↦ nomatch h) fun h ↦ .inr (KeyMap.mem_values_of_get h)

theorem startFlight (s : Flights K) (key : K) : Marks s (s.startFlight key) := of_eq rfl rfl rfl

theorem supersedeMatching (s : Flights K) (matcher : K → Bool) :
    Marks s (s.supersedeMatching matcher) := of_eq rfl rfl rfl

theorem join (s : Flights K) (id : ℕ) : Marks s (s.join id) := of_eq rfl rfl rfl

theorem leave (s : Flights K) (id : ℕ) : Marks s (s.leave id) := by
  unfold Flights.leave orphanFlight
  split
  · exact .refl s
  · split_ifs <;> exact of_eq rfl rfl rfl

/-- A section that runs with a key's watch out of the map marks the tokens of other keys only. -/
theorem of_hidden [PartialEquivBEq K] (h : Marks { s with watches := s.watches.erase key } s')
    (ht : s''.tokens = s'.tokens) (hn : s''.nextToken = s'.nextToken)
    (hget : ∀ k, s''.watches.get k = if key == k then s.watches.get k else s'.watches.get k) :
    Marks s s'' where
  nextToken := hn.trans h.nextToken
  token h₀ := by simpa only [token_congr ht] using h.token h₀
  absent h₀ := by simpa only [token_congr ht] using h.absent h₀
  watch {k w} hw := by
    rw [hget] at hw
    split_ifs at hw with hk
    · exact hw
    · have hw' := h.watch hw
      rwa [KeyMap.get_erase, if_neg hk] at hw'
  dropped {k w} hw := by
    rw [hget]
    split_ifs with hk
    · exact .inl hw
    · refine (h.dropped (k := k) ?_).imp_right fun hv t ht' ↦ hv t (token_congr ht w ▸ ht')
      rw [KeyMap.get_erase, if_neg hk]
      exact hw

end Marks

/-- A write of the key marks the token the key is registered with. -/
theorem void_supersedeFlight (h : s.watches.get key = some w) :
    (s.supersedeFlight key).Void w := fun _ ↦
  superseded_of_markTokens rfl (by simp [h])

/-- Dropping all of a shard marks every registered token. -/
theorem void_supersedeAllFlights (h : s.watches.get key = some w) :
    s.supersedeAllFlights.Void w := fun _ ↦
  superseded_of_markTokens rfl (KeyMap.mem_values_of_get h)

/-! ### Readers that watch -/

/-- The readers that watch hold the tokens `held`, each with its key. -/
structure Holds (s : Flights K) (held : List (K × ℕ)) : Prop where
  token : ∀ {p}, p ∈ held → ∃ t, s.token p.2 = some t ∧ t.refs = (held.map Prod.snd).count p.2 ∧
    (t.superseded = true ∨ s.watches.get p.1 = some p.2)
  only : ∀ {k w}, s.watches.get k = some w → ∃ p ∈ held, p.1 == k ∧ p.2 = w
  own : ∀ {p q}, p ∈ held → q ∈ held → p.2 = q.2 → p.1 == q.1
  fresh : ∀ {w t}, s.token w = some t → w < s.nextToken

theorem Holds.empty : Holds (Flights.empty : Flights K) [] where
  token h := by simp at h
  only h := nomatch h
  own h := by simp at h
  fresh h := nomatch h

variable {held : List (K × ℕ)} {p : K × ℕ}

theorem Holds.lt (h : s.Holds held) (hp : p ∈ held) : p.2 < s.nextToken := by
  obtain ⟨t, ht, -⟩ := h.token hp
  exact h.fresh ht

/-- A token held is marked, or it is the one its key is registered with. -/
theorem Holds.void_or (h : s.Holds held) (hp : p ∈ held) :
    s.Void p.2 ∨ s.watches.get p.1 = some p.2 := by
  obtain ⟨t, ht, -, hsup⟩ := h.token hp
  refine hsup.imp_left fun hsup t' ht' ↦ ?_
  rw [ht] at ht'
  exact Option.some.inj ht' ▸ hsup

theorem Holds.perm {held' : List (K × ℕ)} (h : s.Holds held) (hp : held.Perm held') :
    s.Holds held' where
  token {p} hmem := by
    obtain ⟨t, ht, hrefs, hsup⟩ := h.token (hp.mem_iff.2 hmem)
    exact ⟨t, ht, hrefs.trans (by rw [(hp.map Prod.snd).count_eq]), hsup⟩
  only hw := by
    obtain ⟨p, hmem, hkey⟩ := h.only hw
    exact ⟨p, hp.mem_iff.1 hmem, hkey⟩
  own hmem hmem' := h.own (hp.mem_iff.2 hmem) (hp.mem_iff.2 hmem')
  fresh := h.fresh

/-- Marking changes no reader's token. -/
theorem Holds.marks (h : s.Holds held) (hm : Marks s s') : s'.Holds held where
  token {p} hp := by
    obtain ⟨t, ht, hrefs, hsup⟩ := h.token hp
    obtain ⟨t', ht', hrefs', hsup'⟩ := hm.token ht
    refine ⟨t', ht', hrefs'.trans hrefs, ?_⟩
    rcases hsup with hsup | hreg
    · exact .inl (hsup' hsup)
    · exact (hm.dropped hreg).symm.imp_left fun hv ↦ hv t' ht'
  only hw := h.only (hm.watch hw)
  own := h.own
  fresh {w t'} ht' := by
    rw [hm.nextToken]
    cases ht : s.token w with
    | none => rw [hm.absent ht] at ht'; cases ht'
    | some t => exact h.fresh ht

/-! ### Starting and ending a watch -/

/-- The tokens with another count for one of them. -/
theorem lookup_addRefs (d : ℤ) (l : List WatchToken) (w w' : ℕ) :
    NodeList.lookup WatchToken.id w' (l.map fun t ↦
        if t.id = w then { t with refs := t.refs + d } else t) =
      (NodeList.lookup WatchToken.id w' l).map fun t ↦
        if w' = w then { t with refs := t.refs + d } else t := by
  rw [lookup_map_token fun t ↦ by split_ifs <;> rfl]
  cases ht : NodeList.lookup WatchToken.id w' l with
  | none => rfl
  | some t => rw [Option.map_some, Option.map_some, NodeList.ident_of_lookup ht]

/-- A token other than the new one is marked after a watch if it was before. -/
theorem void_watchLocked (hw : w ≠ s.nextToken) (hv : s.Void w) : (s.watchLocked key).2.Void w := by
  intro t ht
  unfold watchLocked at ht
  split at ht
  · rw [token, lookup_addRefs, Option.map_eq_some_iff] at ht
    obtain ⟨t₀, ht₀, rfl⟩ := ht
    have hsup := hv t₀ ht₀
    split_ifs <;> exact hsup
  · rw [token, NodeList.lookup_cons, if_neg hw.symm] at ht
    exact hv t ht

theorem void_unwatchLocked (hv : s.Void w) : (s.unwatchLocked key w').Void w := by
  intro t ht
  unfold unwatchLocked at ht
  rw [token, show (fun t : WatchToken ↦ if t.id = w' then { t with refs := t.refs - 1 } else t) =
    fun t ↦ if t.id = w' then { t with refs := t.refs + -1 } else t from rfl, lookup_addRefs,
    Option.map_eq_some_iff] at ht
  obtain ⟨t₀, ht₀, rfl⟩ := ht
  have hsup := hv t₀ ht₀
  split_ifs <;> exact hsup

/-- One reader more or fewer of a token: its count follows. -/
theorem Holds.addRefs (h : s.Holds held) {d : ℤ} {held' : List (K × ℕ)}
    (ht : s'.tokens = s.tokens.map fun t ↦ if t.id = w then { t with refs := t.refs + d } else t)
    (hn : s'.nextToken = s.nextToken) (hsub : ∀ p ∈ held', ∃ q ∈ held, q.1 == p.1 ∧ q.2 = p.2)
    (hcount : ∀ w', ((held'.map Prod.snd).count w' : ℤ) =
      (held.map Prod.snd).count w' + if w' = w then d else 0)
    (hkeep : ∀ p ∈ held', s.watches.get p.1 = some p.2 → s'.watches.get p.1 = some p.2)
    (honly : ∀ {k w'}, s'.watches.get k = some w' → ∃ p ∈ held', p.1 == k ∧ p.2 = w')
    [PartialEquivBEq K] : s'.Holds held' where
  token {p} hp := by
    obtain ⟨q, hq, hkey, htok⟩ := hsub p hp
    obtain ⟨t, hget, hrefs, hsup⟩ := h.token hq
    rw [htok] at hget hrefs hsup
    rw [KeyMap.get_congr hkey] at hsup
    refine ⟨_, by rw [Flights.token, ht, lookup_addRefs, ← Flights.token, hget]; rfl, ?_⟩
    dsimp only
    rw [hcount]
    split_ifs
    · exact ⟨by rw [← hrefs], hsup.imp_right (hkeep p hp)⟩
    · exact ⟨by rw [add_zero, hrefs], hsup.imp_right (hkeep p hp)⟩
  only hw' := honly hw'
  own {p p'} hp hp' heq := by
    obtain ⟨q, hq, hkey, htok⟩ := hsub p hp
    obtain ⟨q', hq', hkey', htok'⟩ := hsub p' hp'
    have hqq := h.own hq hq' (htok.trans (heq.trans htok'.symm))
    exact PartialEquivBEq.trans (BEq.symm hkey) (PartialEquivBEq.trans hqq hkey')
  fresh {w' t'} ht' := by
    rw [Flights.token, ht, lookup_addRefs, Option.map_eq_some_iff] at ht'
    obtain ⟨t, hget, -⟩ := ht'
    exact hn ▸ h.fresh hget

variable [EquivBEq K]

/-- A reader of a key nobody watches gets a new token. -/
theorem Holds.register (h : s.Holds held) (hn : s.watches.get key = none) :
    Holds { s with
      tokens := ⟨s.nextToken, 1, false⟩ :: s.tokens
      watches := s.watches.insert key s.nextToken
      nextToken := s.nextToken + 1 } ((key, s.nextToken) :: held) := by
  -- The new identity is none that a reader holds.
  have hnew {q : K × ℕ} (hq : q ∈ held) : q.2 ≠ s.nextToken := (h.lt hq).ne
  have hcount : (held.map Prod.snd).count s.nextToken = 0 :=
    List.count_eq_zero.2 fun hmem ↦ by
      obtain ⟨q, hq, heq⟩ := List.mem_map.1 hmem
      exact hnew hq heq
  refine ⟨fun {p} hp ↦ ?_, fun {k w} hw ↦ ?_, fun {p q} hp hq heq ↦ ?_, fun {w t} ht ↦ ?_⟩
  · rw [List.map_cons, List.count_cons]
    rcases List.mem_cons.1 hp with rfl | hp
    · refine ⟨_, NodeList.lookup_cons.trans (if_pos rfl), ?_, .inr ?_⟩
      · simp [hcount]
      · exact KeyMap.get_insert.trans (if_pos BEq.rfl)
    · obtain ⟨t, ht, hrefs, hsup⟩ := h.token hp
      refine ⟨t, ?_, ?_, ?_⟩
      · rw [Flights.token, NodeList.lookup_cons, if_neg (hnew hp).symm]
        exact ht
      · simpa [(hnew hp).symm] using hrefs
      · refine hsup.imp_right fun hreg ↦ ?_
        rw [KeyMap.get_insert, if_neg fun hk ↦ ?_, hreg]
        rw [← KeyMap.get_congr hk, hn] at hreg
        cases hreg
  · rw [KeyMap.get_insert] at hw
    split_ifs at hw with hk
    · exact ⟨_, .head _, hk, Option.some.inj hw⟩
    · obtain ⟨p, hp, hpk⟩ := h.only hw
      exact ⟨p, .tail _ hp, hpk⟩
  · rcases List.mem_cons.1 hp with rfl | hp <;> rcases List.mem_cons.1 hq with rfl | hq
    · exact BEq.rfl
    · exact absurd heq.symm (hnew hq)
    · exact absurd heq (hnew hp)
    · exact h.own hp hq heq
  · rw [Flights.token, NodeList.lookup_cons] at ht
    split_ifs at ht with heq
    · exact heq ▸ Nat.lt_succ_self _
    · exact Nat.lt_succ_of_lt (h.fresh ht)

/-- A reader that starts to watch shares the key's token or gets a new one. -/
theorem Holds.watchLocked (h : s.Holds held) (key : K) :
    (s.watchLocked key).2.Holds ((key, (s.watchLocked key).1) :: held) := by
  cases hreg : s.watches.get key with
  | some w =>
    obtain ⟨q, hq, hkey, rfl⟩ := h.only hreg
    rw [Flights.watchLocked, hreg]
    refine h.addRefs rfl rfl (fun p hp ↦ ?_) (fun w' ↦ ?_) (fun _ _ hw' ↦ hw') fun hw' ↦ ?_
    · rcases List.mem_cons.1 hp with rfl | hp
      · exact ⟨q, hq, hkey, rfl⟩
      · exact ⟨p, hp, BEq.rfl, rfl⟩
    · rw [List.map_cons, List.count_cons]
      by_cases hw : w' = q.2
      · simp [hw]
      · simp [hw, Ne.symm hw]
    · obtain ⟨p, hp, hpk⟩ := h.only hw'
      exact ⟨p, .tail _ hp, hpk⟩
  | none =>
    rw [Flights.watchLocked, hreg]
    exact h.register hreg

/-- A reader that ends its watch leaves the token to the others. -/
theorem Holds.unwatchLocked (h : s.Holds ((key, w) :: held)) : (s.unwatchLocked key w).Holds held := by
  have hcount (w' : ℕ) : (((key, w) :: held).map Prod.snd).count w' =
      (held.map Prod.snd).count w' + if w' = w then 1 else 0 := by
    simp only [List.map_cons, List.count_cons, beq_iff_eq, eq_comm (a := w)]
  obtain ⟨t, ht, hrefs, -⟩ := h.token List.mem_cons_self
  -- The count reaches zero exactly when no other reader shares the token.
  have hlast : ((NodeList.lookup WatchToken.id w (s.tokens.map fun t ↦
      if t.id = w then { t with refs := t.refs + -1 } else t)).any fun t ↦ t.refs = 0) ↔
        ∀ p ∈ held, p.2 ≠ w := by
    rw [lookup_addRefs, show NodeList.lookup WatchToken.id w s.tokens = some t from ht]
    have hzero : (held.map Prod.snd).count w = 0 ↔ ∀ p ∈ held, p.2 ≠ w := by
      rw [List.count_eq_zero, List.mem_map, not_exists]
      exact forall_congr' fun p ↦ not_and
    rw [← hzero]
    simp only [Option.map_some, if_true, Option.any_some, decide_eq_true_eq, hrefs, hcount w]
    omega
  have hwatches : (s.unwatchLocked key w).watches = if (∀ p ∈ held, p.2 ≠ w) ∧
      s.watches.get key = some w then s.watches.erase key else s.watches :=
    if_congr (and_congr_left' hlast) rfl rfl
  refine h.addRefs (d := -1) rfl rfl (fun p hp ↦ ⟨p, .tail _ hp, BEq.rfl, rfl⟩) (fun w' ↦ ?_)
    (fun p hp hreg ↦ ?_) fun {k w'} hreg ↦ ?_
  · rw [hcount w']
    split_ifs <;> simp
  · rw [hwatches]
    split_ifs with hdrop
    · rw [KeyMap.get_erase, if_neg fun hk ↦ ?_, hreg]
      rw [← KeyMap.get_congr hk, hdrop.2] at hreg
      exact hdrop.1 p hp (Option.some.inj hreg).symm
    · exact hreg
  · rw [hwatches] at hreg
    split_ifs at hreg with hdrop
    · rw [KeyMap.get_erase] at hreg
      split_ifs at hreg with hk
      obtain ⟨p, hp, hpk, rfl⟩ := h.only hreg
      rcases List.mem_cons.1 hp with rfl | hp
      · exact absurd hpk hk
      · exact ⟨p, hp, hpk, rfl⟩
    · obtain ⟨p, hp, hpk, rfl⟩ := h.only hreg
      rcases List.mem_cons.1 hp with rfl | hp
      · -- the token stays registered, so another reader holds it
        rw [KeyMap.get_congr hpk, and_iff_left hreg] at hdrop
        push Not at hdrop
        obtain ⟨q, hq, hqw⟩ := hdrop
        exact ⟨q, hq, PartialEquivBEq.trans (h.own (.tail _ hq) List.mem_cons_self hqw) hpk, hqw⟩
      · exact ⟨p, hp, hpk, rfl⟩

end Flights

end Memcache
