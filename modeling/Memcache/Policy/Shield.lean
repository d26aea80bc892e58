import Memcache.Policy.Basic

/-!
# The entry just inserted

A cache inserts first and evicts afterwards, so it rests with the policy that the victim is not the
entry just inserted. Each policy protects it by where it put it, or by remembering it (`Shields`).
That protection survives the eviction of another entry, and it holds against every choice of
`Victim` and `shedVictim` but one: **`2Q` and `W-TinyLFU` give up the new entry when it is alone in
its queue**, the other queue being within its budget (`Exposes`).
-/

namespace Memcache

open NodeList (exists_dropLast_cons unlink_cons_of_ne Distinct unlink)

variable {K : Type*}

/-- What a choice of victim must leave of a protected entry: another entry was taken, and the
protection is still there once that one is removed. -/
def Spared {P : Type*} (shields : P → Prop) (onRemove : P → ℕ → P) (id : ℕ)
    (choice : Option (Ref K) × P) : Prop :=
  ∀ r, choice.1 = some r → r.id ≠ id ∧ shields (onRemove choice.2 r.id)

/-! ### `LRU` and `FIFO` -/

namespace Lru

/-- The entry is the most recently used. -/
def Shields (id : ℕ) (p : Lru K) : Prop := ∃ e l, p.nodes = e :: l ∧ e.id = id

theorem Shields.spared {p : Lru K} {id : ℕ} (hs : p.Shields id)
    (hp : Distinct Ref.id p.nodes) (h₂ : 2 ≤ p.nodes.length) :
    Spared (Shields id) onRemove id (p.victim, p) := by
  obtain ⟨e, l, hn, rfl⟩ := hs
  intro r hr
  have hl : l ≠ [] := by
    rintro rfl
    simp [hn] at h₂
  rw [hn] at hp
  have hne : r.id ≠ e.id := hp.getLast_ne hl (hn ▸ hr)
  refine ⟨hne, e, unlink Ref.id r.id l, ?_, rfl⟩
  rw [onRemove, hn, unlink_cons_of_ne hne.symm]

end Lru

namespace Fifo

/-- The entry is the youngest. -/
def Shields (id : ℕ) (p : Fifo K) : Prop := ∃ e l, p.nodes = l ++ [e] ∧ e.id = id

theorem Shields.spared {p : Fifo K} {id : ℕ} (hs : p.Shields id)
    (hp : Distinct Ref.id p.nodes) (h₂ : 2 ≤ p.nodes.length) :
    Spared (Shields id) onRemove id (p.victim, p) := by
  obtain ⟨e, l, hn, rfl⟩ := hs
  intro r hr
  cases l with
  | nil => simp [hn] at h₂
  | cons a l =>
    obtain rfl : a = r := by simpa [victim, hn] using hr
    rw [hn] at hp
    have hne : a.id ≠ e.id := hp.head_ne
    refine ⟨hne, e, unlink Ref.id a.id (a :: l), ?_, rfl⟩
    rw [onRemove, hn, NodeList.unlink_concat_of_ne hne.symm]

end Fifo

/-! ### `S3-FIFO` -/

variable {r : Ref K}

namespace S3Fifo

/-- The entry is the last insert. -/
def Shields (id : ℕ) (p : S3Fifo K) : Prop := p.recentInsert = some id

variable [BEq K] {p : S3Fifo K} {id : ℕ} {n : S3Node K}

section

variable (hs : p.Shields id)
include hs

omit [BEq K] in
theorem Shields.onRemove (hr : r.id ≠ id) : (p.onRemove r.id).Shields id := by
  show (if p.recentInsert = some r.id then none else p.recentInsert) = some id
  rw [hs, if_neg fun h ↦ hr (Option.some.inj h).symm]

omit [BEq K] in
theorem Shields.id_ne (hn : p.isRecent n = false) : n.entry.id ≠ id := by
  intro h
  simp [isRecent, show p.recentInsert = some id from hs, nodeId, h] at hn

theorem Shields.spared_evictSmall (hn : p.isRecent n = false) :
    Spared (Shields id) S3Fifo.onRemove id (p.evictSmall n) := by
  rintro r hr
  obtain rfl : n.entry = r := by simpa [evictSmall] using hr
  exact ⟨hs.id_ne hn, Shields.onRemove (p := (p.evictSmall n).2) hs (hs.id_ne hn)⟩

omit [BEq K] in
theorem Shields.spared_evictMain (hn : p.isRecent n = false) :
    Spared (Shields id) S3Fifo.onRemove id (p.evictMain n) := by
  rintro r hr
  obtain rfl : n.entry = r := by simpa [evictMain] using hr
  exact ⟨hs.id_ne hn, Shields.onRemove (p := (p.evictMain n).2) hs (hs.id_ne hn)⟩

end

omit [BEq K] in
theorem isRecent_of_find? {l : List (S3Node K)} (h : l.find? (fun n ↦ !p.isRecent n) = some n) :
    p.isRecent n = false := by
  simpa using List.find?_some h

theorem Shields.spared_evictNotRecent (hs : p.Shields id) :
    Spared (Shields id) S3Fifo.onRemove id p.evictNotRecent := by
  unfold evictNotRecent
  split
  · next n hn => exact hs.spared_evictSmall (isRecent_of_find? hn)
  · split
    · next n hn => exact hs.spared_evictMain (isRecent_of_find? hn)
    · exact nofun

theorem Shields.spared_fallback (hs : p.Shields id) :
    Spared (Shields id) S3Fifo.onRemove id p.fallback := by
  unfold fallback
  split
  · next n hn =>
    split_ifs at hn
    exact hs.spared_evictMain (isRecent_of_find? hn)
  · exact hs.spared_evictNotRecent

theorem Shields.spared_rotate (hs : p.Shields id) (passes : ℕ) :
    Spared (Shields id) S3Fifo.onRemove id (p.rotate passes) := by
  induction passes generalizing p with
  | zero => exact hs.spared_fallback
  | succ passes ih =>
    unfold rotate
    split
    · next n rest _ =>
      split
      · exact ih hs
      · next hn =>
        split
        · exact ih hs
        · rintro r hr
          obtain rfl : n.entry = r := by simpa using hr
          have hne := hs.id_ne ((Bool.not_eq_true _).mp hn)
          exact ⟨hne, Shields.onRemove (p := recordGhost { p with small := rest } n.entry.key) hs
            hne⟩
    · split
      · next n rest _ =>
        split
        · exact ih hs
        · next hn =>
          split
          · exact ih hs
          · rintro r hr
            obtain rfl : n.entry = r := by simpa using hr
            have hne := hs.id_ne ((Bool.not_eq_true _).mp hn)
            exact ⟨hne, Shields.onRemove (p := { p with main := rest }) hs hne⟩
      · exact nofun

/-- A choice declined changes nothing the protection rests on. -/
theorem Shields.rotate (hs : p.Shields id) (passes : ℕ) : (p.rotate passes).2.Shields id := by
  induction passes generalizing p with
  | zero =>
    show p.fallback.2.Shields id
    unfold fallback evictNotRecent
    split
    · exact hs
    · split
      · exact hs
      · split <;> exact hs
  | succ passes ih =>
    unfold S3Fifo.rotate
    split
    · split_ifs
      exacts [ih hs, ih hs, hs]
    · split
      · split_ifs
        exacts [ih hs, ih hs, hs]
      · exact hs

theorem Shields.spared_shed (hs : p.Shields id) :
    Spared (Shields id) S3Fifo.onRemove id (p.shed true) := by
  rw [shed_eq]
  split
  · exact nofun
  · exact hs.spared_evictNotRecent

/-- With two entries, one of them is not the last insert. -/
theorem Shields.shed_ne_none (hs : p.Shields id) (hp : Distinct Ref.id p.tracked)
    (h₂ : 2 ≤ p.tracked.length) : (p.shed true).1 ≠ none := by
  rw [shed_eq]
  split
  · next hnone =>
    have hall := (evictNotRecent_none hnone).2
    have hid : ∀ r ∈ p.tracked, r.id = id := by
      intro r hr
      rw [tracked, ← List.map_append] at hr
      obtain ⟨n, hn, rfl⟩ := List.mem_map.1 hr
      by_contra hne
      have := hall n hn
      simp only [isRecent, show p.recentInsert = some id from hs, decide_eq_true_eq,
        Option.some.injEq] at this
      exact hne this.symm
    rcases htr : p.tracked with _ | ⟨a, _ | ⟨b, l⟩⟩
    · simp [htr] at h₂
    · simp [htr] at h₂
    · rw [htr] at hp hid
      have : a.id = b.id := (hid a (by simp)).trans (hid b (by simp)).symm
      simp [Distinct, this] at hp
  · next h => exact h

end S3Fifo

/-! ### `LFU` -/

namespace Lfu

/-- The entry is the last insert. -/
def Shields (id : ℕ) (p : Lfu K) : Prop := p.recent = some id

variable {p : Lfu K} {id : ℕ}

theorem pickAt_ne (hs : p.Shields id) (hp : p.WellFormed) (h₂ : 2 ≤ p.nodes.length)
    {n : LfuNode K} (h : p.pickAt = some n) : nodeId n ≠ id := by
  unfold pickAt at h
  split at h
  · cases h
  · next m rest hb =>
    cases h
    have hmem : ∀ x ∈ m :: rest, x ∈ p.nodes ∧ x.freq = p.minFreq :=
      fun x hx ↦ mem_of_mem_bucket (hb ▸ hx)
    unfold pickFrom
    split
    · next hne => exact fun h ↦ hne (h ▸ hs)
    · next heq =>
      have hm : nodeId m = id := by
        rw [not_not, show p.recent = some id from hs, Option.some.injEq] at heq
        exact heq.symm
      split
      · next x l =>
        have hd : Distinct nodeId (m :: x :: l) :=
          hp.distinct.sublist (hb ▸ List.filter_sublist)
        rw [← hm]
        exact fun h ↦ (List.nodup_cons.1 hd).1 (by simp [← h])
      · split
        · next f hf =>
          obtain ⟨hlt, ⟨y, hy, hyf⟩, -⟩ := nextNonEmpty_eq_some hf
          have hby : y ∈ p.bucket f := by simp [bucket, hy, hyf]
          obtain ⟨z, l, hz⟩ := List.exists_cons_of_ne_nil (List.ne_nil_of_mem hby)
          rw [hz, List.headD_cons]
          obtain ⟨hzm, hzf⟩ := mem_of_mem_bucket (hz ▸ List.mem_cons_self : z ∈ p.bucket f)
          intro h
          have := hp.distinct.eq_of_ident hzm (hmem m List.mem_cons_self).1 (h.trans hm.symm)
          rw [this, (hmem m List.mem_cons_self).2] at hzf
          omega
        · next hnone =>
          -- no count is above the least, whose bucket has the one node
          exfalso
          have hle := nextNonEmpty_eq_none hnone
          have hall : p.bucket p.minFreq = p.nodes := by
            refine List.filter_eq_self.2 fun x hx ↦ ?_
            simpa using le_antisymm (hle x hx) (hp.minFreq_le x hx)
          rw [← hall, hb] at h₂
          simp at h₂

theorem pick_recent (p : Lfu K) : p.pick.2.recent = p.recent := by
  obtain ⟨h, -⟩ | ⟨f, -, -, h⟩ := p.pick_cases <;> rw [h]

theorem pick_ne (hs : p.Shields id) (hp : p.WellFormed) (h₂ : 2 ≤ p.nodes.length)
    {n : LfuNode K} (h : p.pick.1 = some n) : nodeId n ≠ id := by
  have hwf := hp.pick
  obtain ⟨heq, -⟩ | ⟨f, -, -, heq⟩ := p.pick_cases
  · rw [heq] at h
    cases h
  · rw [heq] at h hwf
    exact pickAt_ne (p := { p with minFreq := f }) hs hwf h₂ h

theorem Shields.spared (hs : p.Shields id) (hp : p.WellFormed) (h₂ : 2 ≤ p.nodes.length) :
    Spared (Shields id) (fun p id ↦ p.onRemove id) id p.victim := by
  intro r hr
  rw [victim_eq] at hr ⊢
  cases hn : p.pick.1 with
  | none =>
    simp only [hn] at hr
    cases hr
  | some n =>
    simp only [hn] at hr ⊢
    obtain rfl : n.entry = r := by simpa using hr
    have hne : n.entry.id ≠ id := pick_ne hs hp h₂ hn
    refine ⟨hne, ?_⟩
    -- the node taken out is on record until it is removed
    unfold onRemove
    rw [if_neg (by simp [nodeId])]
    show (if p.pick.2.recent = some n.entry.id then none else p.pick.2.recent) = some id
    rw [pick_recent, show p.recent = some id from hs, if_neg fun h ↦ hne (Option.some.inj h).symm]

theorem Shields.victim (hs : p.Shields id) : p.victim.2.Shields id := by
  have h : p.pick.2.recent = some id := p.pick_recent.trans hs
  rw [victim_eq]
  split <;> exact h

end Lfu

/-! ### `ARC` -/

namespace Arc

/-- The entry is the last insert, at the front of its list. -/
def Shields (id : ℕ) (a : Arc K) : Prop :=
  a.recent = some id ∧ ∃ e : Ref K, e.id = id ∧ ((∃ l, a.t1 = e :: l) ∨ ∃ l, a.t2 = e :: l)

variable [BEq K] {a : Arc K} {id : ℕ}

section

variable (a : Arc K) (key : K)

@[simp] theorem recent_recordB1 : (a.recordB1 key).recent = a.recent := by
  unfold recordB1
  split <;> rfl

@[simp] theorem recent_recordB2 : (a.recordB2 key).recent = a.recent := by
  unfold recordB2
  split <;> rfl

@[simp] theorem t1_recordB1 : (a.recordB1 key).t1 = a.t1 := by
  unfold recordB1
  split <;> rfl

@[simp] theorem t2_recordB1 : (a.recordB1 key).t2 = a.t2 := by
  unfold recordB1
  split <;> rfl

@[simp] theorem t1_recordB2 : (a.recordB2 key).t1 = a.t1 := by
  unfold recordB2
  split <;> rfl

@[simp] theorem t2_recordB2 : (a.recordB2 key).t2 = a.t2 := by
  unfold recordB2
  split <;> rfl

end

omit [BEq K] in
/-- Another entry leaves. -/
theorem Shields.onRemove (hs : a.Shields id) (hr : r.id ≠ id) : (a.onRemove r.id).Shields id := by
  obtain ⟨hrec, e, rfl, he⟩ := hs
  refine ⟨?_, e, rfl, he.imp ?_ ?_⟩
  · show (if a.recent = some r.id then none else a.recent) = some e.id
    rw [hrec, if_neg fun h ↦ hr (Option.some.inj h).symm]
  · rintro ⟨l, hl⟩
    exact ⟨_, by rw [Arc.onRemove, hl, unlink_cons_of_ne hr.symm]⟩
  · rintro ⟨l, hl⟩
    exact ⟨_, by rw [Arc.onRemove, hl, unlink_cons_of_ne hr.symm]⟩

theorem Shields.spared_evictT1 (hs : a.Shields id) (hr : a.evictT1.1 = some r) (hne : r.id ≠ id) :
    (a.evictT1.2.onRemove r.id).Shields id := by
  refine Shields.onRemove ?_ hne
  obtain ⟨hrec, e, rfl, he⟩ := hs
  unfold evictT1 at hr ⊢
  split at hr
  · cases hr
  · next n hn =>
    obtain rfl : n = r := by simpa using hr
    refine ⟨by simpa using hrec, e, rfl, he.imp ?_ ?_⟩
    · rintro ⟨l, hl⟩
      obtain ⟨l', hl'⟩ := exists_dropLast_cons (hl ▸ hn) hne
      exact ⟨l', by rw [t1_recordB1, ← hl', hl]⟩
    · rintro ⟨l, hl⟩
      exact ⟨l, by rw [t2_recordB1, hl]⟩

theorem Shields.spared_evictT2 (hs : a.Shields id) (hr : a.evictT2.1 = some r) (hne : r.id ≠ id) :
    (a.evictT2.2.onRemove r.id).Shields id := by
  refine Shields.onRemove ?_ hne
  obtain ⟨hrec, e, rfl, he⟩ := hs
  unfold evictT2 at hr ⊢
  split at hr
  · cases hr
  · next n hn =>
    obtain rfl : n = r := by simpa using hr
    refine ⟨by simpa using hrec, e, rfl, he.imp ?_ ?_⟩
    · rintro ⟨l, hl⟩
      exact ⟨l, by rw [t1_recordB2, hl]⟩
    · rintro ⟨l, hl⟩
      obtain ⟨l', hl'⟩ := exists_dropLast_cons (hl ▸ hn) hne
      exact ⟨l', by rw [t2_recordB2, ← hl', hl]⟩

theorem evictT1_fst (a : Arc K) : a.evictT1.1 = a.t1.getLast? := by
  unfold evictT1
  split <;> simp [*]

theorem evictT2_fst (a : Arc K) : a.evictT2.1 = a.t2.getLast? := by
  unfold evictT2
  split <;> simp [*]

variable (hs : a.Shields id) (hp : Distinct Ref.id a.tracked)
include hs hp

omit [BEq K] in
/-- When the back of a list is the protected entry, the list holds nothing else. -/
theorem Shields.sole (hr : r.id = id) :
    (a.t1.getLast? = some r → a.t1 = [r] ∧ a.t2.getLast?.map Ref.id ≠ some id) ∧
      (a.t2.getLast? = some r → a.t2 = [r] ∧ a.t1.getLast?.map Ref.id ≠ some id) := by
  obtain ⟨-, e, rfl, he⟩ := hs
  have hdisj : ∀ x ∈ a.t1, ∀ y ∈ a.t2, x.id ≠ y.id := by
    intro x hx y hy h
    rw [tracked, Distinct, List.map_append, List.nodup_append] at hp
    exact hp.2.2 x.id (List.mem_map_of_mem hx) y.id (List.mem_map_of_mem hy) h
  have single {l : List (Ref K)} (hl : Distinct Ref.id (e :: l))
      (hlast : (e :: l).getLast? = some r) : e :: l = [r] := by
    cases l with
    | nil => rw [show e = r by simpa using hlast]
    | cons x l => exact absurd hr (hl.getLast_ne (List.cons_ne_nil _ _) hlast)
  have other {l l' : List (Ref K)} (hl : ∀ x ∈ l, ∀ y ∈ l', x.id ≠ y.id) (hmem : r ∈ l) :
      l'.getLast?.map Ref.id ≠ some e.id := by
    intro h
    obtain ⟨y, hy, hyid⟩ := Option.map_eq_some_iff.1 h
    exact hl r hmem y (List.mem_of_getLast? hy) (hr.trans hyid.symm)
  constructor
  · intro hlast
    have hmem := List.mem_of_getLast? hlast
    refine ⟨?_, other hdisj hmem⟩
    obtain ⟨l, hl⟩ | ⟨l, hl⟩ := he
    · rw [hl] at hlast ⊢
      exact single (hl ▸ hp.of_append_left) hlast
    · exact absurd hr (hdisj r hmem e (hl ▸ List.mem_cons_self))
  · intro hlast
    have hmem := List.mem_of_getLast? hlast
    refine ⟨?_, other (fun x hx y hy h ↦ hdisj y hy x hx h.symm) hmem⟩
    obtain ⟨l, hl⟩ | ⟨l, hl⟩ := he
    · exact absurd hr.symm (hdisj e (hl ▸ List.mem_cons_self) r hmem)
    · rw [hl] at hlast ⊢
      exact single (hl ▸ hp.of_append_right) hlast

/-- `REPLACE` passes over the last insert while the other list can give one up. -/
theorem Shields.victim_ne (h₂ : 2 ≤ a.tracked.length) (hr : a.victim.1 = some r) : r.id ≠ id := by
  intro hid
  obtain ⟨hsole₁, hsole₂⟩ := hs.sole hp hid
  have hrec : a.recent = some id := hs.1
  unfold victim at hr
  split at hr
  · next huse =>
    rw [evictT1_fst] at hr
    obtain ⟨ht1, hlast⟩ := hsole₁ hr
    have ht2 : a.t2 ≠ [] := by
      intro h
      simp [tracked, ht1, h] at h₂
    -- `T1` is the last insert alone, so `T2` is used
    have : a.useT1 = false := by
      simp [useT1, lruIsRecent, hrec, ht1, ht2, hid, hlast]
    simp [this] at huse
  · next hnot =>
    split at hr
    · rw [evictT2_fst] at hr
      obtain ⟨ht2, hlast⟩ := hsole₂ hr
      have ht1 : a.t1 ≠ [] := by
        intro h
        simp [tracked, ht2, h] at h₂
      have : a.useT1 = true := by
        cases hpref : a.prefersT1 <;> simp [useT1, lruIsRecent, hrec, ht1, ht2, hid, hlast, hpref]
      exact hnot ⟨this, ht1⟩
    · next ht2 =>
      rw [evictT1_fst] at hr
      obtain ⟨ht1, -⟩ := hsole₁ hr
      simp [tracked, ht1, not_not.1 ht2] at h₂

theorem Shields.spared (h₂ : 2 ≤ a.tracked.length) : Spared (Shields id) Arc.onRemove id a.victim := by
  intro r hr
  have hne := hs.victim_ne hp h₂ hr
  refine ⟨hne, ?_⟩
  unfold victim at hr ⊢
  split_ifs at hr ⊢
  · exact hs.spared_evictT1 hr hne
  · exact hs.spared_evictT2 hr hne
  · exact hs.spared_evictT1 hr hne

end Arc

/-! ### `2Q` -/

variable {budget : ℕ}

namespace TwoQ

/-- The entry is the youngest of `A1in` or the most recently used of `Am`. -/
def Shields (id : ℕ) (p : TwoQ K) : Prop :=
  1 ≤ p.inBudget ∧ 1 ≤ p.amBudget ∧
    ∃ e : Ref K, e.id = id ∧ ((∃ l, p.a1in = l ++ [e]) ∨ ∃ l, p.am = e :: l)

/-- The entry is alone in `A1in`, and `Am` is within its budget. -/
def Exposes (id : ℕ) (p : TwoQ K) : Prop :=
  p.a1in.map Ref.id = [id] ∧ p.am.length ≤ p.amBudget

variable [BEq K] {p : TwoQ K} {id : ℕ}

omit [BEq K] in
theorem Shields.onRemove (hs : p.Shields id) (hr : r.id ≠ id) : (p.onRemove r.id).Shields id := by
  obtain ⟨hin, ham, e, rfl, he⟩ := hs
  refine ⟨hin, ham, e, rfl, he.imp ?_ ?_⟩
  · rintro ⟨l, hl⟩
    exact ⟨_, by rw [TwoQ.onRemove, hl, NodeList.unlink_concat_of_ne hr.symm]⟩
  · rintro ⟨l, hl⟩
    exact ⟨_, by rw [TwoQ.onRemove, hl, unlink_cons_of_ne hr.symm]⟩

theorem Shields.spared_evictIn (hs : p.Shields id) (hp : Distinct Ref.id p.tracked)
    (hsole : p.a1in.map Ref.id ≠ [id]) : Spared (Shields id) TwoQ.onRemove id p.evictIn := by
  intro r hr
  obtain ⟨hin, ham, e, rfl, he⟩ := hs
  unfold evictIn at hr ⊢
  split at hr
  · cases hr
  · next n rest hn =>
    obtain rfl : n = r := by simpa using hr
    have hne : n.id ≠ e.id := by
      obtain ⟨l, hl⟩ | ⟨l, hl⟩ := he
      · cases l with
        | nil =>
          rw [hl] at hsole
          exact absurd rfl hsole
        | cons x l =>
          obtain ⟨rfl, rfl⟩ : x = n ∧ l ++ [e] = rest := by simpa [hl] using hn
          exact (hn ▸ hp.of_append_left).head_ne
      · rw [tracked, Distinct, List.map_append, List.nodup_append] at hp
        exact hp.2.2 _ (List.mem_map_of_mem (hn ▸ List.mem_cons_self)) _
          (List.mem_map_of_mem (hl ▸ List.mem_cons_self))
    refine ⟨hne, Shields.onRemove (p := { p with a1in := rest, a1out := _ })
      ⟨hin, ham, e, rfl, he.imp ?_ id⟩ hne⟩
    rintro ⟨l, hl⟩
    cases l with
    | nil =>
      obtain ⟨rfl, -⟩ : e = n ∧ [] = rest := by simpa [hl] using hn
      exact absurd rfl hne
    | cons x l => exact ⟨l, by simpa [hl] using (List.cons.inj (hl ▸ hn)).2.symm⟩

omit [BEq K] in
theorem Shields.spared_evictAm (hs : p.Shields id) (hp : Distinct Ref.id p.tracked)
    (hsole : p.am.map Ref.id ≠ [id]) : Spared (Shields id) TwoQ.onRemove id p.evictAm := by
  intro r hr
  obtain ⟨hin, ham, e, rfl, he⟩ := hs
  unfold evictAm at hr ⊢
  split at hr
  · cases hr
  · next n hn =>
    obtain rfl : n = r := by simpa using hr
    have hne : n.id ≠ e.id := by
      obtain ⟨l, hl⟩ | ⟨l, hl⟩ := he
      · rw [tracked, Distinct, List.map_append, List.nodup_append] at hp
        exact (hp.2.2 _ (List.mem_map_of_mem (hl ▸ List.mem_concat_self)) _
          (List.mem_map_of_mem (List.mem_of_getLast? hn))).symm
      · refine Distinct.getLast_ne (hl ▸ hp.of_append_right) ?_ (hl ▸ hn)
        rintro rfl
        rw [hl] at hsole
        exact hsole rfl
    refine ⟨hne, Shields.onRemove (p := { p with am := p.am.dropLast })
      ⟨hin, ham, e, rfl, he.imp id ?_⟩ hne⟩
    rintro ⟨l, hl⟩
    obtain ⟨l', hl'⟩ := exists_dropLast_cons (hl ▸ hn) hne
    exact ⟨l', by rw [← hl', hl]⟩

theorem Shields.spared (hs : p.Shields id) (hp : Distinct Ref.id p.tracked)
    (h₂ : 2 ≤ p.tracked.length) (hx : ¬ p.Exposes id) :
    Spared (Shields id) TwoQ.onRemove id p.victim := by
  have hin := hs.1
  have ham := hs.2.1
  unfold victim
  split_ifs with hover hover' hnil
  · refine hs.spared_evictIn hp fun h ↦ ?_
    have := congrArg List.length h
    simp only [List.length_map, List.length_singleton] at this
    omega
  · refine hs.spared_evictAm hp fun h ↦ ?_
    have := congrArg List.length h
    simp only [List.length_map, List.length_singleton] at this
    omega
  · exact hs.spared_evictIn hp fun h ↦ hx ⟨h, not_lt.1 hover'⟩
  · refine hs.spared_evictAm hp fun h ↦ ?_
    have := congrArg List.length h
    simp only [List.length_map, List.length_singleton] at this
    simp only [tracked, not_not.1 hnil, List.nil_append] at h₂
    omega

/-- An exposed entry is the next victim. -/
theorem Exposes.victim (hx : p.Exposes id) (hin : 1 ≤ p.inBudget) :
    ∃ r, p.victim.1 = some r ∧ r.id = id := by
  obtain ⟨ha, hm⟩ := hx
  obtain ⟨e, he, rfl⟩ : ∃ e, p.a1in = [e] ∧ e.id = id := by simpa [List.map_eq_singleton_iff] using ha
  refine ⟨e, ?_, rfl⟩
  unfold TwoQ.victim
  rw [if_neg (by simp [he]; omega), if_neg (not_lt.2 hm), if_pos (by simp [he])]
  simp [evictIn, he]

omit [BEq K] in
/-- A shard with an exposed entry is within its budget. -/
theorem Exposes.length_le (hx : p.Exposes id) (hp : p.Fitted budget) (hb : 2 ≤ budget) :
    p.tracked.length ≤ budget := by
  have h := congrArg List.length hx.1
  have hm := hx.2
  simp only [List.length_map, List.length_singleton] at h
  rw [hp.2, twoQSplitBudget, if_neg (by omega)] at hm
  rw [tracked, List.length_append, h]
  simp only at hm
  omega

end TwoQ

/-! ### `W-TinyLFU` -/

namespace TinyLfu

/-- The entry is the most recently used of `Window`. -/
def Shields (id : ℕ) (p : TinyLfu K) : Prop :=
  1 ≤ p.windowBudget ∧ ∃ e l, p.window = e :: l ∧ e.id = id

/-- The entry is alone in `Window`, `Probationary` is empty and `Protected` within its budget. -/
def Exposes (id : ℕ) (p : TinyLfu K) : Prop :=
  p.window.map Ref.id = [id] ∧ p.probationary = [] ∧ p.protect.length ≤ p.protectedBudget

variable {p : TinyLfu K} {id : ℕ}

theorem Shields.onRemove (hs : p.Shields id) (hr : r.id ≠ id) : (p.onRemove r.id).Shields id := by
  obtain ⟨hw, e, l, hl, rfl⟩ := hs
  refine ⟨hw, e, unlink Ref.id r.id l, ?_, rfl⟩
  rw [TinyLfu.onRemove, hl, unlink_cons_of_ne hr.symm]

/-- An entry of another list is not the protected one. -/
theorem Shields.id_ne (hs : p.Shields id) (hp : Distinct Ref.id p.tracked)
    (hr : r ∈ p.protect ++ p.probationary) : r.id ≠ id := by
  obtain ⟨-, e, l, hl, rfl⟩ := hs
  rw [tracked, Distinct, List.map_append, List.nodup_append] at hp
  exact (hp.2.2 _ (List.mem_map_of_mem (hl ▸ List.mem_cons_self)) _ (List.mem_map_of_mem hr)).symm

/-- The back of an over-full `Window` is not the protected entry, which stays at the front. -/
theorem Shields.window_back (hs : p.Shields id) (hp : Distinct Ref.id p.tracked)
    (hr : p.window.getLast? = some r) (h₂ : 2 ≤ p.window.length) :
    r.id ≠ id ∧ ∃ e l, p.window.dropLast = e :: l ∧ e.id = id := by
  obtain ⟨-, e, l, hl, rfl⟩ := hs
  have hne : r.id ≠ e.id := by
    refine Distinct.getLast_ne (hl ▸ hp.of_append_left) ?_ (hl ▸ hr)
    rintro rfl
    simp [hl] at h₂
  obtain ⟨l', hl'⟩ := exists_dropLast_cons (hl ▸ hr) hne
  exact ⟨hne, e, l', by rw [hl, hl'], rfl⟩

/-- What `handleWindowDemotion` does with the back of an over-full `Window`: it takes another entry,
or it moves that one to `Probationary`. -/
theorem Shields.handleWindowDemotion (hs : p.Shields id) (hash : K → UInt64)
    (hp : Distinct Ref.id p.tracked) {candidate : Ref K} (hc : p.window.getLast? = some candidate) (h₂ : 2 ≤ p.window.length) :
    (∀ r, (p.handleWindowDemotion hash candidate).1 = some r → r.id ≠ id) ∧
      (p.handleWindowDemotion hash candidate).2.Shields id ∧
      (p.handleWindowDemotion hash candidate).2.window = p.window.dropLast ∧
      (p.handleWindowDemotion hash candidate).2.protect = p.protect ∧
      ((p.handleWindowDemotion hash candidate).1 = none →
        (p.handleWindowDemotion hash candidate).2.probationary ≠ []) := by
  obtain ⟨hne, hfront⟩ := hs.window_back hp hc h₂
  have hcand : ∀ r, some candidate = some r → r.id ≠ id := by
    rintro r h
    rwa [← Option.some.inj h]
  unfold TinyLfu.handleWindowDemotion
  split
  · exact ⟨nofun, ⟨hs.1, hfront⟩, rfl, rfl, fun _ ↦ List.cons_ne_nil _ _⟩
  · split
    · exact ⟨hcand, ⟨hs.1, hfront⟩, rfl, rfl, nofun⟩
    · next v hv =>
      split
      · refine ⟨fun r h ↦ ?_, ⟨hs.1, hfront⟩, rfl, rfl, nofun⟩
        rw [← Option.some.inj h]
        exact hs.id_ne hp (List.mem_append_right _ (List.mem_of_getLast? hv))
      · exact ⟨hcand, ⟨hs.1, hfront⟩, rfl, rfl, nofun⟩

/-- The loop of `Victim` never takes the protected entry, given passes enough to move every entry
there is to move; and when it declines, it has moved nothing or left `Probationary` non-empty. -/
theorem Shields.settle (hs : p.Shields id) (hash : K → UInt64)
    (hp : Distinct Ref.id p.tracked) {passes : ℕ} (hpass : p.window.length + p.protect.length < passes) :
    (∀ r, (p.settle hash passes).1 = some r → r.id ≠ id) ∧ (p.settle hash passes).2.Shields id ∧
      ((p.settle hash passes).1 = none →
        ((p.settle hash passes).2 = p ∧ p.protect.length ≤ p.protectedBudget) ∨
          (p.settle hash passes).2.probationary ≠ []) := by
  induction passes generalizing p with
  | zero => exact absurd hpass (Nat.not_lt_zero _)
  | succ passes ih =>
    unfold TinyLfu.settle
    split
    · next candidate h =>
      split_ifs at h with hover
      have hpick : Picks p.tracked (p.handleWindowDemotion hash candidate).2.tracked
          (p.handleWindowDemotion hash candidate).1 := picks_handleWindowDemotion h
      obtain ⟨hne, hsh, hwin, hprot, hprob⟩ := hs.handleWindowDemotion hash hp h
        (by have := hs.1; omega)
      split
      · next v q hq =>
        rw [hq] at hne hsh
        exact ⟨hne, hsh, (by simp)⟩
      · next q hq =>
        rw [hq] at hsh hwin hprot hprob hpick
        have hlen : q.window.length + q.protect.length < passes := by
          have := hs.1
          rw [show q.window = _ from hwin, show q.protect = _ from hprot, List.length_dropLast]
          omega
        obtain ⟨h₁, h₂, h₃⟩ := ih hsh (hpick.distinct hp) hlen
        refine ⟨h₁, h₂, fun hnone ↦ .inr ?_⟩
        obtain ⟨heq, -⟩ | hne := h₃ hnone
        · rw [heq]
          exact hprob rfl
        · exact hne
    · split
      · next n h =>
        split_ifs at h
        refine ⟨fun r hr ↦ ?_, hs, (by simp)⟩
        rw [← Option.some.inj hr]
        exact hs.id_ne hp (List.mem_append_right _ (List.mem_of_getLast? h))
      · split
        · next n h =>
          split_ifs at h
          have hperm : (p.window ++ (p.protect.dropLast ++ n :: p.probationary)).Perm p.tracked :=
            ((tracked_perm_protected h).trans
              ((List.perm_middle.append_left _).trans List.perm_middle).symm).symm
          have hlen : p.window.length + p.protect.dropLast.length < passes := by
            have : p.protect ≠ [] := by
              rintro hnil
              simp [hnil] at h
            have := List.length_pos_iff.2 this
            rw [List.length_dropLast]
            omega
          obtain ⟨h₁, h₂, h₃⟩ := ih (p := { p with
            protect := p.protect.dropLast, probationary := n :: p.probationary }) hs
            (hp.perm hperm.symm) hlen
          refine ⟨h₁, h₂, fun hnone ↦ .inr ?_⟩
          obtain ⟨heq, -⟩ | hne := h₃ hnone
          · rw [heq]
            exact List.cons_ne_nil _ _
          · exact hne
        · next hprot =>
          refine ⟨(by simp), hs, fun _ ↦ .inl ⟨rfl, not_lt.1 fun hlt ↦ ?_⟩⟩
          rw [if_pos hlt, List.getLast?_eq_none_iff] at hprot
          simp [hprot] at hlt

theorem Shields.victim (hs : p.Shields id) (hash : K → UInt64)
    (hp : Distinct Ref.id p.tracked) :
    (∀ r, (p.victim hash).1 = some r → r.id ≠ id) ∧ (p.victim hash).2.Shields id ∧
      ((p.victim hash).1 = none →
        ((p.victim hash).2 = p ∧ p.protect.length ≤ p.protectedBudget) ∨
          (p.victim hash).2.probationary ≠ []) :=
  hs.settle hash hp (by omega)

/-- `shed` takes the protected entry only from a `Window` and `Probationary` that hold no other. -/
theorem Shields.spared_shed (hs : p.Shields id) (hp : Distinct Ref.id p.tracked)
    (hx : ¬ (p.window.map Ref.id = [id] ∧ p.probationary = [])) :
    Spared (Shields id) TinyLfu.onRemove id p.shed := by
  intro r hr
  unfold shed at hr ⊢
  split at hr
  · next n hn =>
    obtain rfl : n = r := by simpa using hr
    have hne := hs.id_ne hp (List.mem_append_right _ (List.mem_of_getLast? hn))
    exact ⟨hne, Shields.onRemove (p := { p with probationary := p.probationary.dropLast }) hs hne⟩
  · next n hnil hn =>
    obtain rfl : n = r := by simpa using hr
    have h₂ : 2 ≤ p.window.length := by
      obtain ⟨-, e, l, hl, rfl⟩ := hs
      cases l with
      | nil => exact absurd ⟨by simp [hl], List.getLast?_eq_none_iff.1 hnil⟩ hx
      | cons x l => simp [hl]
    obtain ⟨hne, hfront⟩ := hs.window_back hp hn h₂
    exact ⟨hne, Shields.onRemove (p := { p with window := p.window.dropLast }) ⟨hs.1, hfront⟩ hne⟩
  · next n _ hnil _ =>
    obtain ⟨-, e, l, hl, -⟩ := hs
    simp [hl] at hnil
  · cases hr

/-- An exposed entry is the next one shed. -/
theorem Exposes.shed (hx : p.Exposes id) : ∃ r, p.shed.1 = some r ∧ r.id = id := by
  obtain ⟨hw, hb, -⟩ := hx
  obtain ⟨e, he, rfl⟩ : ∃ e, p.window = [e] ∧ e.id = id := by
    simpa [List.map_eq_singleton_iff] using hw
  exact ⟨e, by simp [TinyLfu.shed, hb, he], rfl⟩

/-- `Victim` has nothing to do for it. -/
theorem Exposes.victim (hx : p.Exposes id) (hash : K → UInt64) (hw : 1 ≤ p.windowBudget) :
    p.victim hash = (none, p) := by
  obtain ⟨h₁, h₂, h₃⟩ := hx
  have hlen := congrArg List.length h₁
  simp only [List.length_map, List.length_singleton] at hlen
  rw [TinyLfu.victim, TinyLfu.settle, if_neg (by omega), if_neg (by simp [h₂]),
    if_neg (by omega)]

theorem Exposes.length_le (hx : p.Exposes id) (hp : p.Fitted budget) (hb : 2 ≤ budget) :
    p.tracked.length ≤ budget := by
  obtain ⟨h₁, h₂, h₃⟩ := hx
  have hlen := congrArg List.length h₁
  simp only [List.length_map, List.length_singleton] at hlen
  rw [tracked, List.length_append, List.length_append, h₂, hlen, List.length_nil]
  rw [hp.2.1, tinyLFUSplitBudget, if_neg (by omega)] at h₃
  simp only at h₃
  split_ifs at h₃ <;> omega

end TinyLfu

/-! ### All seven -/

namespace Policy

/-- The entry is where, or what, the policy protects. -/
def Shields (id : ℕ) : Policy K → Prop
  | .lru p => p.Shields id
  | .fifo p => p.Shields id
  | .s3fifo p => p.Shields id
  | .lfu p => p.Shields id
  | .tinyLfu p => p.Shields id
  | .twoQ p => p.Shields id
  | .arc p => p.Shields id

/-- The entry is one the policy would give up next although it tracks another. -/
def Exposes (id : ℕ) : Policy K → Prop
  | .twoQ p => p.Exposes id
  | .tinyLfu p => p.Exposes id
  | _ => False

variable [BEq K] {p : Policy K} {id : ℕ}

theorem shields_onInsert (hp : p.Fitted budget) (hb : 1 ≤ budget) (hash : K → UInt64) (e : Ref K) :
    (p.onInsert hash e).Shields e.id := by
  cases p with
  | lru p => exact ⟨e, p.nodes, rfl, rfl⟩
  | fifo p => exact ⟨e, p.nodes, rfl, rfl⟩
  | s3fifo p =>
    show (p.onInsert e).recentInsert = some e.id
    unfold S3Fifo.onInsert
    split <;> rfl
  | lfu p => exact rfl
  | tinyLfu p =>
    show TinyLfu.Shields e.id (TinyLfu.observe { p with window := e :: p.window } (hash e.key))
    have hw : 1 ≤ p.windowBudget := by
      rw [hp.1, tinyLFUSplitBudget, if_neg (by omega)]
      simp only
      split <;> omega
    unfold TinyLfu.observe
    split <;> exact ⟨hw, e, p.window, rfl, rfl⟩
  | twoQ p =>
    have hin : 1 ≤ p.inBudget := by
      rw [hp.1, twoQSplitBudget, if_neg (by omega)]
      exact le_max_right _ _
    have ham : 1 ≤ p.amBudget := by
      rw [hp.2, twoQSplitBudget, if_neg (by omega)]
      exact le_max_right _ _
    show (p.onInsert e).Shields e.id
    unfold TwoQ.onInsert
    split
    · exact ⟨hin, ham, e, rfl, .inr ⟨p.am, rfl⟩⟩
    · exact ⟨hin, ham, e, rfl, .inl ⟨p.a1in, rfl⟩⟩
  | arc a =>
    show (a.onInsert e).Shields e.id
    unfold Arc.onInsert
    split_ifs
    · exact ⟨rfl, e, rfl, .inr ⟨a.t2, rfl⟩⟩
    · exact ⟨rfl, e, rfl, .inr ⟨a.t2, rfl⟩⟩
    · exact ⟨rfl, e, rfl, .inl ⟨a.t1, rfl⟩⟩

/-- `Victim` takes another entry. -/
theorem Shields.spared_victim (hs : p.Shields id) (hash : K → UInt64) (hp : p.WellFormed)
    (h₂ : 2 ≤ p.tracked.length) (hx : ¬ p.Exposes id) :
    Spared (Shields id) (fun p id ↦ p.onRemove id) id (p.victim hash) := by
  cases p with
  | lru p => exact Lru.Shields.spared hs hp h₂
  | fifo p => exact Fifo.Shields.spared hs hp h₂
  | s3fifo p => exact S3Fifo.Shields.spared_rotate hs _
  | lfu p =>
    refine Lfu.Shields.spared hs hp ?_
    simpa [tracked, Lfu.tracked] using h₂
  | tinyLfu p =>
    obtain ⟨hne, hsh, -⟩ := TinyLfu.Shields.victim hs hash hp
    exact fun r hr ↦ ⟨hne r hr, hsh.onRemove (hne r hr)⟩
  | twoQ p => exact TwoQ.Shields.spared hs hp h₂ hx
  | arc a => exact Arc.Shields.spared hs hp h₂

/-- A `Victim` that declines leaves the protection, and exposes nothing it did not expose. -/
theorem Shields.of_declined (hs : p.Shields id) (hash : K → UInt64) (hp : p.WellFormed)
    (h : (p.victim hash).1 = none) :
    (p.victim hash).2.Shields id ∧ (¬ p.Exposes id → ¬ (p.victim hash).2.Exposes id) := by
  cases p with
  | lru p => exact ⟨hs, fun h ↦ h⟩
  | fifo p => exact ⟨hs, fun h ↦ h⟩
  | s3fifo p => exact ⟨S3Fifo.Shields.rotate hs _, fun h ↦ h⟩
  | lfu p => exact ⟨Lfu.Shields.victim hs, fun h ↦ h⟩
  | tinyLfu p =>
    obtain ⟨-, hsh, hkept⟩ := TinyLfu.Shields.victim hs hash hp
    refine ⟨hsh, fun hx hx' ↦ ?_⟩
    obtain ⟨heq, -⟩ | hne := hkept h
    · exact hx (heq ▸ hx' : p.Exposes id)
    · exact hne hx'.2.1
  | twoQ p =>
    have hwf : (Policy.twoQ p).tracked = [] := by
      by_contra hne
      exact TwoQ.victim_ne_none hne h
    obtain ⟨-, -, e, -, ⟨l, hl⟩ | ⟨l, hl⟩⟩ := hs <;> simp [tracked, TwoQ.tracked, hl] at hwf
  | arc a =>
    have hwf : (Policy.arc a).tracked = [] := by
      by_contra hne
      exact Arc.victim_ne_none hne h
    obtain ⟨-, e, -, ⟨l, hl⟩ | ⟨l, hl⟩⟩ := hs <;> simp [tracked, Arc.tracked, hl] at hwf

/-- The second way to give up an entry takes another one too, once `Victim` has declined. -/
theorem Shields.spared_shed (hs : p.Shields id) (hp : p.WellFormed)
    (hx : ∀ q : TinyLfu K, p = .tinyLfu q → ¬ (q.window.map Ref.id = [id] ∧ q.probationary = [])) :
    Spared (Shields id) (fun p id ↦ p.onRemove id) id (p.shed true) := by
  cases p with
  | s3fifo p => exact S3Fifo.Shields.spared_shed hs
  | tinyLfu p => exact TinyLfu.Shields.spared_shed hs hp (hx p rfl)
  | _ => exact nofun

/-- **Giving up an entry takes another one**, unless the protected one is exposed. -/
theorem Shields.spared_shedVictim (hs : p.Shields id) (hash : K → UInt64) (hp : p.WellFormed)
    (h₂ : 2 ≤ p.tracked.length) (hx : ¬ p.Exposes id) :
    Spared (Shields id) (fun p id ↦ p.onRemove id) id (p.shedVictim hash true) := by
  unfold shedVictim
  split
  · exact hs.spared_victim hash hp h₂ hx
  · next hnone =>
    have hnone := Option.not_isSome_iff_eq_none.1 hnone
    refine (hs.of_declined hash hp hnone).1.spared_shed hp.victim ?_
    rintro q hq ⟨hw, hb⟩
    cases p with
    | tinyLfu p =>
      obtain ⟨-, -, hkept⟩ := TinyLfu.Shields.victim hs hash hp
      obtain rfl : (p.victim hash).2 = q := Policy.tinyLfu.inj hq
      obtain ⟨heq, hle⟩ | hne := hkept hnone
      · rw [heq] at hw hb
        exact hx ⟨hw, hb, hle⟩
      · exact hne hb
    | _ => cases hq

/-- With another entry tracked, there is one to give up. -/
theorem Shields.shedVictim_ne_none (hs : p.Shields id) (hash : K → UInt64) (hp : p.WellFormed)
    (h₂ : 2 ≤ p.tracked.length) : (p.shedVictim hash true).1 ≠ none := by
  unfold shedVictim
  split
  · next h => exact Option.isSome_iff_ne_none.1 h
  · next hnone =>
    have hnone := Option.not_isSome_iff_eq_none.1 hnone
    have hsh := (hs.of_declined hash hp hnone).1
    have hperm : (p.victim hash).2.tracked.Perm p.tracked := by
      have := hp.picks_victim hash
      rwa [hnone] at this
    have hne : p.tracked ≠ [] := List.ne_nil_of_length_pos (by omega)
    have hne' : (p.victim hash).2.tracked ≠ [] := fun h ↦ hne (List.nil_perm.1 (h ▸ hperm))
    have hwf : (p.victim hash).2.WellFormed := hp.victim
    cases p with
    | s3fifo p => exact S3Fifo.Shields.shed_ne_none hsh hwf (hperm.length_eq ▸ h₂)
    | tinyLfu p => exact TinyLfu.shed_ne_none hne'
    | lru p => exact absurd hnone (Lru.victim_ne_none hne)
    | fifo p => exact absurd hnone (Fifo.victim_ne_none hne)
    | lfu p =>
      refine absurd hnone (Lfu.WellFormed.victim_ne_none hp ?_)
      simpa [tracked, Lfu.tracked] using hne
    | twoQ p => exact absurd hnone (TwoQ.victim_ne_none hne)
    | arc a => exact absurd hnone (Arc.victim_ne_none hne)

/-- **An exposed entry is the one given up.** -/
theorem Exposes.shedVictim (hx : p.Exposes id) (hs : p.Shields id) (hash : K → UInt64) :
    ∃ r, (p.shedVictim hash true).1 = some r ∧ r.id = id := by
  cases p with
  | twoQ p =>
    obtain ⟨r, hr, hid⟩ := TwoQ.Exposes.victim hx hs.1
    have hv : ((Policy.twoQ p).victim hash).1 = some r := hr
    refine ⟨r, ?_, hid⟩
    rw [Policy.shedVictim, if_pos (by simp [hv])]
    exact hv
  | tinyLfu p =>
    obtain ⟨r, hr, hid⟩ := TinyLfu.Exposes.shed hx
    have hv : (Policy.tinyLfu p).victim hash = (none, .tinyLfu p) := by
      show ((p.victim hash).1, Policy.tinyLfu (p.victim hash).2) = _
      rw [TinyLfu.Exposes.victim hx hash hs.1]
    refine ⟨r, ?_, hid⟩
    rw [Policy.shedVictim, hv]
    exact hr
  | _ => exact hx.elim

omit [BEq K] in
/-- A shard that holds an exposed entry is within its own budget. -/
theorem Exposes.length_le (hx : p.Exposes id) (hp : p.Fitted budget) (hb : 2 ≤ budget) :
    p.tracked.length ≤ budget := by
  cases p with
  | twoQ p => exact TwoQ.Exposes.length_le hx hp hb
  | tinyLfu p => exact TinyLfu.Exposes.length_le hx hp hb
  | _ => exact hx.elim

/-- The shape of the queues in which an insert of a key is exposed: `2Q` has no ghost of the key and
an empty `A1in`, `W-TinyLFU` an empty `Window` and `Probationary`; the entries there are sit in `Am`
or `Protected`, which is within its budget. -/
def ExposesInsert (key : K) : Policy K → Prop
  | .twoQ p => ¬ p.a1out.any (· == key) ∧ p.a1in = [] ∧ p.am.length ≤ p.amBudget
  | .tinyLfu p => p.window = [] ∧ p.probationary = [] ∧ p.protect.length ≤ p.protectedBudget
  | _ => False

theorem exposes_onInsert {e : Ref K} (he : ∀ r ∈ p.tracked, r.id ≠ e.id) (hash : K → UInt64) :
    (p.onInsert hash e).Exposes e.id ↔ p.ExposesInsert e.key := by
  cases p with
  | twoQ p =>
    show (p.onInsert e).Exposes e.id ↔ _
    unfold TwoQ.onInsert
    split
    · next hghost =>
      refine iff_of_false (fun hx ↦ ?_) fun h ↦ h.1 hghost
      -- the entry went to `Am`, and no older one has its identity
      obtain ⟨a, ha, haid⟩ := List.map_eq_singleton_iff.1 hx.1
      exact he a (List.mem_append_left _ (ha ▸ List.mem_singleton_self a)) haid
    · next hghost => simp [TwoQ.Exposes, ExposesInsert, hghost]
  | tinyLfu p =>
    show TinyLfu.Exposes e.id (TinyLfu.observe { p with window := e :: p.window } (hash e.key)) ↔ _
    unfold TinyLfu.observe
    split <;> simp [TinyLfu.Exposes, ExposesInsert]
  | _ => exact Iff.rfl

end Policy

end Memcache
