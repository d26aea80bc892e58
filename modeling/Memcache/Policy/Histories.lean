import Mathlib.Data.Multiset.Filter
import Memcache.Lib.Runs
import Memcache.Policy.Basic

/-!
# Histories of a policy

A policy is built for a budget and then driven by its shard: entries are inserted, hit, updated and
removed, the budget is set again, the policy is cleared, and an entry that `Victim` or `shed` hands
out is removed at once. `Policy.Attained hash kind budget` are the states such histories lead to,
with the budget in force.

Two facts hold in all of them and carry every result about victims: the policy is well formed with
nothing pulled out (`Attained.wellFormed`, `Attained.pulledIds`), and its own budgets are those of a
fresh policy (`Attained.blank`). From them, **a policy over its budget has a victim to give**, except
`W-TinyLFU` for a budget of one or two: its three lists have a budget of at least one each, so they
hold three entries before one of them is over (`exists_victim`, `Policy.not_answers_tinyLfu`). And
**every policy is a bag of entries** to its shard (`Policy.bagRun_outcomes`).
-/

namespace Memcache

variable {K : Type*}

/-- What a shard does to its policy. -/
inductive PolicyOp (K : Type*) where
  | insert (e : Ref K)
  | access (id : ℕ)
  | update (id : ℕ)
  | remove (id : ℕ)
  | evict
  | shed (keepRecent : Bool)
  | setBudget (budget : ℕ)
  | reset
deriving DecidableEq, Repr

namespace PolicyOp

/-- An insert is of an entry object of its own. -/
def Fresh (p : Policy K) : PolicyOp K → Prop
  | .insert e => ∀ r ∈ p.tracked, r.id ≠ e.id
  | _ => True

instance (p : Policy K) (op : PolicyOp K) : Decidable (op.Fresh p) := by
  cases op <;> unfold Fresh <;> infer_instance

/-- The budget in force after an operation. -/
def budget (b : ℕ) : PolicyOp K → ℕ
  | .setBudget b' => b'
  | _ => b

end PolicyOp

namespace Policy

/-- The entry handed out is removed. -/
def release (a : Option (Ref K) × Policy K) : Option (Ref K) × Policy K :=
  (a.1, a.1.elim a.2 fun r ↦ a.2.onRemove r.id)

variable [BEq K]

/-- An operation, with the entry it evicted. -/
def apply (hash : K → UInt64) (p : Policy K) : PolicyOp K → Option (Ref K) × Policy K
  | .insert e => (none, p.onInsert hash e)
  | .access id => (none, p.onAccess hash id)
  | .update id => (none, p.onUpdate hash id)
  | .remove id => (none, p.onRemove id)
  | .evict => release (p.victim hash)
  | .shed keepRecent => release (p.shed keepRecent)
  | .setBudget b => (none, p.setBudget b)
  | .reset => (none, p.reset)

/-- The states of a policy of a kind, with the budget in force. -/
inductive Attained (hash : K → UInt64) (kind : PolicyKind) : ℕ → Policy K → Prop where
  | new (b : ℕ) : Attained hash kind b (Policy.new kind b)
  | op {b : ℕ} {p : Policy K} (h : Attained hash kind b p) (op : PolicyOp K) (hop : op.Fresh p) :
      Attained hash kind (op.budget b) (p.apply hash op).2

namespace Attained

variable {hash : K → UInt64} {kind : PolicyKind} {b : ℕ} {p : Policy K}

theorem pulledIds (h : Attained hash kind b p) : p.pulledIds = [] := by
  induction h with
  | new b => exact pulledIds_new kind b
  | @op b p h op hop ih =>
    have hrel {q : Policy K} {v : Option (Ref K)} (hy : p.Yields q v) :
        (release (v, q)).2.pulledIds = [] := by
      rcases v with _ | r
      · exact hy.pulledIds_eq_nil ih
      · exact hy.pulledIds_onRemove ih
    cases op with
    | insert e => exact (pulledIds_onInsert hash e p).trans ih
    | access id => exact (pulledIds_onAccess hash id p).trans ih
    | update id => exact (pulledIds_onAccess hash id p).trans ih
    | remove id =>
      show (p.onRemove id).pulledIds = []
      rw [pulledIds_onRemove, ih]
      rfl
    | evict => exact hrel (p.yields_victim hash)
    | shed keepRecent =>
      rw [apply, release]
      rcases (p.shed keepRecent).1 with _ | r
      · exact (pulledIds_shed keepRecent p).trans ih
      · show ((p.shed keepRecent).2.onRemove r.id).pulledIds = []
        rw [pulledIds_onRemove, pulledIds_shed, ih]
        rfl
    | setBudget b' => exact (pulledIds_setBudget p b').trans ih
    | reset => exact pulledIds_reset p

theorem wellFormed (h : Attained hash kind b p) : p.WellFormed := by
  induction h with
  | new b => exact wellFormed_new kind b
  | @op b p h op hop ih =>
    have hrel {q : Policy K} {v : Option (Ref K)} (hq : q.WellFormed) :
        (release (v, q)).2.WellFormed := by
      rcases v with _ | r
      · exact hq
      · exact hq.onRemove r.id
    cases op with
    | insert e => exact ih.onInsert hash hop
    | access id => exact ih.onAccess hash id
    | update id => exact ih.onAccess hash id
    | remove id => exact ih.onRemove id
    | evict => exact hrel ih.victim
    | shed keepRecent => exact hrel (ih.shed keepRecent)
    | setBudget b' => exact ih.setBudget b'
    | reset => exact wellFormed_reset p

/-- **The policy's own budgets are those of a fresh policy.** -/
theorem blank (h : Attained hash kind b p) : p.blank = (Policy.new kind b).blank := by
  induction h with
  | new b => rfl
  | @op b p h op hop ih =>
    have hrel {q : Policy K} {v : Option (Ref K)} (hq : q.blank = p.blank) :
        (release (v, q)).2.blank = (Policy.new kind b).blank := by
      rcases v with _ | r
      · exact hq.trans ih
      · exact (blank_onRemove r.id q).trans (hq.trans ih)
    cases op with
    | insert e => exact (blank_onInsert hash e p).trans ih
    | access id => exact (blank_onAccess hash id p).trans ih
    | update id => exact (blank_onAccess hash id p).trans ih
    | remove id => exact (blank_onRemove id p).trans ih
    | evict => exact hrel (blank_victim hash p)
    | shed keepRecent => exact hrel (blank_shed keepRecent p)
    | setBudget b' => rw [← kind_of_blank ih]; exact blank_setBudget p b'
    | reset => exact (blank_reset p).trans ih

end Attained

/-- The entry evicted by each operation, and the length after it. -/
def outcomes (hash : K → UInt64) : List (PolicyOp K) → Policy K → List (Option (Ref K) × ℕ)
  | [], _ => []
  | op :: ops, p =>
    ((p.apply hash op).1, (p.apply hash op).2.len) :: outcomes hash ops (p.apply hash op).2

end Policy

/-! ### A policy is a bag of entries -/

/-- What an operation does to the entries a policy answers for. Which of them it evicts, and whether
it evicts one, is its own choice. -/
def Bag.Step (s : Multiset (Ref K)) (op : PolicyOp K) (v : Option (Ref K))
    (t : Multiset (Ref K)) : Prop :=
  match op with
  | .insert e => v = none ∧ t = e ::ₘ s
  | .remove id => v = none ∧ t = s.filter fun r ↦ r.id ≠ id
  | .reset => v = none ∧ t = 0
  | .access _ | .update _ | .setBudget _ => v = none ∧ t = s
  | .evict | .shed _ => s = v.elim t (· ::ₘ t)

/-- The runs of a bag: the entry evicted by each operation, and how many there are after it. -/
inductive Bag.Run : Multiset (Ref K) → List (PolicyOp K) → List (Option (Ref K) × ℕ) → Prop where
  | nil {s} : Run s [] []
  | cons {s op v t ops os} (h : Bag.Step s op v t) (hr : Run t ops os) :
      Run s (op :: ops) ((v, t.card) :: os)

namespace Policy

variable [BEq K] {hash : K → UInt64} {kind : PolicyKind} {b : ℕ} {p : Policy K}

theorem Attained.bag_apply (h : Attained hash kind b p) (op : PolicyOp K) :
    Bag.Step p.tracked op (p.apply hash op).1 ((p.apply hash op).2.tracked : Multiset _) := by
  have hp := h.wellFormed
  have hrel {q : Policy K} {v : Option (Ref K)} (hpick : Picks p.tracked q.tracked v) :
      (p.tracked : Multiset _) =
        v.elim ((release (v, q)).2.tracked : Multiset _) (· ::ₘ (release (v, q)).2.tracked) := by
    rcases v with _ | r
    · exact (Multiset.coe_eq_coe.2 hpick).symm
    · show (p.tracked : Multiset _) = r ::ₘ (q.onRemove r.id).tracked
      rw [tracked_onRemove, Multiset.coe_eq_coe.2 hpick.2.2]
      exact Multiset.coe_eq_coe.2 (hp.distinct.perm_cons_unlink hpick.mem)
  cases op with
  | insert e => exact ⟨rfl, Multiset.coe_eq_coe.2 (tracked_onInsert hash e p)⟩
  | access id => exact ⟨rfl, Multiset.coe_eq_coe.2 (hp.tracked_onAccess hash id)⟩
  | update id => exact ⟨rfl, Multiset.coe_eq_coe.2 (hp.tracked_onAccess hash id)⟩
  | remove id => exact ⟨rfl, congrArg _ (tracked_onRemove id p)⟩
  | evict => exact hrel (hp.picks_victim hash)
  | shed keepRecent => exact hrel (hp.picks_shed keepRecent)
  | setBudget b' => exact ⟨rfl, congrArg _ (tracked_setBudget p b')⟩
  | reset => exact ⟨rfl, congrArg _ (tracked_reset p)⟩

/-- Every insert is of an entry object of its own. -/
def FreshRun (hash : K → UInt64) : Policy K → List (PolicyOp K) → Prop :=
  Runs.Along (fun p op ↦ (p.apply hash op).2) fun p op ↦ op.Fresh p

/-- **Every policy is a bag of entries**: in every such run it evicts entries that were inserted and
not taken away since, each once, and `Len` counts the ones that are left. -/
theorem bagRun_outcomes (hash : K → UInt64) (kind : PolicyKind) (b : ℕ) {ops : List (PolicyOp K)}
    (hops : (new kind b).FreshRun hash ops) : Bag.Run 0 ops (outcomes hash ops (new kind b)) := by
  have hrun (ops : List (PolicyOp K)) {b : ℕ} {p : Policy K} (h : Attained hash kind b p)
      (hops : p.FreshRun hash ops) : Bag.Run p.tracked ops (outcomes hash ops p) := by
    induction ops generalizing b p with
    | nil => exact .nil
    | cons op ops ih =>
      have hnext := h.op op hops.1
      rw [outcomes, len_eq hnext.pulledIds]
      exact .cons (h.bag_apply op) (ih hnext hops.2)
  simpa only [tracked_new, Multiset.coe_nil] using hrun ops (.new b) hops

/-- `LRU` evicts the entry that was not hit. -/
theorem bagRun_outcomes_lru :
    let ops : List (PolicyOp ℕ) := [.insert ⟨0, 7⟩, .insert ⟨1, 8⟩, .access 0, .evict, .remove 0]
    (new .lru 1).FreshRun UInt64.ofNat ops ∧
      Bag.Run 0 ops [(none, 1), (none, 2), (none, 2), (some ⟨1, 8⟩, 1), (none, 0)] := by
  intro ops
  have hops : (new .lru 1).FreshRun UInt64.ofNat ops :=
    ⟨by decide, by decide, trivial, trivial, trivial, trivial⟩
  exact ⟨hops, bagRun_outcomes UInt64.ofNat .lru 1 hops⟩

end Policy

/-! ### A policy over its budget has a victim -/

theorem S3Fifo.length_le_one_of_recent {p : S3Fifo K} (hp : NodeList.Distinct Ref.id p.tracked)
    (h : ∀ n ∈ p.small ++ p.main, p.isRecent n) : p.small.length + p.main.length ≤ 1 := by
  have hd : ((p.small ++ p.main).map S3Fifo.nodeId).Nodup := distinct_nodes hp
  rw [← List.length_append]
  rcases hl : p.small ++ p.main with _ | ⟨a, _ | ⟨b, l⟩⟩
  · exact Nat.zero_le _
  · exact le_refl _
  · -- two nodes that are both the last insert are one node
    rw [hl] at h hd
    have ha := h a (by simp)
    have hb := h b (by simp)
    simp only [S3Fifo.isRecent, decide_eq_true_eq] at ha hb
    have hab : S3Fifo.nodeId a = S3Fifo.nodeId b := Option.some_inj.1 (ha.symm.trans hb)
    simp [hab] at hd

/-- A rotation that hands out nothing leaves both queues within their budgets, or one entry. -/
theorem S3Fifo.length_le_of_rotate [BEq K] {p : S3Fifo K} {passes : ℕ}
    (hp : NodeList.Distinct Ref.id p.tracked) (h : (p.rotate passes).1 = none) :
    p.small.length + p.main.length ≤ max 1 (p.smallBudget + p.mainBudget) := by
  induction passes generalizing p with
  | zero =>
    have hnone : p.evictNotRecent.1 = none := by
      unfold rotate fallback at h
      split at h
      · simp [evictMain] at h
      · exact h
    exact (length_le_one_of_recent hp (evictNotRecent_none hnone).2).trans (le_max_left ..)
  | succ passes ih =>
    unfold rotate at h
    split at h
    · next n rest hs =>
      have hs : p.small = n :: rest := by
        split_ifs at hs
        exact hs
      split_ifs at h
      · have hperm : (S3Fifo.tracked { p with small := rest ++ [n] }).Perm p.tracked := by
          simp [tracked, hs]
        simpa [hs] using ih (hp.perm hperm.symm) h
      · have hperm : (S3Fifo.tracked { p with
            small := rest, main := p.main ++ [{ n with freq := 0 }] }).Perm p.tracked := by
          simpa [tracked, hs] using List.perm_append_singleton n.entry
            (rest.map S3Node.entry ++ p.main.map S3Node.entry)
        have hlen := ih (hp.perm hperm.symm) h
        simp only [List.length_append, List.length_singleton] at hlen
        rw [hs, List.length_cons]
        omega
    · next hs =>
      split at h
      · next n rest hm =>
        have hm : p.main = n :: rest := by
          split_ifs at hm
          exact hm
        have hmove : (p.small.map S3Node.entry ++ (rest.map S3Node.entry ++ [n.entry])).Perm
            p.tracked := by
          simpa [tracked, hm] using List.Perm.append_left (p.small.map S3Node.entry)
            (List.perm_append_singleton n.entry (rest.map S3Node.entry))
        split_ifs at h
        · simpa [hm] using ih (hp.perm (by simpa [tracked] using hmove.symm)) h
        · simpa [hm] using ih (hp.perm (by simpa [tracked] using hmove.symm)) h
      · next hm =>
        have within {budget : ℕ} {l : List (S3Node K)}
            (hl : (if budget < l.length then l else []) = []) : l.length ≤ budget := by
          by_contra hlt
          rw [if_pos (not_le.1 hlt)] at hl
          simp [hl] at hlt
        exact (Nat.add_le_add (within hs) (within hm)).trans (le_max_right ..)

theorem s3SplitBudget_add {b : ℕ} (hb : 1 ≤ b) :
    (s3SplitBudget b).1 + (s3SplitBudget b).2 = b := by
  unfold s3SplitBudget
  split_ifs
  · omega
  · omega
  · dsimp only
    omega
  · dsimp only
    omega

/-- A choice that hands out nothing leaves all three lists within their budgets. -/
theorem TinyLfu.length_le_of_settle {hash : K → UInt64} {p : TinyLfu K} {passes : ℕ}
    (h : (p.settle hash passes).1 = none) :
    p.window.length + p.protect.length + p.probationary.length ≤
      p.windowBudget + p.protectedBudget + p.probationaryBudget := by
  have within {budget : ℕ} {l : List (Ref K)}
      (hl : (if budget < l.length then l.getLast? else none) = none) : l.length ≤ budget := by
    by_contra hlt
    rw [if_pos (not_le.1 hlt), List.getLast?_eq_none_iff] at hl
    simp [hl] at hlt
  have nonempty {budget : ℕ} {l : List (Ref K)} {n : Ref K}
      (hl : (if budget < l.length then l.getLast? else none) = some n) :
      l.dropLast.length + 1 = l.length := by
    split_ifs at hl
    rw [List.length_dropLast]
    omega
  induction passes generalizing p with
  | zero =>
    have hnil : p.tracked = [] := not_not.1 fun hne ↦ shed_ne_none hne h
    simp only [tracked, List.append_eq_nil_iff] at hnil
    simp [hnil]
  | succ passes ih =>
    unfold settle at h
    split at h
    · next candidate hw =>
      have hlen := nonempty hw
      unfold handleWindowDemotion at h
      split_ifs at h with hroom
      · -- the candidate only changed lists
        have := ih h
        simp only [List.length_cons] at this
        omega
      · split at h
        · next heq =>
          split at heq
          · cases heq; cases h
          · split_ifs at heq <;> (cases heq; cases h)
        · next heq =>
          split at heq
          · cases heq
          · split_ifs at heq <;> cases heq
    · next hw =>
      split at h
      · cases h
      · next hb =>
        split at h
        · next n hp =>
          have hlen := nonempty hp
          have := ih h
          simp only [List.length_cons] at this
          omega
        · next hp =>
          have := within hw
          have := within hb
          have := within hp
          omega

/-- From three on, the shares of `W-TinyLFU` add up to the budget. -/
theorem tinyLFUSplitBudget_add {b : ℕ} (hb : 3 ≤ b) :
    (tinyLFUSplitBudget b).1 + (tinyLFUSplitBudget b).2.1 + (tinyLFUSplitBudget b).2.2 = b := by
  unfold tinyLFUSplitBudget
  rw [if_neg (by omega)]
  dsimp only
  split_ifs <;> omega

namespace Policy

variable [BEq K]

/-- **A policy that tracks more than its budget has a victim**, one of the entries it tracks. -/
theorem exists_victim (hash : K → UInt64) {k : PolicyKind} {b : ℕ} {p : Policy K}
    (hwf : p.WellFormed) (hpulled : p.pulledIds = []) (hblank : p.blank = (new k b).blank)
    (hb : 1 ≤ b) (hk : k ≠ .tinyLfu ∨ 3 ≤ b) (h : b < p.len) :
    ∃ r ∈ p.tracked, (p.victim hash).1 = some r := by
  have hlen := len_eq hpulled
  have hne : p.tracked ≠ [] := fun hnil ↦ by simp [hlen, hnil] at h
  have hpicks := hwf.picks_victim hash
  suffices hsome : (p.victim hash).1 ≠ none by
    obtain ⟨r, hr⟩ := Option.ne_none_iff_exists'.1 hsome
    rw [hr] at hpicks
    exact ⟨r, hpicks.mem, hr⟩
  have hkind := kind_of_blank hblank
  cases p with
  | lru p => exact Lru.victim_ne_none hne
  | fifo p => exact Fifo.victim_ne_none hne
  | s3fifo p =>
    subst hkind
    intro hnone
    have hblank : p.reset = S3Fifo.new b := Policy.s3fifo.inj hblank
    have hs : p.smallBudget = (s3SplitBudget b).1 := congrArg S3Fifo.smallBudget hblank
    have hm : p.mainBudget = (s3SplitBudget b).2 := congrArg S3Fifo.mainBudget hblank
    have hle := S3Fifo.length_le_of_rotate hwf hnone
    rw [hs, hm, s3SplitBudget_add hb, max_eq_right hb] at hle
    exact absurd h (not_lt.2 hle)
  | lfu p =>
    refine Lfu.WellFormed.victim_ne_none hwf fun hnil ↦ hne ?_
    simp [tracked, Lfu.tracked, hnil]
  | tinyLfu p =>
    subst hkind
    intro hnone
    have hblank : p.blank = (TinyLfu.new b).blank := Policy.tinyLfu.inj hblank
    have hw : p.windowBudget = (tinyLFUSplitBudget b).1 := congrArg TinyLfu.windowBudget hblank
    have hr : p.protectedBudget = (tinyLFUSplitBudget b).2.1 :=
      congrArg TinyLfu.protectedBudget hblank
    have hq : p.probationaryBudget = (tinyLFUSplitBudget b).2.2 :=
      congrArg TinyLfu.probationaryBudget hblank
    have hle := TinyLfu.length_le_of_settle hnone
    rw [hw, hr, hq, tinyLFUSplitBudget_add (hk.resolve_left fun hne ↦ hne rfl)] at hle
    exact absurd h (not_lt.2 hle)
  | twoQ p => exact TwoQ.victim_ne_none hne
  | arc p => exact Arc.victim_ne_none hne

end Policy

end Memcache
