import Memcache.Policy.Lfu
import Memcache.Policy.TwoQ
import Memcache.Policy.Arc
import Memcache.Policy.S3Fifo
import Memcache.Policy.TinyLfu

/-!
# Eviction policies

The seven policies behind the one interface a shard uses, and the laws of that interface. A shard's
proofs use the laws of this module only: which entries a policy tracks after an insert, a hit, a
removal or a choice of victim, and that **`shedVictim` has an answer whenever an entry is tracked**,
whatever the shape of the policy's queues.
-/

namespace Memcache

/-- The policies a cache can be built with. -/
inductive PolicyKind where
  | lru | fifo | s3fifo | lfu | tinyLfu | twoQ | arc
deriving DecidableEq, Repr

/-- The state of a shard's eviction policy. -/
inductive Policy (K : Type*) where
  | lru (p : Lru K)
  | fifo (p : Fifo K)
  | s3fifo (p : S3Fifo K)
  | lfu (p : Lfu K)
  | tinyLfu (p : TinyLfu K)
  | twoQ (p : TwoQ K)
  | arc (p : Arc K)
deriving DecidableEq, Repr

namespace Policy

variable {K : Type*}

/-- A fresh policy for a shard budget. -/
def new : PolicyKind → ℕ → Policy K
  | .lru, _ => .lru ⟨[]⟩
  | .fifo, _ => .fifo ⟨[]⟩
  | .s3fifo, budget => .s3fifo (.new budget)
  | .lfu, _ => .lfu .empty
  | .tinyLfu, budget => .tinyLfu (.new budget)
  | .twoQ, budget => .twoQ (.new budget)
  | .arc, budget => .arc (.new budget)

/-- The entries the policy tracks. -/
def tracked : Policy K → List (Ref K)
  | .lru p => p.nodes
  | .fifo p => p.nodes
  | .s3fifo p => p.tracked
  | .lfu p => p.tracked
  | .tinyLfu p => p.tracked
  | .twoQ p => p.tracked
  | .arc p => p.tracked

/-- `Len`. `LFU` still counts the nodes a choice has taken out of their bucket. -/
def len : Policy K → ℕ
  | .lru p => p.nodes.length
  | .fifo p => p.nodes.length
  | .s3fifo p => p.small.length + p.main.length
  | .lfu p => p.nodes.length + p.pulled.length
  | .tinyLfu p => p.window.length + p.protect.length + p.probationary.length
  | .twoQ p => p.a1in.length + p.am.length
  | .arc p => p.t1.length + p.t2.length

/-- What is chosen, counted and not yet removed. -/
def pulledIds : Policy K → List ℕ
  | .lfu p => p.pulled.map Lfu.nodeId
  | _ => []

def onInsert [BEq K] (hash : K → UInt64) (e : Ref K) : Policy K → Policy K
  | .lru p => .lru (p.onInsert e)
  | .fifo p => .fifo (p.onInsert e)
  | .s3fifo p => .s3fifo (p.onInsert e)
  | .lfu p => .lfu (p.onInsert e)
  | .tinyLfu p => .tinyLfu (p.onInsert hash e)
  | .twoQ p => .twoQ (p.onInsert e)
  | .arc p => .arc (p.onInsert e)

/-- A hit. `FIFO` ignores it. -/
def onAccess (hash : K → UInt64) (id : ℕ) : Policy K → Policy K
  | .lru p => .lru (p.onAccess id)
  | .fifo p => .fifo p
  | .s3fifo p => .s3fifo (p.onAccess id)
  | .lfu p => .lfu (p.onAccess id)
  | .tinyLfu p => .tinyLfu (p.onAccess hash id)
  | .twoQ p => .twoQ (p.onAccess id)
  | .arc p => .arc (p.onAccess id)

/-- An overwrite counts as a hit under every policy. -/
def onUpdate (hash : K → UInt64) (id : ℕ) : Policy K → Policy K :=
  onAccess hash id

def onRemove (id : ℕ) : Policy K → Policy K
  | .lru p => .lru (p.onRemove id)
  | .fifo p => .fifo (p.onRemove id)
  | .s3fifo p => .s3fifo (p.onRemove id)
  | .lfu p => .lfu (p.onRemove id)
  | .tinyLfu p => .tinyLfu (p.onRemove id)
  | .twoQ p => .twoQ (p.onRemove id)
  | .arc p => .arc (p.onRemove id)

/-- The next entry to evict, with the policy after the choice. -/
def victim [BEq K] (hash : K → UInt64) : Policy K → Option (Ref K) × Policy K
  | .lru p => (p.victim, .lru p)
  | .fifo p => (p.victim, .fifo p)
  | .s3fifo p => (p.victim.1, .s3fifo p.victim.2)
  | .lfu p => (p.victim.1, .lfu p.victim.2)
  | .tinyLfu p => ((p.victim hash).1, .tinyLfu (p.victim hash).2)
  | .twoQ p => (p.victim.1, .twoQ p.victim.2)
  | .arc p => (p.victim.1, .arc p.victim.2)

/-- The second way to give up an entry, for the two policies that have one. -/
def shed [BEq K] (keepRecent : Bool) : Policy K → Option (Ref K) × Policy K
  | .s3fifo p => ((p.shed keepRecent).1, .s3fifo (p.shed keepRecent).2)
  | .tinyLfu p => (p.shed.1, .tinyLfu p.shed.2)
  | p => (none, p)

/-- An entry to evict regardless of the policy's own budgets. -/
def shedVictim [BEq K] (hash : K → UInt64) (keepRecent : Bool) (p : Policy K) :
    Option (Ref K) × Policy K :=
  if (p.victim hash).1.isSome then p.victim hash else (p.victim hash).2.shed keepRecent

def setBudget (budget : ℕ) : Policy K → Policy K
  | .lru p => .lru p
  | .fifo p => .fifo p
  | .s3fifo p => .s3fifo (p.setBudget budget)
  | .lfu p => .lfu p
  | .tinyLfu p => .tinyLfu (p.setBudget budget)
  | .twoQ p => .twoQ (p.setBudget budget)
  | .arc p => .arc (p.setBudget budget)

def reset : Policy K → Policy K
  | .lru _ => .lru ⟨[]⟩
  | .fifo _ => .fifo ⟨[]⟩
  | .s3fifo p => .s3fifo p.reset
  | .lfu _ => .lfu .empty
  | .tinyLfu p => .tinyLfu p.reset
  | .twoQ p => .twoQ p.reset
  | .arc p => .arc p.reset

/-- Whether a hit would change the policy, so that it needs the shard's write lock. -/
def promotionNeeded (id : ℕ) : Policy K → Bool
  | .fifo _ => false
  | .s3fifo p => p.promotionNeeded id
  | .twoQ p => p.promotionNeeded id
  | _ => true

/-! ### The invariant -/

/-- No entry is tracked twice, and `LFU`'s search bound holds. -/
def WellFormed : Policy K → Prop
  | .lfu p => p.WellFormed
  | p => NodeList.Distinct Ref.id p.tracked

variable {p : Policy K}

theorem WellFormed.distinct (hp : p.WellFormed) : NodeList.Distinct Ref.id p.tracked := by
  cases p with
  | lfu p => exact Lfu.distinct_iff.1 (Lfu.WellFormed.distinct hp)
  | _ => exact hp

@[simp] theorem tracked_new (kind : PolicyKind) (budget : ℕ) :
    (new kind budget : Policy K).tracked = [] := by
  cases kind <;> rfl

theorem wellFormed_new (kind : PolicyKind) (budget : ℕ) :
    (new kind budget : Policy K).WellFormed := by
  cases kind with
  | lfu => exact Lfu.wellFormed_empty
  | _ => exact List.nodup_nil

@[simp] theorem tracked_reset (p : Policy K) : p.reset.tracked = [] := by
  cases p <;> rfl

theorem wellFormed_reset (p : Policy K) : p.reset.WellFormed := by
  cases p with
  | lfu => exact Lfu.wellFormed_empty
  | _ => exact List.nodup_nil

@[simp] theorem tracked_setBudget (p : Policy K) (budget : ℕ) :
    (p.setBudget budget).tracked = p.tracked := by
  cases p <;> rfl

theorem WellFormed.setBudget (hp : p.WellFormed) (budget : ℕ) :
    (p.setBudget budget).WellFormed := by
  cases p <;> exact hp

/-! ### Budgets -/

/-- The policy's own budgets are the shares of a shard budget. -/
def Fitted (budget : ℕ) : Policy K → Prop
  | .twoQ p => p.Fitted budget
  | .tinyLfu p => p.Fitted budget
  | _ => True

theorem fitted_new (kind : PolicyKind) (budget : ℕ) :
    (new kind budget : Policy K).Fitted budget := by
  cases kind with
  | twoQ => exact ⟨rfl, rfl⟩
  | tinyLfu => exact ⟨rfl, rfl, rfl⟩
  | _ => exact trivial

theorem fitted_setBudget (p : Policy K) (budget : ℕ) : (p.setBudget budget).Fitted budget := by
  cases p with
  | twoQ => exact ⟨rfl, rfl⟩
  | tinyLfu => exact ⟨rfl, rfl, rfl⟩
  | _ => exact trivial

namespace Fitted

variable {budget : ℕ}

variable (hp : p.Fitted budget)
include hp

theorem reset : p.reset.Fitted budget := by
  cases p <;> exact hp

theorem onInsert [BEq K] (hash : K → UInt64) (e : Ref K) : (p.onInsert hash e).Fitted budget := by
  cases p with
  | twoQ p =>
    show TwoQ.Fitted budget (p.onInsert e)
    unfold TwoQ.onInsert
    split <;> exact hp
  | tinyLfu p => exact TinyLfu.Fitted.observe (p := { p with window := e :: p.window }) hp _
  | _ => exact trivial

theorem onAccess (hash : K → UInt64) (id : ℕ) : (p.onAccess hash id).Fitted budget := by
  cases p with
  | twoQ p =>
    show TwoQ.Fitted budget (p.onAccess id)
    unfold TwoQ.onAccess
    split <;> exact hp
  | tinyLfu p => exact TinyLfu.Fitted.onAccess hp hash id
  | _ => exact trivial

theorem onRemove (id : ℕ) : (p.onRemove id).Fitted budget := by
  cases p <;> exact hp

theorem victim [BEq K] (hash : K → UInt64) : (p.victim hash).2.Fitted budget := by
  cases p with
  | twoQ p => exact TwoQ.Fitted.victim hp
  | tinyLfu p => exact TinyLfu.Fitted.settle hp hash _
  | _ => exact trivial

theorem shed [BEq K] (keepRecent : Bool) : (p.shed keepRecent).2.Fitted budget := by
  cases p with
  | twoQ p => exact hp
  | tinyLfu p => exact TinyLfu.Fitted.shed hp
  | _ => exact trivial

end Fitted

/-! ### What does not depend on the entries seen -/

/-- The policy with all it has seen erased: what is left are its kind and its own budgets. -/
def blank : Policy K → Policy K
  | .tinyLfu p => .tinyLfu p.blank
  | p => p.reset

section Blank

@[simp] theorem blank_reset (p : Policy K) : p.reset.blank = p.blank := by
  cases p <;> rfl

/-- The kind a policy is of. -/
def kind : Policy K → PolicyKind
  | .lru _ => .lru
  | .fifo _ => .fifo
  | .s3fifo _ => .s3fifo
  | .lfu _ => .lfu
  | .tinyLfu _ => .tinyLfu
  | .twoQ _ => .twoQ
  | .arc _ => .arc

theorem kind_of_blank {k : PolicyKind} {b : ℕ} (hp : p.blank = (new k b).blank) : p.kind = k := by
  have hb : p.blank.kind = p.kind := by cases p <;> rfl
  rw [← hb, hp]
  cases k <;> rfl

/-- Setting the budget leaves the budgets of a fresh policy. -/
theorem blank_setBudget (p : Policy K) (budget : ℕ) :
    (p.setBudget budget).blank = (new p.kind budget).blank := by
  cases p <;> rfl

@[simp] theorem blank_onInsert [BEq K] (hash : K → UInt64) (e : Ref K) (p : Policy K) :
    (p.onInsert hash e).blank = p.blank := by
  cases p with
  | s3fifo p => exact congrArg Policy.s3fifo (p.reset_onInsert e)
  | tinyLfu p => exact congrArg Policy.tinyLfu (p.blank_onInsert hash e)
  | twoQ p => exact congrArg Policy.twoQ (p.reset_onInsert e)
  | arc p => exact congrArg Policy.arc (p.reset_onInsert e)
  | _ => rfl

@[simp] theorem blank_onAccess (hash : K → UInt64) (id : ℕ) (p : Policy K) :
    (p.onAccess hash id).blank = p.blank := by
  cases p with
  | tinyLfu p => exact congrArg Policy.tinyLfu (p.blank_onAccess hash id)
  | twoQ p => exact congrArg Policy.twoQ (p.reset_onAccess id)
  | arc p => exact congrArg Policy.arc (p.reset_onAccess id)
  | _ => rfl

@[simp] theorem blank_onRemove (id : ℕ) (p : Policy K) : (p.onRemove id).blank = p.blank := by
  cases p <;> rfl

@[simp] theorem blank_victim [BEq K] (hash : K → UInt64) (p : Policy K) :
    (p.victim hash).2.blank = p.blank := by
  cases p with
  | s3fifo p => exact congrArg Policy.s3fifo p.reset_victim
  | tinyLfu p => exact congrArg Policy.tinyLfu (p.blank_settle hash _)
  | twoQ p => exact congrArg Policy.twoQ p.reset_victim
  | arc p => exact congrArg Policy.arc p.reset_victim
  | _ => rfl

@[simp] theorem blank_shed [BEq K] (keepRecent : Bool) (p : Policy K) :
    (p.shed keepRecent).2.blank = p.blank := by
  cases p with
  | s3fifo p => exact congrArg Policy.s3fifo (p.reset_shed keepRecent)
  | tinyLfu p => exact congrArg Policy.tinyLfu p.blank_shed
  | _ => rfl

end Blank

/-! ### Inserts, hits and removals -/

theorem tracked_onInsert [BEq K] (hash : K → UInt64) (e : Ref K) (p : Policy K) :
    (p.onInsert hash e).tracked.Perm (e :: p.tracked) := by
  cases p with
  | lru p => exact .refl _
  | fifo p => exact List.perm_append_singleton ..
  | s3fifo p => exact p.tracked_onInsert e
  | lfu p =>
    exact (List.Perm.of_eq (p.tracked_onInsert e)).trans (List.perm_append_singleton ..)
  | tinyLfu p => exact .of_eq (p.tracked_onInsert e)
  | twoQ p => exact p.tracked_onInsert e
  | arc p => exact p.tracked_onInsert e

theorem WellFormed.onInsert [BEq K] (hp : p.WellFormed) (hash : K → UInt64) {e : Ref K}
    (he : ∀ r ∈ p.tracked, r.id ≠ e.id) : (p.onInsert hash e).WellFormed := by
  have hd := (hp.distinct.cons he).perm (tracked_onInsert hash e p).symm
  cases p with
  | lfu p => exact Lfu.WellFormed.onInsert hp he
  | _ => exact hd

theorem WellFormed.tracked_onAccess (hp : p.WellFormed) (hash : K → UInt64) (id : ℕ) :
    (p.onAccess hash id).tracked.Perm p.tracked := by
  cases p with
  | lru p => exact p.nodes_onAccess id hp
  | fifo p => exact .refl _
  | s3fifo p => exact .of_eq (p.tracked_onAccess id)
  | lfu p => exact p.tracked_onAccess id (Lfu.WellFormed.distinct hp)
  | tinyLfu p => exact TinyLfu.tracked_onAccess id hp
  | twoQ p => exact p.tracked_onAccess id hp
  | arc p => exact p.tracked_onAccess id hp

theorem WellFormed.onAccess (hp : p.WellFormed) (hash : K → UInt64) (id : ℕ) :
    (p.onAccess hash id).WellFormed := by
  have hd := hp.distinct.perm (hp.tracked_onAccess hash id).symm
  cases p with
  | lfu p => exact Lfu.WellFormed.onAccess hp id
  | _ => exact hd

/-- A hit that needs no promotion leaves the policy as it is. -/
theorem WellFormed.onAccess_eq_self (hp : p.WellFormed) (hash : K → UInt64) {id : ℕ}
    (h : p.promotionNeeded id = false) : p.onAccess hash id = p := by
  cases p with
  | fifo p => rfl
  | s3fifo p => exact congrArg Policy.s3fifo (S3Fifo.onAccess_eq_self hp h)
  | twoQ p => exact congrArg Policy.twoQ (TwoQ.onAccess_eq_self hp h)
  | _ => cases h

theorem tracked_onRemove (id : ℕ) (p : Policy K) :
    (p.onRemove id).tracked = NodeList.unlink Ref.id id p.tracked := by
  cases p with
  | lru p => rfl
  | fifo p => rfl
  | s3fifo p => exact p.tracked_onRemove id
  | lfu p => exact p.tracked_onRemove id
  | tinyLfu p => exact p.tracked_onRemove id
  | twoQ p => exact p.tracked_onRemove id
  | arc p => exact p.tracked_onRemove id

theorem WellFormed.onRemove (hp : p.WellFormed) (id : ℕ) : (p.onRemove id).WellFormed := by
  have hd := hp.distinct.unlink (i := id)
  rw [← tracked_onRemove] at hd
  cases p with
  | lfu p => exact Lfu.WellFormed.onRemove hp id
  | _ => exact hd

/-! ### What `Len` counts -/

/-- **`Len` is the number of entries tracked** once every chosen entry has been removed. -/
theorem len_eq (h : p.pulledIds = []) : p.len = p.tracked.length := by
  cases p with
  | lru | fifo => rfl
  | s3fifo => simp [len, tracked, S3Fifo.tracked]
  | lfu p =>
    have hnil : p.pulled = [] := List.map_eq_nil_iff.1 h
    simp [len, tracked, Lfu.tracked, hnil]
  | tinyLfu => simp [len, tracked, TinyLfu.tracked, Nat.add_assoc]
  | twoQ => simp [len, tracked, TwoQ.tracked]
  | arc => simp [len, tracked, Arc.tracked]

@[simp] theorem pulledIds_new (kind : PolicyKind) (budget : ℕ) :
    (new kind budget : Policy K).pulledIds = [] := by
  cases kind <;> rfl

@[simp] theorem pulledIds_reset (p : Policy K) : p.reset.pulledIds = [] := by
  cases p <;> rfl

@[simp] theorem pulledIds_setBudget (p : Policy K) (budget : ℕ) :
    (p.setBudget budget).pulledIds = p.pulledIds := by
  cases p <;> rfl

@[simp] theorem pulledIds_onInsert [BEq K] (hash : K → UInt64) (e : Ref K) (p : Policy K) :
    (p.onInsert hash e).pulledIds = p.pulledIds := by
  cases p <;> rfl

@[simp] theorem pulledIds_onAccess (hash : K → UInt64) (id : ℕ) (p : Policy K) :
    (p.onAccess hash id).pulledIds = p.pulledIds := by
  cases p with
  | lfu p =>
    show (p.onAccess id).pulled.map Lfu.nodeId = _
    unfold Lfu.onAccess
    split <;> rfl
  | _ => rfl

/-- A removal releases a chosen entry, and no other. -/
theorem pulledIds_onRemove (id : ℕ) (p : Policy K) :
    (p.onRemove id).pulledIds = p.pulledIds.filter (· ≠ id) := by
  cases p with
  | lfu p =>
    show (p.onRemove id).pulled.map Lfu.nodeId = (p.pulled.map Lfu.nodeId).filter (· ≠ id)
    unfold Lfu.onRemove
    split
    · next h =>
      refine (List.filter_eq_self.2 fun x hx ↦ ?_).symm
      obtain ⟨n, hn, rfl⟩ := List.mem_map.1 hx
      exact List.all_eq_true.1 h n (List.mem_append_right _ hn)
    · simp [NodeList.unlink, List.filter_map, Function.comp_def]
  | _ => rfl

/-! ### Victims -/

/-- What asking a policy for a victim leads to: the policy it becomes, and its answer. -/
structure Yields (p q : Policy K) (v : Option (Ref K)) : Prop where
  wellFormed : p.WellFormed → q.WellFormed
  picks : p.WellFormed → Picks p.tracked q.tracked v
  fitted : ∀ budget, p.Fitted budget → q.Fitted budget
  blank : q.blank = p.blank
  pulled : p.pulledIds = [] → ∀ id ∈ q.pulledIds, ∃ r, v = some r ∧ r.id = id

theorem yields_self (p : Policy K) : p.Yields p none :=
  ⟨id, fun _ ↦ List.Perm.refl _, fun _ ↦ id, rfl, fun h id hid ↦ by rw [h] at hid; cases hid⟩

/-- A policy that declined has pulled nothing out. -/
theorem Yields.pulledIds_eq_nil {p q : Policy K} (h : p.Yields q none) (hp : p.pulledIds = []) :
    q.pulledIds = [] := by
  refine List.eq_nil_iff_forall_not_mem.2 fun id hid ↦ ?_
  obtain ⟨r, hr, -⟩ := h.pulled hp id hid
  cases hr

/-- The removal of the victim releases it. -/
theorem Yields.pulledIds_onRemove {p q : Policy K} {r : Ref K} (h : p.Yields q (some r))
    (hp : p.pulledIds = []) : (q.onRemove r.id).pulledIds = [] := by
  rw [Policy.pulledIds_onRemove, List.filter_eq_nil_iff]
  intro id hid
  obtain ⟨r', hr, rfl⟩ := h.pulled hp id hid
  cases hr
  simp

/-- A policy that declined may be asked again. -/
theorem Yields.trans {p q r : Policy K} {v : Option (Ref K)} (h : p.Yields q none)
    (h' : q.Yields r v) : p.Yields r v where
  wellFormed hp := h'.wellFormed (h.wellFormed hp)
  picks hp := .of_perm (h.picks hp) (h'.picks (h.wellFormed hp))
  fitted budget hp := h'.fitted budget (h.fitted budget hp)
  blank := h'.blank.trans h.blank
  pulled hp := h'.pulled (h.pulledIds_eq_nil hp)

section Victim

variable [BEq K] {hash : K → UInt64}

section

variable (hp : p.WellFormed)
include hp

theorem WellFormed.picks_victim (hash : K → UInt64) :
    Picks p.tracked (p.victim hash).2.tracked (p.victim hash).1 := by
  cases p with
  | lru p => exact p.picks_victim
  | fifo p => exact p.picks_victim
  | s3fifo p => exact S3Fifo.picks_victim hp
  | lfu p => exact Lfu.picks_victim (Lfu.WellFormed.distinct hp)
  | tinyLfu p => exact p.picks_victim
  | twoQ p => exact p.picks_victim
  | arc p => exact p.picks_victim

theorem WellFormed.victim : (p.victim hash).2.WellFormed := by
  have hd := (hp.picks_victim hash).distinct hp.distinct
  cases p with
  | lfu p => exact Lfu.WellFormed.victim hp
  | _ => exact hd

theorem WellFormed.picks_shed (keepRecent : Bool) :
    Picks p.tracked (p.shed keepRecent).2.tracked (p.shed keepRecent).1 := by
  cases p with
  | s3fifo p => exact S3Fifo.picks_shed hp keepRecent
  | tinyLfu p => exact p.picks_shed
  | _ => exact List.Perm.refl _

theorem WellFormed.shed (keepRecent : Bool) : (p.shed keepRecent).2.WellFormed := by
  have hd := (hp.picks_shed keepRecent).distinct hp.distinct
  cases p with
  | lfu p => exact hp
  | _ => exact hd

theorem WellFormed.picks_shedVictim (keepRecent : Bool) :
    Picks p.tracked (p.shedVictim hash keepRecent).2.tracked
      (p.shedVictim hash keepRecent).1 := by
  have hv := hp.picks_victim hash
  unfold shedVictim
  split
  · exact hv
  · next hnone =>
    rw [Option.not_isSome_iff_eq_none.1 hnone] at hv
    exact .of_perm hv (hp.victim.picks_shed keepRecent)

theorem WellFormed.shedVictim (keepRecent : Bool) : (p.shedVictim hash keepRecent).2.WellFormed := by
  unfold Policy.shedVictim
  split
  · exact hp.victim
  · exact hp.victim.shed keepRecent

/-- **`shedVictim` yields a candidate whenever the policy tracks anything.** Five policies already
answer through `Victim`; `S3-FIFO` and `W-TinyLFU`, whose `Victim` stops at their own budgets,
answer through `shed`. -/
theorem WellFormed.shedVictim_ne_none (hash : K → UInt64) (h : p.tracked ≠ []) :
    (p.shedVictim hash false).1 ≠ none := by
  have hv := hp.picks_victim hash
  unfold Policy.shedVictim
  split
  · next hs => exact Option.isSome_iff_ne_none.1 hs
  · next hs =>
    -- a `Victim` that declined has kept every entry
    rw [Option.not_isSome_iff_eq_none.1 hs] at hv
    have hne : (p.victim hash).2.tracked ≠ [] := fun h' ↦ h (by
      simpa [h'] using (show (p.victim hash).2.tracked.Perm p.tracked from hv).symm)
    cases p with
    | lru p => exact absurd (Option.not_isSome_iff_eq_none.1 hs) (Lru.victim_ne_none h)
    | fifo p => exact absurd (Option.not_isSome_iff_eq_none.1 hs) (Fifo.victim_ne_none h)
    | s3fifo p => exact S3Fifo.shed_ne_none hne
    | lfu p =>
      refine absurd (Option.not_isSome_iff_eq_none.1 hs) (Lfu.WellFormed.victim_ne_none hp ?_)
      simpa [tracked, Lfu.tracked] using h
    | tinyLfu p => exact TinyLfu.shed_ne_none hne
    | twoQ p => exact absurd (Option.not_isSome_iff_eq_none.1 hs) (TwoQ.victim_ne_none h)
    | arc p => exact absurd (Option.not_isSome_iff_eq_none.1 hs) (Arc.victim_ne_none h)

end

theorem pulledIds_victim (hash : K → UInt64) (h : p.pulledIds = []) :
    ∀ id ∈ (p.victim hash).2.pulledIds, ∃ r, (p.victim hash).1 = some r ∧ r.id = id := by
  cases p with
  | lfu p =>
    have hnil : p.pulled = [] := List.map_eq_nil_iff.1 h
    show ∀ id ∈ p.victim.2.pulled.map Lfu.nodeId, ∃ r, p.victim.1 = some r ∧ r.id = id
    exact Lfu.pulled_victim hnil
  | _ => exact fun id hid ↦ nomatch hid

@[simp] theorem pulledIds_shed (keepRecent : Bool) (p : Policy K) :
    (p.shed keepRecent).2.pulledIds = p.pulledIds := by
  cases p <;> rfl

theorem yields_victim (p : Policy K) (hash : K → UInt64) :
    p.Yields (p.victim hash).2 (p.victim hash).1 :=
  ⟨fun hp ↦ hp.victim, fun hp ↦ hp.picks_victim hash, fun _ hp ↦ hp.victim hash,
    blank_victim hash p, pulledIds_victim hash⟩

theorem yields_shedVictim (p : Policy K) (hash : K → UInt64) (keepRecent : Bool) :
    p.Yields (p.shedVictim hash keepRecent).2 (p.shedVictim hash keepRecent).1 :=
  { wellFormed := fun hp ↦ hp.shedVictim keepRecent
    picks := fun hp ↦ hp.picks_shedVictim keepRecent
    fitted := fun budget hp ↦ by
      unfold Policy.shedVictim
      split
      · exact hp.victim hash
      · exact (hp.victim hash).shed keepRecent
    blank := by
      unfold Policy.shedVictim
      split <;> simp
    pulled := fun hp id hid ↦ by
      unfold Policy.shedVictim at hid ⊢
      split_ifs at hid ⊢ with hs
      · exact pulledIds_victim hash hp id hid
      · rw [pulledIds_shed] at hid
        obtain ⟨r, hr, -⟩ := pulledIds_victim hash hp id hid
        exact absurd (hr ▸ rfl : (p.victim hash).1.isSome = true) hs }

end Victim

end Policy

end Memcache
