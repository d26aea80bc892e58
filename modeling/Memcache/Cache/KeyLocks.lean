import Mathlib.Data.Int.Notation
import Mathlib.Data.Nat.Notation
import Mathlib.Logic.Function.Basic
import Memcache.Lib.KeyMap
import Memcache.Lib.Runs

/-!
# Key locks

A key's lock is made for the first caller that asks for it and dropped by the last that gives it up. A
caller takes its reference under the table's mutex and only then waits for the key's own, so **a lock that
someone is about to take is not dropped**: all callers of a key use one lock object, and at most one of
them is between `lock` and its unlock.
-/

namespace Memcache

structure KeyLock where
  /-- Whether the mutex is locked. -/
  mu : Bool
  refs : ℤ

inductive LockPhase where
  /-- With a reference, before the key's mutex is taken. -/
  | waiting
  /-- Between `lock` and its unlock. -/
  | holding
  /-- With the key's mutex given back, and not yet the reference. -/
  | releasing
  | returned
deriving DecidableEq, Repr

/-- A call of `lock` and of the function it returns. -/
structure LockCall (K : Type*) where
  key : K
  lock : ℕ
  phase : LockPhase

namespace LockCall

variable {K : Type*}

def uses (l : ℕ) (c : LockCall K) : Bool := decide (c.lock = l ∧ c.phase ≠ .returned)

def holds (l : ℕ) (c : LockCall K) : Bool := decide (c.lock = l ∧ c.phase = .holding)

variable {l : ℕ} {c : LockCall K}

@[simp] theorem uses_iff : c.uses l = true ↔ c.lock = l ∧ c.phase ≠ .returned := decide_eq_true_iff

@[simp] theorem holds_iff : c.holds l = true ↔ c.lock = l ∧ c.phase = .holding := decide_eq_true_iff

end LockCall

open LockCall (holds_iff uses_iff holds uses)

/-- A table of key locks with the lock objects made so far and the calls, each of a goroutine. -/
structure KeyLockTable (K : Type*) where
  m : KeyMap K ℕ
  locks : ℕ → KeyLock
  nextLock : ℕ
  calls : List (LockCall K)

namespace KeyLockTable

variable {K : Type*}

inductive Act (K : Type*) where
  /-- A goroutine calls `lock` and goes through its section under the table's mutex. -/
  | lock (key : K)
  /-- The call with this index takes its next step. -/
  | next (j : ℕ)

def start : KeyLockTable K := ⟨.empty, fun _ ↦ ⟨false, 0⟩, 0, []⟩

variable [BEq K]

/-- A new lock for the key. -/
def make (t : KeyLockTable K) (key : K) : KeyLockTable K :=
  { t with
    m := t.m.insert key t.nextLock
    locks := Function.update t.locks t.nextLock ⟨false, 0⟩
    nextLock := t.nextLock + 1 }

def addRef (t : KeyLockTable K) (key : K) (l : ℕ) : KeyLockTable K :=
  { t with
    locks := Function.update t.locks l { t.locks l with refs := (t.locks l).refs + 1 }
    calls := t.calls ++ [⟨key, l, .waiting⟩] }

/-- A call goes on, with its lock changed. -/
def put (t : KeyLockTable K) (j : ℕ) (c : LockCall K) (l : KeyLock) (phase : LockPhase) : KeyLockTable K :=
  { t with
    locks := Function.update t.locks c.lock l
    calls := t.calls.set j { c with phase := phase } }

def advance (t : KeyLockTable K) (j : ℕ) (c : LockCall K) : KeyLockTable K :=
  let l := t.locks c.lock
  match c.phase with
  | .waiting => if l.mu then t else t.put j c { l with mu := true } .holding
  | .holding => t.put j c { l with mu := false } .releasing
  | .releasing =>
    { t.put j c { l with refs := l.refs - 1 } .returned with
      m := if l.refs - 1 = 0 then t.m.erase c.key else t.m }
  | .returned => t

def step (t : KeyLockTable K) : Act K → KeyLockTable K
  | .lock key =>
    match t.m.get key with
    | some l => t.addRef key l
    | none => (t.make key).addRef key t.nextLock
  | .next j =>
    match t.calls[j]? with
    | some c => t.advance j c
    | none => t

/-- What the table is for. -/
structure Exclusive (t : KeyLockTable K) : Prop where
  holder : ∀ (i j : ℕ) (c d : LockCall K), t.calls[i]? = some c → t.calls[j]? = some d → c.phase = .holding →
    d.phase = .holding → c.key == d.key → i = j
  refs : ∀ l, (t.locks l).refs = t.calls.countP (uses l)
  entry : ∀ l, (∃ key, t.m.get key = some l) ↔ 0 < (t.locks l).refs
  same : ∀ c ∈ t.calls, ∀ d ∈ t.calls, c.phase ≠ .returned → d.phase ≠ .returned → c.key == d.key →
    c.lock = d.lock

/-- The invariant: a call under way uses the lock that its key has in the map. A lock in hand may be
without a reference. -/
structure Ok (t : KeyLockTable K) (hand : Option ℕ) : Prop where
  made : ∀ c ∈ t.calls, c.lock < t.nextLock
  get : ∀ c ∈ t.calls, c.phase ≠ .returned → t.m.get c.key = some c.lock
  inj : ∀ {k k' l}, t.m.get k = some l → t.m.get k' = some l → k == k'
  used : ∀ {k l}, t.m.get k = some l → hand ≠ some l → 0 < (t.locks l).refs
  refs : ∀ l, (t.locks l).refs = t.calls.countP (uses l)
  mu : ∀ l, t.calls.countP (holds l) = if (t.locks l).mu then 1 else 0

variable {t : KeyLockTable K} {key : K} {j l : ℕ} {c : LockCall K}

theorem ok_start : (start : KeyLockTable K).Ok none :=
  ⟨fun _ h ↦ (nomatch h), fun _ h ↦ (nomatch h), fun h ↦ (nomatch h), fun h ↦ (nomatch h), fun _ ↦ rfl,
    fun _ ↦ rfl⟩

namespace Ok

theorem exists_uses (h : t.Ok none) (hpos : 0 < (t.locks l).refs) :
    ∃ c ∈ t.calls, c.lock = l ∧ c.phase ≠ .returned := by
  rw [h.refs, Int.natCast_pos, List.countP_pos_iff] at hpos
  obtain ⟨c, hc, huse⟩ := hpos
  exact ⟨c, hc, uses_iff.1 huse⟩

theorem lt_nextLock (h : t.Ok none) (hkey : t.m.get key = some l) : l < t.nextLock := by
  obtain ⟨c, hc, rfl, -⟩ := h.exists_uses (h.used hkey (fun h ↦ by cases h))
  exact h.made c hc

theorem make [EquivBEq K] (h : t.Ok none) (hnone : t.m.get key = none) :
    (t.make key).Ok (some t.nextLock) := by
  have hget (k : K) : (t.make key).m.get k = if key == k then some t.nextLock else t.m.get k :=
    KeyMap.get_insert
  have hself : (t.make key).locks t.nextLock = ⟨false, 0⟩ := Function.update_self ..
  have hother {l : ℕ} (hl : l ≠ t.nextLock) : (t.make key).locks l = t.locks l :=
    Function.update_of_ne hl ..
  -- no call uses the new object
  have hno {p : LockCall K → Bool} (hp : ∀ c, p c → c.lock = t.nextLock) : t.calls.countP p = 0 :=
    List.countP_eq_zero.2 fun c hc hpc ↦ Nat.ne_of_lt (h.made c hc) (hp c hpc)
  refine ⟨fun c hc ↦ Nat.lt_succ_of_lt (h.made c hc), fun c hc hret ↦ ?_, fun {k k' l} hk hk' ↦ ?_,
    fun {k l} hk hl ↦ ?_, fun l ↦ ?_, fun l ↦ ?_⟩
  · rw [hget, if_neg, h.get c hc hret]
    intro hkey
    rw [KeyMap.get_congr hkey, h.get c hc hret] at hnone
    cases hnone
  · rw [hget] at hk hk'
    split_ifs at hk hk' with hkey hkey'
    · exact PartialEquivBEq.trans (BEq.symm hkey) hkey'
    · exact absurd (Option.some.inj hk).symm (Nat.ne_of_lt (h.lt_nextLock hk'))
    · exact absurd (Option.some.inj hk').symm (Nat.ne_of_lt (h.lt_nextLock hk))
    · exact h.inj hk hk'
  · rw [hget] at hk
    split_ifs at hk
    · exact absurd hk hl
    · rw [hother (Nat.ne_of_lt (h.lt_nextLock hk))]
      exact h.used hk (fun h ↦ by cases h)
  · rcases eq_or_ne l t.nextLock with rfl | hne
    · rw [hself]
      exact congrArg Nat.cast (hno fun c hc ↦ (uses_iff.1 hc).1).symm
    · rw [hother hne, h.refs]
      rfl
  · rcases eq_or_ne l t.nextLock with rfl | hne
    · rw [hself]
      exact hno fun c hc ↦ (holds_iff.1 hc).1
    · rw [hother hne, ← h.mu]
      rfl

/-- A reference for the lock in hand. -/
theorem addRef (h : t.Ok (some l)) (hkey : t.m.get key = some l) (hl : l < t.nextLock) :
    (t.addRef key l).Ok none := by
  have hrefs (l' : ℕ) :
      ((t.addRef key l).locks l').refs = (t.addRef key l).calls.countP (uses l') := by
    rcases eq_or_ne l' l with rfl | hne
    · simp [KeyLockTable.addRef, h.refs]
    · simp [KeyLockTable.addRef, h.refs, hne, hne.symm]
  refine ⟨fun c hc ↦ ?_, fun c hc hret ↦ ?_, h.inj, fun {k l'} hk _ ↦ ?_, hrefs, fun l' ↦ ?_⟩
  · rcases List.mem_append.1 hc with hc | hc
    · exact h.made c hc
    · exact List.mem_singleton.1 hc ▸ hl
  · rcases List.mem_append.1 hc with hc | hc
    · exact h.get c hc hret
    · exact List.mem_singleton.1 hc ▸ hkey
  · rcases eq_or_ne l' l with rfl | hne
    · rw [hrefs, Int.natCast_pos, List.countP_pos_iff]
      exact ⟨_, List.mem_append_right _ (List.mem_singleton_self _), by simp⟩
    · simpa [KeyLockTable.addRef, hne] using h.used hk (by simpa using hne.symm)
  · rcases eq_or_ne l' l with rfl | hne
    · simp [KeyLockTable.addRef, h.mu]
    · simp [KeyLockTable.addRef, h.mu, hne]

section Put

variable (h : t.Ok none) (hj : t.calls[j]? = some c) {lock : KeyLock} {phase : LockPhase}
include h hj

theorem made_set : ∀ d ∈ t.calls.set j { c with phase := phase }, d.lock < t.nextLock := by
  intro d hd
  rcases List.mem_or_eq_of_mem_set hd with hd | rfl
  · exact h.made d hd
  · exact h.made c (List.mem_of_getElem? hj)

theorem refs_put (hc : c.phase ≠ .returned)
    (hrefs : lock.refs = (t.locks c.lock).refs - if phase = .returned then 1 else 0) (l : ℕ) :
    ((t.put j c lock phase).locks l).refs = (t.put j c lock phase).calls.countP (uses l) := by
  have hset := Runs.countP_set (p := uses l) hj { c with phase := phase }
  have hold := h.refs l
  show (Function.update t.locks c.lock lock l).refs = ((t.calls.set j _).countP _ : ℕ)
  rcases eq_or_ne l c.lock with rfl | hne
  · rw [Function.update_self, hrefs]
    by_cases hp : phase = .returned <;> simp [hc, hp] at hset hold ⊢ <;> omega
  · rw [Function.update_of_ne hne]
    simp [hne.symm] at hset hold ⊢
    omega

theorem mu_put (hmu : (if lock.mu then 1 else 0) + (if c.phase = .holding then 1 else 0) =
      (if (t.locks c.lock).mu then 1 else 0) + if phase = .holding then 1 else 0) (l : ℕ) :
    (t.put j c lock phase).calls.countP (holds l) =
      if ((t.put j c lock phase).locks l).mu then 1 else 0 := by
  have hset := Runs.countP_set (p := holds l) hj { c with phase := phase }
  have hold := h.mu l
  show (t.calls.set j _).countP _ = if (Function.update t.locks c.lock lock l).mu then 1 else 0
  rcases eq_or_ne l c.lock with rfl | hne
  · rw [Function.update_self]
    simp only [holds_iff, true_and] at hset
    omega
  · rw [Function.update_of_ne hne, ← hold]
    simpa [hne.symm] using hset

/-- A call takes or gives back its key's mutex. -/
theorem put (hc : c.phase ≠ .returned) (hphase : phase ≠ .returned)
    (hrefs : lock.refs = (t.locks c.lock).refs)
    (hmu : (if lock.mu then 1 else 0) + (if c.phase = .holding then 1 else 0) =
      (if (t.locks c.lock).mu then 1 else 0) + if phase = .holding then 1 else 0) :
    (t.put j c lock phase).Ok none := by
  refine ⟨h.made_set hj, fun d hd hret ↦ ?_, h.inj, fun {k l} hk hl ↦ ?_,
    h.refs_put hj hc (by simp [hrefs, hphase]), h.mu_put hj hmu⟩
  · rcases List.mem_or_eq_of_mem_set hd with hd | rfl
    · exact h.get d hd hret
    · exact h.get c (List.mem_of_getElem? hj) hc
  · show 0 < (Function.update t.locks c.lock lock l).refs
    have hpos := h.used hk hl
    rw [Function.update_apply]
    split_ifs with heq
    · rwa [hrefs, ← heq]
    · exact hpos

/-- A call gives back its reference; the last one drops the lock. -/
theorem release [EquivBEq K] (hc : c.phase = .releasing) : (t.advance j c).Ok none := by
  obtain ⟨r, hr⟩ : ∃ r, r = (t.locks c.lock).refs - 1 := ⟨_, rfl⟩
  have hadv : t.advance j c =
      { t.put j c { t.locks c.lock with refs := r } .returned with
        m := if r = 0 then t.m.erase c.key else t.m } := by
    simp only [KeyLockTable.advance, hc, hr]
  have hentry : t.m.get c.key = some c.lock := h.get c (List.mem_of_getElem? hj) (by simp [hc])
  have hpos : 0 < (t.locks c.lock).refs := h.used hentry (fun h ↦ by cases h)
  have hrefs (l : ℕ) : ((t.put j c { t.locks c.lock with refs := r } .returned).locks l).refs =
      (t.put j c { t.locks c.lock with refs := r } .returned).calls.countP (uses l) :=
    h.refs_put hj (by simp [hc]) (by simp [hr]) l
  have hget (k : K) : (if r = 0 then t.m.erase c.key else t.m).get k =
      if r = 0 ∧ c.key == k then none else t.m.get k := by
    by_cases hlast : r = 0 <;> simp [hlast, KeyMap.get_erase]
  rw [hadv]
  refine ⟨h.made_set hj, fun d hd hret ↦ ?_, fun {k k' l} hk hk' ↦ ?_, fun {k l} hk _ ↦ ?_, hrefs,
    h.mu_put hj (by simp [hc])⟩
  · have hold : t.m.get d.key = some d.lock := by
      rcases List.mem_or_eq_of_mem_set hd with hd | rfl
      · exact h.get d hd hret
      · exact absurd rfl hret
    rw [hget, if_neg, hold]
    rintro ⟨hlast, hkey⟩
    -- another caller of the key uses the lock, so the reference was not the last
    rw [← KeyMap.get_congr hkey, hentry] at hold
    have hself : ((t.put j c { t.locks c.lock with refs := r } .returned).locks c.lock).refs = r := by
      simp [KeyLockTable.put]
    have hzero := (hrefs c.lock).symm.trans (hself.trans hlast)
    rw [Int.natCast_eq_zero, List.countP_eq_zero] at hzero
    exact hzero d hd (uses_iff.2 ⟨(Option.some.inj hold).symm, hret⟩)
  · rw [hget] at hk hk'
    split_ifs at hk hk'
    exact h.inj hk hk'
  · rw [hget] at hk
    split_ifs at hk with hdrop
    show 0 < (Function.update t.locks c.lock _ l).refs
    rw [Function.update_apply]
    split_ifs with heq
    · have hne : r ≠ 0 := fun hlast ↦ hdrop ⟨hlast, h.inj hentry (heq ▸ hk)⟩
      show 0 < r
      omega
    · exact h.used hk (fun h ↦ by cases h)

end Put

theorem mu_of_holding (h : t.Ok none) (hj : t.calls[j]? = some c) (hc : c.phase = .holding) :
    (t.locks c.lock).mu = true := by
  have hpos : 0 < t.calls.countP (holds c.lock) :=
    List.countP_pos_iff.2 ⟨c, List.mem_of_getElem? hj, holds_iff.2 ⟨rfl, hc⟩⟩
  rw [h.mu] at hpos
  split_ifs at hpos with hmu
  · exact hmu
  · exact absurd hpos (Nat.lt_irrefl 0)

theorem step [EquivBEq K] (h : t.Ok none) (a : Act K) : (t.step a).Ok none := by
  cases a with
  | lock key =>
    simp only [KeyLockTable.step]
    split
    · next l hl =>
      exact addRef { h with used := fun hk _ ↦ h.used hk (fun h ↦ by cases h) } hl (h.lt_nextLock hl)
    · next hnone =>
      refine (h.make hnone).addRef ?_ (Nat.lt_succ_self _)
      exact KeyMap.get_insert.trans (if_pos (BEq.refl key))
  | next j =>
    simp only [KeyLockTable.step]
    split
    · next c hj =>
      rcases hc : c.phase with _ | _ | _ | _
      · simp only [KeyLockTable.advance, hc]
        split_ifs with hmu
        · exact h
        · exact h.put hj (by simp [hc]) (by simp) rfl (by simp [hc, hmu])
      · simp only [KeyLockTable.advance, hc]
        exact h.put hj (by simp [hc]) (by simp) rfl (by simp [hc, h.mu_of_holding hj hc])
      · exact h.release hj hc
      · simp only [KeyLockTable.advance, hc]
        exact h
    · exact h

theorem same (h : t.Ok none) {c d : LockCall K} (hc : c ∈ t.calls) (hd : d ∈ t.calls)
    (hret : c.phase ≠ .returned) (hret' : d.phase ≠ .returned) [PartialEquivBEq K] (hkey : c.key == d.key) :
    c.lock = d.lock := by
  have hget := h.get c hc hret
  rw [KeyMap.get_congr hkey, h.get d hd hret'] at hget
  exact (Option.some.inj hget).symm

/-- A lock has at most one holder. -/
theorem holder_unique (h : t.Ok none) {i j : ℕ} {c d : LockCall K} (hi : t.calls[i]? = some c)
    (hj : t.calls[j]? = some d) (hc : c.phase = .holding) (hd : d.phase = .holding)
    (hlock : c.lock = d.lock) : i = j := by
  by_contra hne
  -- with the one holder gone, there would be another
  have hset := Runs.countP_set (p := holds d.lock) hi { c with phase := .returned }
  have hmem : d ∈ t.calls.set i { c with phase := .returned } := by
    refine List.mem_of_getElem? (i := j) ?_
    rw [List.getElem?_set_ne hne, hj]
  have hpos : 0 < (t.calls.set i { c with phase := .returned }).countP (holds d.lock) :=
    List.countP_pos_iff.2 ⟨d, hmem, holds_iff.2 ⟨rfl, hd⟩⟩
  have hle := h.mu d.lock
  rw [if_pos (holds_iff.2 ⟨hlock, hc⟩), if_neg (by simp)] at hset
  split_ifs at hle <;> omega

theorem exclusive [EquivBEq K] (h : t.Ok none) : t.Exclusive where
  holder i j c d hi hj hc hd hkey := by
    refine h.holder_unique hi hj hc hd (h.same (List.mem_of_getElem? hi) (List.mem_of_getElem? hj) ?_ ?_ hkey)
    · simp [hc]
    · simp [hd]
  refs := h.refs
  entry l := by
    refine ⟨fun ⟨key, hkey⟩ ↦ h.used hkey (fun h ↦ by cases h), fun hpos ↦ ?_⟩
    obtain ⟨c, hc, rfl, hret⟩ := h.exists_uses hpos
    exact ⟨c.key, h.get c hc hret⟩
  same c hc d hd hret hret' hkey := h.same hc hd hret hret' hkey

end Ok

/-- **In every run of goroutines that lock and unlock keys, a key has one lock object, counted and kept as
long as it is used, and at most one holder.** -/
theorem exclusive_run [EquivBEq K] (acts : List (Act K)) : (acts.foldl step start).Exclusive :=
  (Runs.invariant (I := fun t ↦ Ok t none) (fun _ a h ↦ h.step a) ok_start acts).exclusive

/-- Two callers of key 1 in turn, the second with its reference before the first gives up its own, and a
third after both. -/
theorem exclusive_run_three :
    (([.lock 1, .next 0, .lock 1, .next 1, .next 0, .next 1, .next 0, .next 1, .next 1, .lock 1] : List
      (Act ℕ)).foldl step start).Exclusive ∧
    (([.lock 1, .next 0, .lock 1, .next 1, .next 0, .next 1, .next 0, .next 1, .next 1, .lock 1] : List
      (Act ℕ)).foldl step start).m.get 1 = some 1 :=
  ⟨exclusive_run _, by decide +kernel⟩

end KeyLockTable

end Memcache
