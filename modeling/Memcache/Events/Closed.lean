import Mathlib.Tactic
import Memcache.Events.Bus
import Memcache.Lib.Runs

/-!
# Channels are closed once

Whoever may yet close a channel is counted, and so is every close of it: its `subscribe` call until that
returns, its registration, an `unsubscribe` that took the registration out. **The sum is one from the
first step on** (`duty`), so a channel is closed at most once, and none that is registered is closed
already: nothing is sent on a closed channel.

A channel is lost in two ways only. `subscribe` reads the closed flag before it takes the lock, so it may
register **after `close` has been through the registrations**: nobody closes that channel. And an
identifier in use again, after `2 ^ 64` others, overwrites a registration.
-/

namespace Memcache

theorem count_set_add {α : Type*} [BEq α] [LawfulBEq α] [DecidableEq α] {l : List α} {j : ℕ} {c : α}
    (hj : l[j]? = some c) (c' a : α) :
    (l.set j c').count a + (if c = a then 1 else 0) = l.count a + if c' = a then 1 else 0 := by
  simpa only [List.count, beq_iff_eq] using Runs.countP_set (p := (· == a)) hj c'

namespace SubscribeCall

def isReturned : SubscribeCall → Bool
  | .returned _ => true
  | _ => false

end SubscribeCall

namespace EventRun

variable {P : Type*} {s : EventRun P} {a : Act P} {i : ℕ}

/-- The closes of a channel, and the one that its `subscribe` call still has in hand. A call that is yet
to come has it in hand. -/
def own : Option (Subscriber P) → ℕ
  | some x => x.closes + if x.call.isReturned then 0 else 1
  | none => 1

/-- The closes of a channel, and those that may yet come. -/
def duty (s : EventRun P) (i : ℕ) : ℕ :=
  own s.subscribers[i]? + s.bus.subs.values.countP (fun sub ↦ sub.ch == i) +
    s.cancels.count (.removed i)

/-- The identifier that a step registers. -/
def registers (s : EventRun P) : Act P → Option UInt64
  | .subscribe i =>
    match s.subscribers[i]?.map Subscriber.call with
    | some (.numbered id) => some id
    | _ => none
  | _ => none

variable {x : Subscriber P}

theorem registers_eq {id : UInt64} (hx : s.subscribers[i]? = some x)
    (hcall : x.call = .numbered id) : s.registers (.subscribe i) = some id := by
  rw [registers, hx, Option.map_some, hcall]

/-- No registration is overwritten. -/
def Fresh (s : EventRun P) (a : Act P) : Prop := ∀ id ∈ s.registers a, s.bus.subs.get id = none

/-! ### One channel -/

@[simp] theorem getElem?_update (s : EventRun P) (i j : ℕ) (f : Subscriber P → Subscriber P) :
    (s.update i f).subscribers[j]? =
      if i = j then s.subscribers[j]?.map f else s.subscribers[j]? := by
  rw [update, List.getElem?_modify]
  split_ifs <;> simp

/-- A change that leaves what the channel's call has in hand. -/
theorem own_update_of_eq {f : Subscriber P → Subscriber P}
    (hf : ∀ x, s.subscribers[i]? = some x → own (some (f x)) = own (some x)) (j : ℕ) :
    own (s.update i f).subscribers[j]? = own s.subscribers[j]? := by
  rw [getElem?_update]
  split_ifs with hij
  · subst hij
    rcases hx : s.subscribers[i]? with _ | x
    · rfl
    · exact hf x hx
  · rfl

theorem own_update_close (hi : i < s.subscribers.length) (j : ℕ) :
    own (s.update i Subscriber.close).subscribers[j]? =
      own s.subscribers[j]? + if i = j then 1 else 0 := by
  rw [getElem?_update]
  split_ifs with hij
  · subst hij
    rw [List.getElem?_eq_getElem hi]
    show (s.subscribers[i].closes + 1) + _ = s.subscribers[i].closes + _ + 1
    exact Nat.add_right_comm ..
  · rfl

theorem own_send (e : BusEvent P) (x : Subscriber P) : own (some (x.send e)) = own (some x) := by
  unfold Subscriber.send
  split_ifs <;> rfl

/-! ### All registrations -/

variable {subs : List Subscription}

/-- `close` closes the channel of each registration. -/
theorem own_closeAll (hsubs : ∀ sub ∈ subs, sub.ch < s.subscribers.length) (j : ℕ) :
    own (subs.foldl (fun s sub ↦ s.update sub.ch Subscriber.close) s).subscribers[j]? =
      own s.subscribers[j]? + subs.countP fun sub ↦ sub.ch == j := by
  induction subs generalizing s with
  | nil => rfl
  | cons sub subs ih =>
    have hlen : (s.update sub.ch Subscriber.close).subscribers.length = s.subscribers.length :=
      List.length_modify ..
    rw [List.foldl_cons, ih fun sub' h' ↦ hlen ▸ hsubs sub' (List.mem_cons_of_mem _ h'),
      own_update_close (hsubs sub List.mem_cons_self), List.countP_cons]
    simp only [beq_iff_eq]
    omega

/-- `publish` changes channels only. -/
theorem deliver_cases (e : BusEvent P) (s : EventRun P) (sub : Subscription) :
    ((s.deliver e sub).subscribers = s.subscribers ∨
      (s.deliver e sub).subscribers = (s.update sub.ch (Subscriber.send e)).subscribers) ∧
    (s.deliver e sub).bus = s.bus ∧ (s.deliver e sub).cancels = s.cancels ∧
    (s.deliver e sub).closers = s.closers := by
  unfold deliver
  split
  · exact ⟨.inr rfl, rfl, rfl, rfl⟩
  · exact ⟨.inl rfl, rfl, rfl, rfl⟩

theorem own_deliver (e : BusEvent P) (s : EventRun P) (sub : Subscription) (j : ℕ) :
    own (s.deliver e sub).subscribers[j]? = own s.subscribers[j]? := by
  rcases (deliver_cases e s sub).1 with h | h
  · rw [h]
  · rw [h]
    exact own_update_of_eq (fun x _ ↦ own_send e x) j

theorem publish_frame (e : BusEvent P) (subs : List Subscription) (s : EventRun P) :
    (∀ j : ℕ, own (subs.foldl (deliver e) s).subscribers[j]? = own s.subscribers[j]?) ∧
    (subs.foldl (deliver e) s).bus = s.bus ∧ (subs.foldl (deliver e) s).cancels = s.cancels ∧
    (subs.foldl (deliver e) s).closers = s.closers := by
  induction subs generalizing s with
  | nil => exact ⟨fun _ ↦ rfl, rfl, rfl, rfl⟩
  | cons sub subs ih =>
    obtain ⟨hown, hbus, hcancels, hclosers⟩ := ih (s.deliver e sub)
    obtain ⟨-, hb, hca, hcl⟩ := deliver_cases e s sub
    exact ⟨fun j ↦ (hown j).trans (own_deliver e s sub j), hbus.trans hb, hcancels.trans hca,
      hclosers.trans hcl⟩

/-! ### The sum of one channel -/

/-- A channel that somebody may yet close, or that was closed, was brought by a call. -/
theorem lt_of_duty (h : s.duty i ≤ 1)
    (hpos : 0 < s.bus.subs.values.countP (fun sub ↦ sub.ch == i) + s.cancels.count (.removed i)) :
    i < s.subscribers.length := by
  by_contra hge
  have hown : own s.subscribers[i]? = 1 := by
    rw [List.getElem?_eq_none (not_lt.1 hge)]
    rfl
  unfold duty at h
  omega

theorem countP_register (hu : s.bus.subs.Unique) (id : UInt64) (sub : Subscription)
    (p : Subscription → Bool) :
    (s.bus.register id sub).subs.values.countP p ≤ s.bus.subs.values.countP p + (if p sub then 1 else 0) ∧
    (s.bus.subs.get id = none → (s.bus.register id sub).subs.values.countP p =
      s.bus.subs.values.countP p + if p sub then 1 else 0) := by
  have hcons : (s.bus.register id sub).subs.values = sub :: (s.bus.subs.erase id).values := rfl
  rw [hcons, List.countP_cons]
  rcases hget : s.bus.subs.get id with _ | old
  · rw [KeyMap.erase_of_get_eq_none hget]
    exact ⟨le_rfl, fun _ ↦ rfl⟩
  · rw [(hu.values_perm hget).countP_eq, List.countP_cons]
    refine ⟨by omega, nofun⟩

theorem countP_remove (hu : s.bus.subs.Unique) {id : UInt64} {sub : Subscription}
    (hget : s.bus.subs.get id = some sub) (p : Subscription → Bool) :
    (s.bus.remove id).subs.values.countP p + (if p sub then 1 else 0) = s.bus.subs.values.countP p := by
  rw [(hu.values_perm hget).countP_eq, List.countP_cons]
  rfl

theorem duty_subscribe (hu : s.bus.subs.Unique) {k : ℕ} (hk : s.subscribers[k]? = some x) (i : ℕ) :
    (s.subscribe k x).duty i ≤ s.duty i ∧
      (s.Fresh (.subscribe k) → (s.subscribe k x).duty i = s.duty i) := by
  have hself (y : Subscriber P) (hy : s.subscribers[k]? = some y) : y = x :=
    Option.some_inj.1 (hy.symm.trans hk)
  have hsame {t : EventRun P} (hown : own t.subscribers[i]? = own s.subscribers[i]?)
      (hsubs : t.bus.subs = s.bus.subs) (hcancels : t.cancels = s.cancels) :
      t.duty i ≤ s.duty i ∧ (s.Fresh (.subscribe k) → t.duty i = s.duty i) := by
    have heq : t.duty i = s.duty i := by rw [duty, duty, hown, hsubs, hcancels]
    exact ⟨heq.le, fun _ ↦ heq⟩
  unfold subscribe
  rcases hcall : x.call with _ | _ | _ | id | id
  · refine hsame (own_update_of_eq (fun y hy ↦ ?_) i) rfl rfl
    rw [hself y hy]
    dsimp only [own]
    rw [hcall]
    split_ifs <;> first | rfl | contradiction
  · refine hsame (own_update_of_eq (fun y hy ↦ ?_) i) rfl rfl
    rw [hself y hy]
    dsimp only [own]
    rw [hcall]
    rfl
  · refine hsame ((own_update_of_eq (s := { s with bus := { s.bus with nextID := s.bus.nextID + 1 } })
      (fun y hy ↦ ?_) i).trans rfl) rfl rfl
    rw [hself y hy]
    dsimp only [own]
    rw [hcall]
    rfl
  · -- what the call had in hand goes to the registration
    have hown : own ({ s with bus := s.bus.register id ⟨k, x.kinds⟩ }.update k
        fun x ↦ { x with call := .returned id }).subscribers[i]? + (if k = i then 1 else 0) =
        own s.subscribers[i]? := by
      rw [getElem?_update]
      split_ifs with hki
      · subst hki
        rw [hk]
        dsimp only [Option.map_some, own]
        rw [hcall]
        rfl
      · rfl
    obtain ⟨hle, heq⟩ := countP_register hu id ⟨k, x.kinds⟩ fun sub ↦ sub.ch == i
    simp only [beq_iff_eq] at hle heq
    dsimp only
    refine ⟨?_, fun hfresh ↦ ?_⟩
    · unfold duty
      refine Nat.add_le_add_right (?_ : _ + (s.bus.register id ⟨k, x.kinds⟩).subs.values.countP _ ≤ _) _
      omega
    · have hcount := heq (hfresh id (registers_eq hk hcall))
      unfold duty
      refine congrArg (· + _) (?_ : _ + (s.bus.register id ⟨k, x.kinds⟩).subs.values.countP _ = _)
      omega
  · exact hsame rfl rfl rfl

theorem duty_unsubscribe (hu : s.bus.subs.Unique) (h : ∀ i, s.duty i ≤ 1) {j : ℕ}
    {c : UnsubscribeCall} (hj : s.cancels[j]? = some c) (i : ℕ) :
    (s.unsubscribe j c).duty i = s.duty i := by
  have hset (c' : UnsubscribeCall) := count_set_add hj c' (.removed i)
  cases c with
  | called id =>
    have hret := hset .returned
    simp only [reduceCtorEq, if_false, Nat.add_zero] at hret
    by_cases hid : id = 0
    · rw [unsubscribe, if_pos hid, duty, duty, hret]
    · rw [unsubscribe, if_neg hid, duty, duty]
      dsimp only
      rcases hget : s.bus.subs.get id with _ | sub
      · have hsubs : (s.bus.remove id).subs = s.bus.subs := KeyMap.erase_of_get_eq_none hget
        rw [hret, hsubs]
      · have hrem := hset (.removed sub.ch)
        have hcount := countP_remove hu hget fun sub ↦ sub.ch == i
        simp only [reduceCtorEq, if_false, Nat.add_zero, UnsubscribeCall.removed.injEq] at hrem
        simp only [beq_iff_eq] at hcount
        dsimp only
        omega
  | removed ch =>
    have hlt : ch < s.subscribers.length := by
      refine lt_of_duty (h ch) ?_
      have hmem : .removed ch ∈ s.cancels := List.mem_of_getElem? hj
      have hpos := List.count_pos_iff.2 hmem
      omega
    have hret := hset .returned
    simp only [reduceCtorEq, if_false, Nat.add_zero, UnsubscribeCall.removed.injEq] at hret
    have hown : own (s.unsubscribe j (.removed ch)).subscribers[i]? =
        own s.subscribers[i]? + if ch = i then 1 else 0 := own_update_close hlt i
    have hcancels : (s.unsubscribe j (.removed ch)).cancels = s.cancels.set j .returned := rfl
    have hbus : (s.unsubscribe j (.removed ch)).bus = s.bus := rfl
    rw [duty, duty, hown, hcancels, hbus]
    omega
  | returned => rfl

theorem closeAll_frame (subs : List Subscription) (s : EventRun P) :
    (subs.foldl (fun s sub ↦ s.update sub.ch Subscriber.close) s).cancels = s.cancels := by
  induction subs generalizing s with
  | nil => rfl
  | cons sub subs ih => exact ih _

theorem duty_close (h : ∀ i, s.duty i ≤ 1) (k : ℕ) (c : CloseCall) (i : ℕ) :
    (s.close k c).duty i = s.duty i := by
  cases c with
  | called =>
    rw [close]
    split <;> rfl
  | swapped =>
    have hlt (sub : Subscription) (hsub : sub ∈ s.bus.subs.values) : sub.ch < s.subscribers.length := by
      have hpos : 0 < s.bus.subs.values.countP (fun sub' ↦ sub'.ch == sub.ch) :=
        List.countP_pos_iff.2 ⟨sub, hsub, beq_self_eq_true _⟩
      exact lt_of_duty (h sub.ch) (by omega)
    have hown : own (s.close k .swapped).subscribers[i]? =
        own s.subscribers[i]? + s.bus.subs.values.countP fun sub ↦ sub.ch == i := own_closeAll hlt i
    have hcancels : (s.close k .swapped).cancels = s.cancels := closeAll_frame _ s
    have hsubs : (s.close k .swapped).bus.subs.values = [] := rfl
    rw [duty, duty, hown, hcancels, hsubs]
    rfl
  | returned => rfl

/-- **The sum of a channel stays**, and falls only with a registration that is overwritten. -/
theorem duty_step (hu : s.bus.subs.Unique) (h : ∀ i, s.duty i ≤ 1) (a : Act P) (i : ℕ) :
    (s.step a).duty i ≤ s.duty i ∧ (s.Fresh a → (s.step a).duty i = s.duty i) := by
  have hsame {t : EventRun P} (heq : t.duty i = s.duty i) :
      t.duty i ≤ s.duty i ∧ (s.Fresh a → t.duty i = s.duty i) := ⟨heq.le, fun _ ↦ heq⟩
  cases a with
  | callSubscribe cap kinds =>
    have hown : own (s.step (.callSubscribe cap kinds)).subscribers[i]? = own s.subscribers[i]? := by
      show own (s.subscribers ++ _)[i]? = _
      rcases lt_trichotomy i s.subscribers.length with hi | hi | hi
      · rw [List.getElem?_append_left hi]
      · subst hi
        simp [own, SubscribeCall.isReturned]
      · rw [List.getElem?_eq_none hi.le, List.getElem?_eq_none (by simpa using hi)]
    refine hsame ?_
    rw [duty, duty, hown]
    rfl
  | subscribe k =>
    unfold step
    dsimp only
    split
    · next x hk => exact duty_subscribe hu hk i
    · exact hsame rfl
  | callUnsubscribe id =>
    refine hsame ?_
    have hcount : (s.step (.callUnsubscribe id)).cancels.count (.removed i) = s.cancels.count (.removed i) := by
      show (s.cancels ++ [UnsubscribeCall.called id]).count _ = _
      simp
    rw [duty, duty, hcount]
    rfl
  | unsubscribe j =>
    unfold step
    dsimp only
    split
    · next c hj => exact hsame (duty_unsubscribe hu h hj i)
    · exact hsame rfl
  | publish e =>
    obtain ⟨hown, hbus, hcancels, -⟩ := publish_frame e s.bus.subs.values s
    refine hsame ?_
    show (s.bus.subs.values.foldl (deliver e) s).duty i = _
    rw [duty, duty, hown, hbus, hcancels]
  | receive k =>
    refine hsame ?_
    have hown : own (s.step (.receive k)).subscribers[i]? = own s.subscribers[i]? :=
      own_update_of_eq (f := fun x ↦ { x with buf := x.buf.tail }) (fun _ _ ↦ rfl) i
    rw [duty, duty, hown]
    rfl
  | callClose => exact hsame rfl
  | close k =>
    unfold step
    dsimp only
    split
    · next c hk => exact hsame (duty_close h k c i)
    · exact hsame rfl

/-! ### What every run keeps -/

theorem late_update {f : Subscriber P → Subscriber P} (h : ∀ x ∈ s.subscribers, x.late = 0)
    (hf : ∀ x, s.subscribers[i]? = some x → x.late = 0 → (f x).late = 0) :
    ∀ x ∈ (s.update i f).subscribers, x.late = 0 := by
  intro x' hx'
  obtain ⟨j, hj⟩ := List.mem_iff_getElem?.1 hx'
  rw [getElem?_update] at hj
  split_ifs at hj with hij
  · subst hij
    obtain ⟨x, hx, rfl⟩ := Option.map_eq_some_iff.1 hj
    exact hf x hx (h x (List.mem_of_getElem? hx))
  · exact h x' (List.mem_of_getElem? hj)

/-- Nothing is sent late to channels that nobody has closed. -/
theorem late_publish (e : BusEvent P) (hsubs : ∀ sub ∈ subs, own s.subscribers[sub.ch]? = 0)
    (h : ∀ x ∈ s.subscribers, x.late = 0) :
    ∀ x ∈ (subs.foldl (deliver e) s).subscribers, x.late = 0 := by
  induction subs generalizing s with
  | nil => exact h
  | cons sub subs ih =>
    refine ih (fun sub' h' ↦ ?_) ?_
    · rw [own_deliver]
      exact hsubs sub' (List.mem_cons_of_mem _ h')
    · rcases (deliver_cases e s sub).1 with heq | heq
      · rw [heq]
        exact h
      · rw [heq]
        refine late_update h fun x hx hlate ↦ ?_
        have hown := hsubs sub List.mem_cons_self
        rw [hx] at hown
        have hclosed : x.closes = 0 := Nat.eq_zero_of_add_eq_zero_right hown
        unfold Subscriber.send
        rw [if_neg (by omega)]
        split_ifs
        · exact hlate
        · exact hlate

theorem late_closeAll (h : ∀ x ∈ s.subscribers, x.late = 0) :
    ∀ x ∈ (subs.foldl (fun s sub ↦ s.update sub.ch Subscriber.close) s).subscribers,
      x.late = 0 := by
  induction subs generalizing s with
  | nil => exact h
  | cons sub subs ih => exact ih (late_update h fun _ _ hx ↦ hx)

/-- What a step does to the registrations. -/
theorem bus_step (s : EventRun P) (a : Act P) :
    ((s.step a).bus.subs = s.bus.subs ∧ (s.step a).bus.count = s.bus.count) ∨
    (∃ i x id, a = .subscribe i ∧ s.subscribers[i]? = some x ∧ x.call = .numbered id ∧
      (s.step a).bus = s.bus.register id ⟨i, x.kinds⟩) ∨
    (∃ id, (s.step a).bus = s.bus.remove id) ∨ (s.step a).bus = s.bus.clear := by
  cases a with
  | callSubscribe | callUnsubscribe | receive | callClose => exact .inl ⟨rfl, rfl⟩
  | publish e =>
    have hbus : (s.step (.publish e)).bus = s.bus := (publish_frame e s.bus.subs.values s).2.1
    rw [hbus]
    exact .inl ⟨rfl, rfl⟩
  | subscribe k =>
    unfold step
    dsimp only
    split
    · next x hk =>
      unfold subscribe
      split
      · exact .inl ⟨rfl, rfl⟩
      · exact .inl ⟨rfl, rfl⟩
      · exact .inl ⟨rfl, rfl⟩
      · next id hcall => exact .inr (.inl ⟨k, x, id, rfl, hk, hcall, rfl⟩)
      · exact .inl ⟨rfl, rfl⟩
    · exact .inl ⟨rfl, rfl⟩
  | unsubscribe j =>
    unfold step
    dsimp only
    split
    · next c hj =>
      cases c with
      | called id =>
        rw [unsubscribe]
        split
        · exact .inl ⟨rfl, rfl⟩
        · exact .inr (.inr (.inl ⟨id, rfl⟩))
      | removed | returned => exact .inl ⟨rfl, rfl⟩
    · exact .inl ⟨rfl, rfl⟩
  | close k =>
    unfold step
    dsimp only
    split
    · next c hk =>
      cases c with
      | called =>
        rw [close]
        split <;> exact .inl ⟨rfl, rfl⟩
      | swapped => exact .inr (.inr (.inr rfl))
      | returned => exact .inl ⟨rfl, rfl⟩
    · exact .inl ⟨rfl, rfl⟩

/-- What every run keeps. -/
structure Sane (s : EventRun P) : Prop where
  unique : s.bus.subs.Unique
  duty : ∀ i, s.duty i ≤ 1
  late : ∀ x ∈ s.subscribers, x.late = 0
  count : s.bus.count = s.bus.subs.pairs.length

theorem sane_start : (start : EventRun P).Sane :=
  ⟨.nil, fun _ ↦ le_rfl, fun _ hx ↦ absurd hx List.not_mem_nil, rfl⟩

theorem Sane.late_step (h : s.Sane) (a : Act P) : ∀ x ∈ (s.step a).subscribers, x.late = 0 := by
  cases a with
  | callSubscribe cap kinds =>
    intro x hx
    rcases List.mem_append.1 hx with hx | hx
    · exact h.late x hx
    · rw [List.mem_singleton.1 hx]
  | subscribe k =>
    unfold step
    dsimp only
    split
    · unfold subscribe
      split
      · exact late_update h.late fun _ _ hx ↦ hx
      · exact late_update h.late fun _ _ hx ↦ hx
      · exact late_update h.late fun _ _ hx ↦ hx
      · exact late_update h.late fun _ _ hx ↦ hx
      · exact h.late
    · exact h.late
  | unsubscribe j =>
    unfold step
    dsimp only
    split
    · next c hj =>
      cases c with
      | called id =>
        rw [unsubscribe]
        split <;> exact h.late
      | removed ch => exact late_update h.late fun _ _ hx ↦ hx
      | returned => exact h.late
    · exact h.late
  | publish e =>
    refine late_publish e (fun sub hsub ↦ ?_) h.late
    have hpos : 0 < s.bus.subs.values.countP (fun sub' ↦ sub'.ch == sub.ch) :=
      List.countP_pos_iff.2 ⟨sub, hsub, beq_self_eq_true _⟩
    have hduty := h.duty sub.ch
    unfold EventRun.duty at hduty
    omega
  | receive k => exact late_update h.late fun _ _ hx ↦ hx
  | callUnsubscribe | callClose => exact h.late
  | close k =>
    unfold step
    dsimp only
    split
    · next c hk =>
      cases c with
      | called =>
        rw [close]
        split <;> exact h.late
      | swapped => exact late_closeAll h.late
      | returned => exact h.late
    · exact h.late

theorem Sane.step (h : s.Sane) (a : Act P) : (s.step a).Sane := by
  refine ⟨?_, fun i ↦ (duty_step h.unique h.duty a i).1.trans (h.duty i), h.late_step a, ?_⟩
  · rcases bus_step s a with ⟨hsubs, -⟩ | ⟨i, x, id, -, -, -, hbus⟩ | ⟨id, hbus⟩ | hbus
    · rw [hsubs]
      exact h.unique
    · rw [hbus]
      exact h.unique.insert id _
    · rw [hbus]
      exact h.unique.erase id
    · rw [hbus]
      exact .nil
  · rcases bus_step s a with ⟨hsubs, hcount⟩ | ⟨i, x, id, -, -, -, hbus⟩ | ⟨id, hbus⟩ | hbus
    · rw [hsubs, hcount]
      exact h.count
    · rw [hbus]
      rfl
    · rw [hbus]
      rfl
    · rw [hbus]
      rfl

/-! ### Every channel is closed in the end -/

/-- `close` has been through the registrations. -/
def Shut (s : EventRun P) : Prop := s.bus.closed = true ∧ .swapped ∉ s.closers

/-- A registration is one that `close` will see, and overwrites none. -/
def Permitted (s : EventRun P) (a : Act P) : Prop :=
  ∀ id ∈ s.registers a, ¬s.Shut ∧ s.bus.subs.get id = none

instance (s : EventRun P) : Decidable s.Shut :=
  inferInstanceAs (Decidable (s.bus.closed = true ∧ .swapped ∉ s.closers))

-- one identifier at most is asked about, and not all `2 ^ 64` in turn
instance (s : EventRun P) (a : Act P) : Decidable (s.Permitted a) :=
  match h : s.registers a with
  | none => .isTrue fun id hid ↦ by rw [h] at hid; cases hid
  | some id => decidable_of_iff (¬s.Shut ∧ s.bus.subs.get id = none)
      ⟨fun hp id' hid ↦ by rw [h] at hid; cases hid; exact hp, fun hp ↦ hp id h⟩

/-- Every call of `subscribe` has returned, a call of `close` has, and none is between the flag and the
channels; nor is an `unsubscribe` between its section and the channel. -/
structure Returned (s : EventRun P) : Prop where
  subscribes : ∀ x ∈ s.subscribers, x.call.isReturned = true
  closes : .returned ∈ s.closers
  swapped : .swapped ∉ s.closers
  cancels : ∀ ch, .removed ch ∉ s.cancels

/-- Nobody is registered once the bus is shut, and a channel is in somebody's hands until it is closed. -/
structure Kept (s : EventRun P) : Prop where
  duty : ∀ i, s.duty i = 1
  shut : s.Shut → s.bus.subs.values = []
  closed : .swapped ∈ s.closers ∨ .returned ∈ s.closers → s.bus.closed = true

theorem kept_start : (start : EventRun P).Kept :=
  ⟨fun _ ↦ rfl, fun _ ↦ rfl, by rintro (h | h) <;> cases h⟩

/-- What a step does to the flag and to the calls of `close`. -/
theorem closers_step (s : EventRun P) (a : Act P) :
    ((s.step a).bus.closed = s.bus.closed ∧ (.swapped ∈ (s.step a).closers ↔ .swapped ∈ s.closers) ∧
      (.returned ∈ (s.step a).closers → .returned ∈ s.closers ∨ s.bus.closed = true)) ∨
    ((s.step a).bus.closed = true ∧ .swapped ∈ (s.step a).closers) ∨
    ((s.step a).bus.subs.values = [] ∧ (s.step a).bus.closed = s.bus.closed ∧ .swapped ∈ s.closers) := by
  have hother (hbus : (s.step a).bus.closed = s.bus.closed) (hcl : (s.step a).closers = s.closers) :
      (s.step a).bus.closed = s.bus.closed ∧ (.swapped ∈ (s.step a).closers ↔ .swapped ∈ s.closers) ∧
      (.returned ∈ (s.step a).closers → .returned ∈ s.closers ∨ s.bus.closed = true) :=
    ⟨hbus, by rw [hcl], fun h ↦ .inl (hcl ▸ h)⟩
  cases a with
  | callSubscribe | callUnsubscribe | receive => exact .inl (hother rfl rfl)
  | callClose =>
    refine .inl ⟨rfl, ?_, fun h ↦ .inl ?_⟩
    · show CloseCall.swapped ∈ s.closers ++ [CloseCall.called] ↔ _
      simp
    · replace h : CloseCall.returned ∈ s.closers ++ [CloseCall.called] := h
      simpa using h
  | publish e =>
    obtain ⟨-, hbus, -, hcl⟩ := publish_frame e s.bus.subs.values s
    exact .inl (hother (congrArg EventBus.closed hbus) hcl)
  | subscribe k =>
    refine .inl ?_
    rcases hk : s.subscribers[k]? with _ | x
    · have heq : s.step (.subscribe k) = s := by rw [step, hk]
      exact hother (by rw [heq]) (by rw [heq])
    · have heq : s.step (.subscribe k) = s.subscribe k x := by rw [step, hk]
      refine hother ?_ ?_
      · rw [heq, subscribe]
        split <;> rfl
      · rw [heq, subscribe]
        split <;> rfl
  | unsubscribe j =>
    refine .inl ?_
    rcases hj : s.cancels[j]? with _ | c
    · have heq : s.step (.unsubscribe j) = s := by rw [step, hj]
      exact hother (by rw [heq]) (by rw [heq])
    · have heq : s.step (.unsubscribe j) = s.unsubscribe j c := by rw [step, hj]
      rcases c with id | ch | _
      · refine hother ?_ ?_
        · rw [heq, unsubscribe]
          split <;> rfl
        · rw [heq, unsubscribe]
          split <;> rfl
      · exact hother (by rw [heq]; rfl) (by rw [heq]; rfl)
      · exact hother (by rw [heq]; rfl) (by rw [heq]; rfl)
  | close k =>
    rcases hk : s.closers[k]? with _ | c
    · have heq : s.step (.close k) = s := by rw [step, hk]
      exact .inl (hother (by rw [heq]) (by rw [heq]))
    · have heq : s.step (.close k) = s.close k c := by rw [step, hk]
      have hset := count_set_add hk
      rw [heq]
      rcases c with _ | _ | _
      · rw [close]
        split
        · next hclosed =>
          -- the flag was set already
          refine .inl ⟨rfl, ?_, fun _ ↦ .inr hclosed⟩
          have hcount := hset .returned .swapped
          simp only [reduceCtorEq, if_false, Nat.add_zero] at hcount
          rw [← List.count_pos_iff, ← List.count_pos_iff, hcount]
        · obtain ⟨hlt, -⟩ := List.getElem?_eq_some_iff.1 hk
          exact .inr (.inl ⟨rfl, List.mem_set hlt _⟩)
      · exact .inr (.inr ⟨rfl, rfl, List.mem_of_getElem? hk⟩)
      · exact .inl ⟨rfl, .rfl, .inl⟩

theorem Kept.step (hk : s.Kept) (h : s.Sane) (ha : s.Permitted a) : (s.step a).Kept := by
  refine ⟨fun i ↦ ((duty_step h.unique h.duty a i).2 fun id hid ↦ (ha id hid).2).trans (hk.duty i), fun hshut ↦ ?_,
    fun hret ↦ ?_⟩
  · rcases closers_step s a with ⟨hclosed, hswap, -⟩ | ⟨-, hswap⟩ | ⟨hnil, -⟩
    · have hold : s.Shut := ⟨hclosed ▸ hshut.1, fun hm ↦ hshut.2 (hswap.2 hm)⟩
      have hnil := hk.shut hold
      rcases bus_step s a with ⟨hsubs, -⟩ | ⟨i, x, id, rfl, hx, hcall, -⟩ | ⟨id, hbus⟩ | hbus
      · rw [hsubs]
        exact hnil
      · exact absurd hold (ha id (registers_eq hx hcall)).1
      · rw [hbus]
        exact List.eq_nil_iff_forall_not_mem.2 fun sub hsub ↦ by
          have hmem : sub ∈ s.bus.subs.values := KeyMap.mem_values_of_erase hsub
          rw [hnil] at hmem
          cases hmem
      · rw [hbus]
        rfl
    · exact absurd hswap hshut.2
    · exact hnil
  · rcases closers_step s a with ⟨hclosed, hswap, hold⟩ | ⟨hclosed, -⟩ | ⟨-, hclosed, hswap⟩
    · rw [hclosed]
      rcases hret with hret | hret
      · exact hk.closed (.inl (hswap.1 hret))
      · rcases hold hret with hold | hold
        · exact hk.closed (.inr hold)
        · exact hold
    · exact hclosed
    · rw [hclosed]
      exact hk.closed (.inl hswap)

theorem Sane.closes_le_one (h : s.Sane) (hx : x ∈ s.subscribers) : x.closes ≤ 1 := by
  obtain ⟨i, hi⟩ := List.mem_iff_getElem?.1 hx
  have hduty := h.duty i
  have hle : x.closes ≤ own s.subscribers[i]? := hi ▸ Nat.le_add_right ..
  unfold EventRun.duty at hduty
  omega

theorem Kept.closes_eq_one (hk : s.Kept) (hr : s.Returned) (hx : x ∈ s.subscribers) :
    x.closes = 1 := by
  obtain ⟨i, hi⟩ := List.mem_iff_getElem?.1 hx
  have hduty := hk.duty i
  have hsubs := hk.shut ⟨hk.closed (.inr hr.closes), hr.swapped⟩
  have hcancels : s.cancels.count (.removed i) = 0 := List.count_eq_zero.2 (hr.cancels i)
  have hown : own s.subscribers[i]? = x.closes := by
    rw [hi]
    dsimp only [own]
    rw [hr.subscribes x hx]
    rfl
  rw [EventRun.duty, hsubs, hcancels, hown] at hduty
  exact hduty

/-- **Every channel is closed once, and nothing is sent on it afterwards**: in every run in which no
`subscribe` registers after `close` was through, nor under an identifier that is in use. Without that
condition a channel is still closed at most once (`Sane.closes_le_one`). -/
theorem closed_once_of_permitted {l : List (Act P)} (hl : Runs.Along step Permitted start l) :
    (∀ x ∈ (l.foldl step (start : EventRun P)).subscribers, x.closes ≤ 1 ∧ x.late = 0) ∧
      ((l.foldl step (start : EventRun P)).Returned →
        ∀ x ∈ (l.foldl step (start : EventRun P)).subscribers, x.closes = 1) := by
  have hinv := hl.invariant (I := fun s ↦ s.Sane ∧ s.Kept)
    (fun _ a ha h ↦ ⟨h.1.step a, h.2.step h.1 ha⟩) ⟨sane_start, kept_start⟩
  exact ⟨fun x hx ↦ ⟨hinv.1.closes_le_one hx, hinv.1.late x hx⟩,
    fun hr x hx ↦ hinv.2.closes_eq_one hr hx⟩

/-- Two subscribers: one cancels twice, `close` closes the channel of the other. -/
def cancelledAndClosed : List (Act ℕ) :=
  [.callSubscribe 1 [.insert], .subscribe 0, .subscribe 0, .subscribe 0, .callSubscribe 1 [],
    .subscribe 1, .subscribe 1, .subscribe 1, .publish ⟨.insert, 5⟩, .callUnsubscribe 1,
    .callUnsubscribe 1, .unsubscribe 0, .unsubscribe 1, .unsubscribe 0, .callClose, .close 0, .close 0]

theorem closed_once_of_permitted_two :
    (cancelledAndClosed.foldl step start).subscribers.length = 2 ∧
      ∀ x ∈ (cancelledAndClosed.foldl step start).subscribers, x.closes = 1 := by
  have hl : Runs.Along step Permitted start cancelledAndClosed := by
    decide +kernel
  have hcancels : (cancelledAndClosed.foldl step start).cancels = [.returned, .returned] := by
    decide +kernel
  refine ⟨by decide +kernel, (closed_once_of_permitted hl).2 ⟨?_, ?_, ?_, fun ch ↦ ?_⟩⟩
  · decide +kernel
  · decide +kernel
  · decide +kernel
  · rw [hcancels]
    simp

/-- `subscribe` sees the bus open; `close` runs to its end; `subscribe` registers. -/
def subscribedAfterClose : List (Act ℕ) :=
  [.callSubscribe 1 [], .subscribe 0, .callClose, .close 0, .close 0, .subscribe 0, .subscribe 0]

theorem open_after_close :
    (subscribedAfterClose.foldl step start).Returned ∧
      (subscribedAfterClose.foldl step start).subscribers.map Subscriber.closes = [0] :=
  ⟨⟨by decide +kernel, by decide +kernel, by decide +kernel, fun _ ↦ List.not_mem_nil⟩,
    by decide +kernel⟩

end EventRun

end Memcache
